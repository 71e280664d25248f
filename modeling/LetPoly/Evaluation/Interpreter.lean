import LetPoly.Evaluation.Primitive
import LetPoly.Event

/-! Call-by-value evaluation. Expressions are walked by structural recursion; only the application of a
closure leaves them, and `apply` counts how deep those are nested. Evaluation that needs more nesting
than it is given does not finish, which is not one of its errors. -/

namespace LetPoly

structure Interpreter where
  maxDepth : Option Nat
  depth : Nat
  nextId : Nat
  log : Log

/-- An interpreter that has not started, and numbers its closures from `nextId` on. -/
def Interpreter.new (maxDepth : Option Nat) (nextId : Nat) : Interpreter := ⟨maxDepth, 0, nextId, []⟩

/-- Evaluation that may fail, and of which `none` says that it did not finish. -/
abbrev Eval := ExceptT EvalError (StateT Interpreter Option)

namespace Eval

def note (e : Event) : Eval Unit := modify fun i => { i with log := e :: i.log }

def newId : Eval Nat := do
  let i ← get
  set { i with nextId := i.nextId + 1 }
  return i.nextId

def unfinished {α : Type} : Eval α := fun _ => none

/-- Runs one level deeper, and comes back to this one after a value and after an error. -/
def deeper {α : Type} (act : Eval α) : Eval α := fun i => do
  let (r, j) ← act { i with depth := i.depth + 1 }
  return (r, { j with depth := j.depth - 1 })

/-- Fails if no further application may be nested in those under way. -/
def checkDepth : Eval Unit := do
  let i ← get
  match i.maxDepth with
  | some limit => if limit ≤ i.depth then throw (.recursionLimit limit)
  | none => return ()

def ofExcept {α : Type} : Except EvalError α → Eval α
  | .ok a => return a
  | .error e => throw e

end Eval

/-- The environment of a closure's body: the argument, and the closure under its own name. -/
def Closure.scope (c : Closure) (argument : Expr) : Env :=
  let env := match c.self with
    | none => c.env
    | some name => c.env.insert name c.toExpr
  env.insert c.binder argument

/-- Lets a closure call itself by `name`. The result is another closure. -/
def tie (name : String) : Expr → Eval Expr
  | .closure _ binder body env _ => do
    Eval.note (.tied name)
    return .closure (← Eval.newId) binder body env (some name)
  | v => return v

mutual

/-- The value of an expression, where `call` applies closures. -/
def evalWith (call : Closure → Expr → Eval Expr) (env : Env) : Expr → Eval Expr
  | .number n => return .number n
  | .boolean b => return .boolean b
  | .closure id binder body env self => return .closure id binder body env self
  | .var name =>
    match env.get? name with
    | some v => return v
    | none => throw (.unboundVariable name)
  | .prim op => Eval.ofExcept (op.eval env)
  | .lam binder body => return .closure (← Eval.newId) binder body env none
  | .app func argument => do
    let f ← evalWith call env func
    match f.closure? with
    | none => throw (.notAFunction f)
    | some c =>
      let a ← evalWith call env argument
      call c a
  | .ite condition thenBranch elseBranch => do
    match ← evalWith call env condition with
    | .boolean true => evalWith call env thenBranch
    | .boolean false => evalWith call env elseBranch
    | v => throw (.notABoolean v)
  | .letIn recursive binder bound body => do
    let v ← evalWith call env bound
    let v ← if recursive then tie binder v else pure v
    evalWith call (env.insert binder v) body
  | .list items => return .list (← evalItems call env items)

def evalItems (call : Closure → Expr → Eval Expr) (env : Env) : List Expr → Eval (List Expr)
  | [] => return []
  | item :: items => do
    let v ← evalWith call env item
    return v :: (← evalItems call env items)

end

/-- Applies a closure, with at most `fuel` applications nested in one another. -/
def apply : Nat → Closure → Expr → Eval Expr
  | 0, _, _ => Eval.unfinished
  | fuel + 1, c, argument => do
    Eval.checkDepth
    Eval.note (.applied c.binder argument)
    Eval.deeper (evalWith (apply fuel) (c.scope argument) c.body)

def eval (fuel : Nat) (env : Env) (e : Expr) : Eval Expr := evalWith (apply fuel) env e

namespace Interpreter

/-- Enough nesting for every evaluation that fits into memory. -/
def unlimited : Nat := Nat.pow 2 62

/-- One application more than the limit allows, so that it is the limit which stops an evaluation. -/
def fuel (i : Interpreter) : Nat :=
  match i.maxDepth with
  | some limit => limit - i.depth + 1
  | none => unlimited

/-- Evaluates with as much nesting as the interpreter allows. -/
def run (i : Interpreter) (env : Env) (e : Expr) : Option (Except EvalError Expr × Interpreter) :=
  eval i.fuel env e i

end Interpreter
end LetPoly
