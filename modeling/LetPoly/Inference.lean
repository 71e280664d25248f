import LetPoly.Event
import LetPoly.Ty.Context

/-! Types of expressions, with polymorphic `let`. A session holds the solution found so far and the
supply of unknowns; after an error it stands as it was when the error arose. -/

namespace LetPoly

inductive TypeError where
  | unboundVariable (name : String)
  | mismatch (expected found : Ty)
  | infinite (unknown : Nat) (ty : Ty)
  | runtimeValue (text : String)
deriving DecidableEq, Repr

namespace TypeError

def ofConflict : Conflict → TypeError
  | .mismatch expected found => mismatch expected found
  | .occurs u t => infinite u t

def message : TypeError → String
  | unboundVariable name => "Type error: unbound variable: " ++ name
  | mismatch expected found =>
    "Type error: type mismatch: expected " ++ expected.render ++ ", found " ++ found.render
  | infinite u t =>
    "Type error: cannot construct infinite type: u" ++ toString u ++ " = " ++ t.render
  | runtimeValue text => "Type error: cannot infer the type of runtime value " ++ text

end TypeError

/-- The unknowns given out are `1` to `supply`. -/
structure Session where
  solution : Solution
  supply : Nat
  log : Log

def Session.new : Session := ⟨[], 0, []⟩

abbrev Infer := ExceptT TypeError (StateM Session)

namespace Infer

def note (e : Event) : Infer Unit := modify fun s => { s with log := e :: s.log }

def fresh : Infer Ty := do
  let s ← get
  set { s with supply := s.supply + 1 }
  return .unknown (s.supply + 1)

def unify (a b : Ty) : Infer Unit := do
  let s ← get
  let r := s.solution.unification a b
  set { s with
    solution := s.solution.extend r.bindings
    log := (r.steps.map Event.unification).reverse ++ s.log }
  match r.conflict with
  | none => return ()
  | some c => throw (.ofConflict c)

/-- Puts a fresh unknown for each variable of a list, one after the other. -/
def instantiateVars : List String → Ty → Infer Ty
  | [], t => return t
  | v :: vs, t => do
    let u ← fresh
    instantiateVars vs (t.substVar v u)

def instantiate (scheme : Scheme) : Infer Ty := instantiateVars scheme.vars scheme.body

end Infer

/-- The name of the variable that an unknown turns into. -/
def generalizedName (u : Nat) : String := "a" ++ toString u

/-- Turns every unknown on which no binding of the context depends into a variable. -/
def generalize (s : Solution) (ctx : Context) (t : Ty) : Scheme :=
  let t := s.apply t
  let kept := ctx.freeUnknowns s
  let free := t.freeUnknowns.filter fun u => u ∉ kept
  ⟨free.map generalizedName,
    t.subst fun u => if u ∈ free then .var (generalizedName u) else .unknown u⟩

mutual

/-- The type of an expression, not resolved by the solution. -/
def inferExpr (ctx : Context) : Expr → Infer Ty
  | .number _ => return .number
  | .boolean _ => return .boolean
  | .var name =>
    match ctx.get? name with
    | some scheme => Infer.instantiate scheme
    | none => throw (.unboundVariable name)
  | .lam binder body => do
    let argument ← Infer.fresh
    let result ← inferExpr (ctx.insert binder (.ofTy argument)) body
    return .fn argument result
  | .app func argument => do
    let f ← inferExpr ctx func
    let a ← inferExpr ctx argument
    let result ← Infer.fresh
    Infer.unify f (.fn a result)
    return result
  | .ite condition thenBranch elseBranch => do
    let c ← inferExpr ctx condition
    let t ← inferExpr ctx thenBranch
    let e ← inferExpr ctx elseBranch
    Infer.unify c .boolean
    Infer.unify t e
    return t
  | .letIn true binder bound body => do
    let own ← Infer.fresh
    let inner := ctx.insert binder (.ofTy own)
    let t ← inferExpr inner bound
    Infer.unify own t
    inferExpr inner body
  | .letIn false binder bound body => do
    let t ← inferExpr ctx bound
    let scheme := generalize (← get).solution ctx t
    Infer.note (.generalized binder scheme)
    inferExpr (ctx.insert binder scheme) body
  | .list items => do
    let element ← Infer.fresh
    inferItems ctx element items
    return .list element
  | e@(.prim _) | e@(.closure ..) => throw (.runtimeValue e.render)

/-- Makes every item have the type `element`. -/
def inferItems (ctx : Context) (element : Ty) : List Expr → Infer Unit
  | [] => return ()
  | item :: items => do
    let t ← inferExpr ctx item
    Infer.unify element t
    inferItems ctx element items

end

/-- The type of an expression, resolved by the solution. -/
def infer (ctx : Context) (e : Expr) : Infer Ty := do
  let t ← inferExpr ctx e
  return (← get).solution.apply t

/-- The type of a program that uses the built-in names only. -/
def inferType (e : Expr) : Except TypeError Ty := ((infer .initial e).run Session.new).1

end LetPoly
