import LetPoly.Evaluation.Environment
import LetPoly.Evaluation.Error

/-! The built-in operations on operands found in an environment, `x` before `y`. Arithmetic is that of
64-bit words. -/

namespace LetPoly.Primitive

def operand (env : Env) (name : String) : Except EvalError Expr :=
  match env.get? name with
  | some v => .ok v
  | none => .error (.unboundVariable name)

def asList : Expr → Except EvalError (List Expr)
  | .list items => .ok items
  | v => .error (.notAList v)

def arithmetic (op : Primitive) (f : Int64 → Int64 → Int64) : Expr → Expr → Except EvalError Expr
  | .number m, .number n => .ok (.number (f m n))
  | x, y => .error (.invalidOperands op [x, y])

def compare : Expr → Expr → Except EvalError Expr
  | .number m, .number n => .ok (.boolean (m == n))
  | .boolean a, .boolean b => .ok (.boolean (a == b))
  | x, y => .error (.invalidOperands equals [x, y])

def eval (op : Primitive) (env : Env) : Except EvalError Expr := do
  let x ← operand env "x"
  match op with
  | add => arithmetic op (· + ·) x (← operand env "y")
  | subtract => arithmetic op (· - ·) x (← operand env "y")
  | multiply => arithmetic op (· * ·) x (← operand env "y")
  | equals => compare x (← operand env "y")
  | cons =>
    let y ← operand env "y"
    return .list (x :: (← asList y))
  | isEmpty => return .boolean (← asList x).isEmpty
  | head =>
    match ← asList x with
    | v :: _ => return v
    | [] => throw (.emptyListAccess op)
  | tail =>
    match ← asList x with
    | _ :: vs => return .list vs
    | [] => throw (.emptyListAccess op)

end LetPoly.Primitive
