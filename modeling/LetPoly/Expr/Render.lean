import LetPoly.Expr.Basic

/-! The text of an expression. A lambda, an `if` and a `let` reach as far to the right as they can, so
they stand in parentheses on either side of an application; an application does so as an argument. -/

namespace LetPoly.Expr

def reachesRight : Expr → Bool
  | lam .. | ite .. | letIn .. => true
  | _ => false

def isCompound : Expr → Bool
  | app .. => true
  | e => e.reachesRight

def parenthesized (text : String) : Bool → String
  | true => "(" ++ text ++ ")"
  | false => text

mutual

def render : Expr → String
  | number n => toString n.toInt
  | boolean b => if b then "true" else "false"
  | var name => name
  | lam binder body => "\\" ++ binder ++ " -> " ++ body.render
  | app func argument =>
    parenthesized func.render func.reachesRight ++ " " ++
      parenthesized argument.render argument.isCompound
  | ite c t e => "if " ++ c.render ++ " then " ++ t.render ++ " else " ++ e.render
  | letIn recursive binder bound body =>
    (if recursive then "let rec " else "let ") ++ binder ++ " = " ++ bound.render ++ " in " ++
      body.render
  | list items => "[" ++ renderItems items ++ "]"
  | prim op => op.render
  | closure _ binder .. => "<closure \\" ++ binder ++ ">"

def renderItems : List Expr → String
  | [] => ""
  | e :: es => e.render ++ renderMore es

/-- The items after the first, each with its comma. -/
def renderMore : List Expr → String
  | [] => ""
  | e :: es => ", " ++ e.render ++ renderMore es

end

instance : ToString Expr := ⟨render⟩

end LetPoly.Expr
