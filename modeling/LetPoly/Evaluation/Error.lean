import LetPoly.Expr.Render

/-! What can go wrong in an evaluation. -/

namespace LetPoly

inductive EvalError where
  | unboundVariable (name : String)
  | notAFunction (value : Expr)
  | notABoolean (value : Expr)
  | notAList (value : Expr)
  | emptyListAccess (op : Primitive)
  | invalidOperands (op : Primitive) (operands : List Expr)
  | recursionLimit (limit : Nat)

def EvalError.message : EvalError → String
  | unboundVariable name => "Runtime error: " ++ name ++ " was undefined"
  | notAFunction v => "Runtime error: " ++ v.render ++ " is not a function"
  | notABoolean v => "Runtime error: condition " ++ v.render ++ " is not a boolean"
  | notAList v => "Runtime error: expected a list, found " ++ v.render
  | emptyListAccess op => "Runtime error: " ++ op.name ++ " of an empty list"
  | invalidOperands op operands =>
    "Runtime error: can't apply " ++ op.name ++ " to " ++
      " and ".intercalate (operands.map Expr.render)
  | recursionLimit n =>
    "Runtime error: recursion limit of " ++ toString n ++ " nested applications exceeded"

end LetPoly
