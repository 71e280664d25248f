import LetPoly.Expr.Basic
import LetPoly.Text.Quoted

/-! The structure of an expression as text: every node by its name, with its parts. -/

namespace LetPoly

/-- A node with named parts. -/
def record (name : String) (parts : List (String × String)) : String :=
  name ++ " \x7b " ++ ", ".intercalate (parts.map fun p => p.1 ++ ": " ++ p.2) ++ " \x7d"

def Primitive.outline : Primitive → String
  | add => "Add"
  | subtract => "Subtract"
  | multiply => "Multiply"
  | equals => "Equals"
  | cons => "Cons"
  | isEmpty => "IsEmpty"
  | head => "Head"
  | tail => "Tail"

namespace Expr

def boolText (b : Bool) : String := if b then "true" else "false"

mutual

/-- The environment of a closure is left out. -/
def outline : Expr → String
  | number n => "Number(" ++ toString n.toInt ++ ")"
  | boolean b => "Boolean(" ++ boolText b ++ ")"
  | var name => "Var(" ++ quoted name ++ ")"
  | lam binder body => record "Lambda" [("binder", quoted binder), ("body", body.outline)]
  | app func argument =>
    record "Application" [("func", func.outline), ("argument", argument.outline)]
  | ite c t e =>
    record "If" [("condition", c.outline), ("then_branch", t.outline), ("else_branch", e.outline)]
  | letIn recursive binder bound body =>
    record "Let" [("recursive", boolText recursive), ("binder", quoted binder),
      ("bound", bound.outline), ("body", body.outline)]
  | list items => "List([" ++ ", ".intercalate (outlineItems items) ++ "])"
  | prim op => "Primitive(" ++ op.outline ++ ")"
  | closure _ binder body _ self =>
    let self := match self with
      | none => "None"
      | some name => "Some(" ++ quoted name ++ ")"
    "Closure(Closure \x7b binder: " ++ quoted binder ++ ", body: " ++ body.outline ++
      ", self_name: " ++ self ++ ", .. \x7d)"

def outlineItems : List Expr → List String
  | [] => []
  | e :: es => e.outline :: outlineItems es

end

end Expr
end LetPoly
