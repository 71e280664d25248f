import LetPoly.Expr.Basic

/-! The values of the names in scope, and those of the built-in names: each operation is a curried
closure over an empty environment. -/

namespace LetPoly

abbrev Env := Scope Expr

/-- The function value of an operation, with `id` for its number. -/
def Primitive.closure (p : Primitive) (id : Nat) : Closure where
  id := id
  binder := "x"
  body := if p.arity = 1 then .prim p else .lam "y" (.prim p)
  env := []
  self := none

namespace Env

/-- The built-in names, their closures numbered from `id` on. -/
def builtins (id : Nat) : Env :=
  Bindings.ofList <|
    ("nil", .list []) :: Primitive.all.zipIdx.map fun p => (p.1.name, (p.1.closure (id + p.2)).toExpr)

/-- How many numbers the built-in names use. -/
def builtinCount : Nat := Primitive.all.length

def initial : Env := builtins 0

end Env
end LetPoly
