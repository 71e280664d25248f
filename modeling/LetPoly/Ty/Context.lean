import LetPoly.Ty.Scheme
import LetPoly.Ty.Solution

/-! The schemes of the names in scope, and those of the built-in names. -/

namespace LetPoly

abbrev Context := Scope Scheme

namespace Context

/-- The unknowns that some binding still depends on: none of them may be generalized. -/
def freeUnknowns (ctx : Context) (s : Solution) : List Nat :=
  ascending (ctx.flatMap fun b => (s.apply b.2.body).unknowns)

private def number₂ (result : Ty) : Scheme := .ofTy (.fn .number (.fn .number result))

private def forAll (body : Ty) : Scheme := ⟨["a"], body⟩

def initial : Context :=
  let a := Ty.var "a"
  Bindings.ofList
    [("add", number₂ .number),
     ("subtract", number₂ .number),
     ("multiply", number₂ .number),
     ("equals", number₂ .boolean),
     ("nil", forAll (.list a)),
     ("cons", forAll (.fn a (.fn (.list a) (.list a)))),
     ("isEmpty", forAll (.fn (.list a) .boolean)),
     ("head", forAll (.fn (.list a) a)),
     ("tail", forAll (.fn (.list a) (.list a)))]

end Context
end LetPoly
