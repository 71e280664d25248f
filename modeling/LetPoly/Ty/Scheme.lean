import LetPoly.Ty.Basic

/-! Type schemes: a body with the variables that may be chosen anew at each use. -/

namespace LetPoly

structure Scheme where
  vars : List String
  body : Ty
deriving DecidableEq, Repr, Inhabited

namespace Scheme

/-- A scheme with nothing to choose. -/
def ofTy (t : Ty) : Scheme := ⟨[], t⟩

def isMonomorphic (s : Scheme) : Bool := s.vars.isEmpty

def freeUnknowns (s : Scheme) : List Nat := s.body.freeUnknowns

def render (s : Scheme) : String :=
  if s.isMonomorphic then s.body.render
  else "∀ " ++ " ".intercalate s.vars ++ ". " ++ s.body.render

instance : ToString Scheme := ⟨render⟩

end Scheme
end LetPoly
