import LetPoly.Bindings
import LetPoly.Ty.Basic

/-! Solved unknowns. An entry may mention unknowns solved elsewhere, so `apply` follows entries until
none is left; on entries without a cycle it never visits one twice. -/

namespace LetPoly

abbrev Solution := Bindings Nat Ty

namespace Solution

/-- What an unknown stands for after following at most `n` entries in a row. -/
def image (s : Solution) : Nat → Nat → Ty
  | 0, u => .unknown u
  | n + 1, u =>
    match s.get? u with
    | none => .unknown u
    | some t => t.subst (s.image n)

def apply (s : Solution) (t : Ty) : Ty := t.subst (s.image s.length)

/-- The entries by ascending unknown. -/
def entries (s : Solution) : List (Nat × Ty) := s.mergeSort fun a b => a.1 ≤ b.1

/-- Adds entries, the first one first. -/
def extend (s : Solution) (bs : List (Nat × Ty)) : Solution :=
  bs.foldl (fun s b => s.insert b.1 b.2) s

end Solution
end LetPoly
