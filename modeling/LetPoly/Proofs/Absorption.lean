import Mathlib.Data.List.Permutation
import LetPoly.Proofs.Procedure

/-! Resolving a type before and after more of its unknowns are solved. A call of unification keeps all
entries and closes no cycle, so this holds of any number of calls (`extends_unifyPairs`). What was
resolved early is resolved late to the same as what it came from, and types that were the same stay the
same. -/

namespace LetPoly.Solution

variable {s : Solution}

/-- Makes the types of each pair equal, one pair after the other. A conflict stops its own pair only. -/
def unifyPairs (s : Solution) (pairs : List (Ty × Ty)) : Solution :=
  pairs.foldl (fun s p => (s.unify p.1 p.2).2) s

theorem unifyPairs_cons (s : Solution) (p : Ty × Ty) (pairs : List (Ty × Ty)) :
    s.unifyPairs (p :: pairs) = (s.unify p.1 p.2).2.unifyPairs pairs := rfl

theorem acyclic_unifyPairs (hs : s.Acyclic) (pairs : List (Ty × Ty)) :
    (s.unifyPairs pairs).Acyclic := by
  induction pairs generalizing s with
  | nil => exact hs
  | cons p pairs ih =>
    rw [unifyPairs_cons]
    exact ih (acyclic_unify hs p.1 p.2)

theorem extends_unifyPairs (hs : s.Acyclic) (pairs : List (Ty × Ty)) :
    (s.unifyPairs pairs).Extends s := by
  induction pairs generalizing s with
  | nil => exact .refl s
  | cons p pairs ih =>
    rw [unifyPairs_cons]
    exact (ih (acyclic_unify hs p.1 p.2)).trans (extends_unify hs p.1 p.2)

/-- On a solution without a cycle resolving ends, in one way only, and leaves nothing that it could
resolve further. Whatever is unified from there on, with success or not, it makes no difference whether a
type was resolved before, and types that resolve to the same go on doing so. -/
theorem apply_absorbed (s : Solution) (hs : s.Acyclic) (t : Ty) :
    (∀ t', s.Resolves t t' ↔ s.apply t = t') ∧
    (∀ u ∈ (s.apply t).unknowns, s.get? u = none) ∧
    s.apply (s.apply t) = s.apply t ∧
    ∀ pairs, let s' := s.unifyPairs pairs
      (∀ r, s'.Resolves r (s'.apply r)) ∧
      s'.apply (s.apply t) = s'.apply t ∧
      ∀ t₁ t₂, s.apply t₁ = s.apply t₂ → s'.apply t₁ = s'.apply t₂ := by
  refine ⟨fun t' => resolves_iff hs, fun u hu => (mem_unknowns_apply hs hu).1, apply_apply hs t, ?_⟩
  intro pairs s'
  have hs' : s'.Acyclic := acyclic_unifyPairs hs pairs
  have absorb : ∀ r, s'.apply (s.apply r) = s'.apply r :=
    apply_apply_of_extends hs hs' (extends_unifyPairs hs pairs)
  refine ⟨resolves_apply hs', absorb t, fun t₁ t₂ h => ?_⟩
  calc s'.apply t₁ = s'.apply (s.apply t₁) := (absorb t₁).symm
    _ = s'.apply (s.apply t₂) := by rw [h]
    _ = s'.apply t₂ := absorb t₂

/-- Unknown 1 is solved through unknowns 2 and 3, which are solved later on. The second of the pairs is a
conflict. -/
theorem apply_absorbed_chain :
    let s : Solution := [(1, .fn (.unknown 2) (.unknown 3))]
    let pairs : List (Ty × Ty) :=
      [(.list (.unknown 3), .list (.list (.unknown 2))), (.fn (.unknown 2) .number, .fn .number .boolean)]
    s.Acyclic ∧ s.apply (.list (.unknown 1)) = .list (.fn (.unknown 2) (.unknown 3)) ∧
      (s.unifyPairs pairs).apply (.list (.fn (.unknown 2) (.unknown 3))) =
        (s.unifyPairs pairs).apply (.list (.unknown 1)) ∧
      (s.unifyPairs pairs).apply (.list (.unknown 1)) = .list (.fn .number (.list .number)) := by
  intro s pairs
  have hs : s.Acyclic := acyclic_insert acyclic_nil (by decide) fun _ _ => rfl
  have hresolved : s.apply (.list (.unknown 1)) = .list (.fn (.unknown 2) (.unknown 3)) := rfl
  obtain ⟨-, -, -, hlater⟩ := apply_absorbed s hs (.list (.unknown 1))
  obtain ⟨-, habsorbed, -⟩ := hlater pairs
  rw [hresolved] at habsorbed
  exact ⟨hs, hresolved, habsorbed, by cbv⟩

end LetPoly.Solution
