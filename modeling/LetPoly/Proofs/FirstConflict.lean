import Mathlib.Data.List.Permutation
import LetPoly.Proofs.Procedure

/-! Where unification fails. The types of a conflict are the parts of the two resolved types at one
place; to the left of it these have become equal (`Conflict.FirstAt`). -/

namespace LetPoly

namespace Ty

/-- One step down into a type. -/
inductive Turn where
  | argument | result | element
deriving DecidableEq, Repr

/-- The way down from a type to a part of it. -/
abbrev Position := List Turn

variable {a b a' b' r r' e e' : Ty} {p q : Position}

def turn? : Ty → Turn → Option Ty
  | fn a _, .argument => some a
  | fn _ r, .result => some r
  | list e, .element => some e
  | _, _ => none

/-- The part of a type at a position. -/
def at? (t : Ty) : Position → Option Ty
  | [] => some t
  | turn :: p => (t.turn? turn).bind fun part => part.at? p

/-- The way to the one position goes through the argument of an arrow, the way to the other through its
result. -/
def Position.LeftOf (q p : Position) : Prop :=
  ∃ above q' p', q = above ++ .argument :: q' ∧ p = above ++ .result :: p'

theorem Position.not_leftOf_nil : ¬ LeftOf q [] := by
  rintro ⟨above, q', p', -, h⟩
  cases above <;> cases h

theorem Position.leftOf_cons {turn : Turn} (h : LeftOf q (turn :: p)) :
    (∃ q', q = .argument :: q' ∧ turn = .result) ∨ ∃ q', q = turn :: q' ∧ LeftOf q' p := by
  obtain ⟨above, q', p', rfl, h⟩ := h
  cases above with
  | nil =>
    obtain ⟨rfl, -⟩ := List.cons.inj h
    exact .inl ⟨q', rfl, rfl⟩
  | cons t above =>
    obtain ⟨rfl, rfl⟩ := List.cons.inj h
    exact .inr ⟨above ++ .argument :: q', rfl, above, q', p', rfl, rfl⟩

theorem mem_unknowns_of_turn? {t x : Ty} {turn : Turn} {u : Nat} (h : t.turn? turn = some x)
    (hu : u ∈ x.unknowns) : u ∈ t.unknowns := by
  unfold turn? at h
  split at h
  · cases h
    exact List.mem_append_left _ hu
  · cases h
    exact List.mem_append_right _ hu
  · cases h
    exact hu
  · cases h

theorem mem_unknowns_of_at? {t x : Ty} {u : Nat} (h : t.at? p = some x) (hu : u ∈ x.unknowns) :
    u ∈ t.unknowns := by
  induction p generalizing t with
  | nil =>
    cases h
    exact hu
  | cons turn p ih =>
    obtain ⟨part, hturn, hpart⟩ := Option.bind_eq_some_iff.1 h
    exact mem_unknowns_of_turn? hturn (ih hpart)

end Ty

namespace Conflict

open Ty

variable {c : Conflict} {a b a' b' r r' e e' t : Ty} {u : Nat} {p : Position}

/-- The conflict is about these two types, the first of which was expected. -/
def Between : Conflict → Ty → Ty → Prop
  | mismatch expected found, x, y => expected = x ∧ found = y ∧
      (∀ u, x ≠ .unknown u) ∧ (∀ u, y ≠ .unknown u) ∧
      (x.ctorIdx ≠ y.ctorIdx ∨ ∃ v w, v ≠ w ∧ x = .var v ∧ y = .var w)
  | occurs u t, x, y => (x = .unknown u ∧ y = t ∨ y = .unknown u ∧ x = t) ∧
      t ≠ .unknown u ∧ u ∈ t.unknowns

theorem between_of_occurs (hne : a ≠ b) (ho : a.orient? b = some (u, t)) (hu : u ∈ t.unknowns) :
    (occurs u t).Between a b := by
  rcases orient?_eq_some ho with ⟨rfl, rfl⟩ | ⟨rfl, rfl⟩
  · exact ⟨.inl ⟨rfl, rfl⟩, hne.symm, hu⟩
  · exact ⟨.inr ⟨rfl, rfl⟩, hne, hu⟩

theorem between_of_clash (hne : a ≠ b) (ho : a.orient? b = none) (hc : a.components? b = none) :
    (mismatch a b).Between a b := by
  obtain ⟨ha, hb⟩ := orient?_eq_none.1 ho
  refine ⟨rfl, rfl, ha, hb, ?_⟩
  cases a <;> cases b <;> simp_all [components?, Ty.ctorIdx]

/-- The conflict is about the parts of two types at the position, and to the left of it the types agree. -/
structure FirstAt (c : Conflict) (a b : Ty) (p : Position) : Prop where
  parts : ∃ x y, a.at? p = some x ∧ b.at? p = some y ∧ c.Between x y
  agree : ∀ q, q.LeftOf p → a.at? q = b.at? q

theorem Between.firstAt (h : c.Between a b) : c.FirstAt a b [] :=
  ⟨⟨a, b, by simp [at?], by simp [at?], h⟩, fun q hq => absurd hq Position.not_leftOf_nil⟩

theorem FirstAt.argument (h : c.FirstAt a a' p) : c.FirstAt (.fn a r) (.fn a' r') (.argument :: p) := by
  refine ⟨h.parts, fun q hq => ?_⟩
  rcases Position.leftOf_cons hq with ⟨q', rfl, hresult⟩ | ⟨q', rfl, hleft⟩
  · cases hresult
  · exact h.agree q' hleft

theorem FirstAt.result (h : c.FirstAt r r' p) : c.FirstAt (.fn a r) (.fn a r') (.result :: p) := by
  refine ⟨h.parts, fun q hq => ?_⟩
  rcases Position.leftOf_cons hq with ⟨q', rfl, -⟩ | ⟨q', rfl, hleft⟩
  · rfl
  · exact h.agree q' hleft

theorem FirstAt.element (h : c.FirstAt e e' p) : c.FirstAt (.list e) (.list e') (.element :: p) := by
  refine ⟨h.parts, fun q hq => ?_⟩
  rcases Position.leftOf_cons hq with ⟨q', rfl, hresult⟩ | ⟨q', rfl, hleft⟩
  · cases hresult
  · exact h.agree q' hleft

end Conflict

namespace Equations

/-- One of the equations has the conflict, and those before it are true. -/
def FirstConflict (c : Conflict) : Equations → Prop
  | [] => False
  | (a, b) :: rest => (∃ p, c.FirstAt a b p) ∨ a = b ∧ FirstConflict c rest

variable {c : Conflict} {a b : Ty} {parts rest : Equations}

/-- What holds of the components holds of the types that they come from. -/
theorem FirstConflict.of_components {bs : List (Nat × Ty)} (hc : a.components? b = some parts)
    (h : FirstConflict c ((parts ++ rest : Equations).replaceAll bs)) :
    FirstConflict c (replaceAll bs ((a, b) :: rest)) := by
  rcases Ty.components?_eq_some hc with ⟨a₁, r₁, a₂, r₂, rfl, rfl, rfl⟩ | ⟨e₁, e₂, rfl, rfl, rfl⟩
  · simp only [replaceAll, List.map_cons, Ty.replaceAll_fn]
    rcases h with ⟨p, h⟩ | ⟨ha, ⟨p, h⟩ | ⟨hr, h⟩⟩
    · exact .inl ⟨_, h.argument⟩
    · refine .inl ⟨.result :: p, ?_⟩
      rw [ha]
      exact h.result
    · exact .inr ⟨by rw [ha, hr], h⟩
  · simp only [replaceAll, List.map_cons, Ty.replaceAll_list]
    rcases h with ⟨p, h⟩ | ⟨he, h⟩
    · exact .inl ⟨_, h.element⟩
    · exact .inr ⟨by rw [he], h⟩

/-- The conflict that ends a run is about what its bindings have made of the equations. -/
theorem firstConflict_of_unify (eqs : Equations) (h : eqs.unify.conflict = some c) :
    FirstConflict c (eqs.replaceAll eqs.unify.bindings) := by
  induction eqs using run_induction with
  | nil =>
    rw [unify_nil] at h
    cases h
  | equal a rest ih =>
    rw [unify_equal] at h ⊢
    exact .inr ⟨rfl, ih h⟩
  | occurs a b rest u t hne ho hu =>
    rw [unify_occurs hne ho hu] at h ⊢
    cases h
    exact .inl ⟨[], (Conflict.between_of_occurs hne ho hu).firstAt⟩
  | solve a b rest u t hne ho hu ih =>
    rw [unify_solve hne ho hu] at h ⊢
    change FirstConflict c (replaceAll ((u, t) :: _) ((a, b) :: rest))
    rw [replaceAll_cons]
    refine .inr ⟨?_, ih h⟩
    -- the binding makes both sides of the first equation the type that the unknown is solved to
    have hself : (Ty.unknown u).replace u t = t := if_pos rfl
    rcases Ty.orient?_eq_some ho with ⟨rfl, rfl⟩ | ⟨rfl, rfl⟩ <;>
      simp only [hself, Ty.replace_eq_self hu]
  | split a b rest parts hne ho hc ih =>
    rw [unify_split hne ho hc] at h ⊢
    exact .of_components hc (ih h)
  | clash a b rest hne ho hc =>
    rw [unify_clash hne ho hc] at h ⊢
    cases h
    exact .inl ⟨[], (Conflict.between_of_clash hne ho hc).firstAt⟩

end Equations

namespace Solution

/-- A conflict is about the parts of the two types at one position, as the solution that is left resolves
them, the expected one from the first type; to the left of it the types agree. An unknown that would
occur in what it stands for is not solved. -/
theorem unify_first_conflict (s : Solution) (hs : s.Acyclic) (a b : Ty) (c : Conflict) (s' : Solution)
    (h : s.unify a b = (.error c, s')) :
    s'.Acyclic ∧ s'.Extends s ∧ (∃ p, c.FirstAt (s'.apply a) (s'.apply b) p) ∧
      ∀ u t, c = .occurs u t → s'.get? u = none := by
  have hs' := acyclic_unify hs a b
  have hkeep := extends_unify hs a b
  rw [h] at hs' hkeep
  have hconflict : (s.unification a b).conflict = some c := unify_fst_eq_error.1 (by rw [h])
  have hleft : ∀ t, s'.apply t = (s.apply t).replaceAll (s.unification a b).bindings := by
    intro t
    rw [← apply_unify hs, h]
  have hfirst : ∃ p, c.FirstAt (s'.apply a) (s'.apply b) p := by
    have hrun := Equations.firstConflict_of_unify _ hconflict
    rw [hleft, hleft]
    exact hrun.resolve_right And.right
  refine ⟨hs', hkeep, hfirst, ?_⟩
  rintro u t rfl
  obtain ⟨p, ⟨x, y, hx, hy, hends, -⟩, -⟩ := hfirst
  rcases hends with ⟨rfl, -⟩ | ⟨rfl, -⟩
  · exact (mem_unknowns_apply hs' (Ty.mem_unknowns_of_at? hx (by simp [Ty.unknowns]))).1
  · exact (mem_unknowns_apply hs' (Ty.mem_unknowns_of_at? hy (by simp [Ty.unknowns]))).1

/-- The argument makes unknown 1 a list, which is then to be its own element. -/
theorem unify_first_conflict_occurs :
    let a : Ty := .fn (.unknown 1) (.unknown 1)
    let b : Ty := .fn (.list (.unknown 2)) (.unknown 2)
    let s' : Solution := [(1, .list (.unknown 2))]
    Acyclic [] ∧ Solution.unify [] a b = (.error (.occurs 2 (.list (.unknown 2))), s') ∧
      s'.Acyclic ∧ s'.get? 2 = none ∧
      ∃ p, (Conflict.occurs 2 (.list (.unknown 2))).FirstAt
        (.fn (.list (.unknown 2)) (.list (.unknown 2))) (.fn (.list (.unknown 2)) (.unknown 2)) p := by
  intro a b s'
  have hrun : Solution.unify [] a b = (.error (.occurs 2 (.list (.unknown 2))), s') := by cbv
  obtain ⟨hs', -, hfirst, hunsolved⟩ := unify_first_conflict [] acyclic_nil a b _ s' hrun
  exact ⟨acyclic_nil, hrun, hs', hunsolved 2 _ rfl, hfirst⟩

end Solution
end LetPoly
