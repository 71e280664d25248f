import Mathlib.Data.Finset.Card
import Mathlib.Data.Finset.Filter
import Mathlib.Data.List.Basic
import Mathlib.Logic.Relation
import LetPoly.Ty.Solution

/-! Solutions without a cycle. There a solved unknown reaches more entries than each unknown it
mentions (`rank_lt`), at most as many as there are, so `apply` never runs out of steps and satisfies
the equations one expects of it. -/

namespace LetPoly

namespace Solution

variable {s : Solution} {u v : Nat} {t : Ty}

/-- One unknown is solved to a type that mentions the other. -/
def Mentions (s : Solution) (u v : Nat) : Prop := ∃ t, s.get? u = some t ∧ v ∈ t.unknowns

/-- No unknown is reached again from the type it is solved to. -/
def Acyclic (s : Solution) : Prop := ∀ u, ¬ Relation.TransGen s.Mentions u u

theorem acyclic_of_rank (r : Nat → Nat) (h : ∀ u v, s.Mentions u v → r v < r u) : s.Acyclic := by
  have lower : ∀ {u v}, Relation.TransGen s.Mentions u v → r v < r u := by
    intro u v huv
    induction huv with
    | single huv => exact h _ _ huv
    | tail _ hvw ih => exact (h _ _ hvw).trans ih
  intro u hu
  exact lt_irrefl _ (lower hu)

section Rank
open Classical

/-- How many entries can be reached from an unknown, its own included. -/
noncomputable def rank (s : Solution) (u : Nat) : Nat :=
  ((s.map Prod.fst).toFinset.filter (Relation.ReflTransGen s.Mentions u)).card

theorem mem_keys_of_get? (h : s.get? u = some t) : u ∈ (s.map Prod.fst).toFinset := by
  rw [List.mem_toFinset]
  exact List.mem_map_of_mem (Bindings.mem_of_get? h)

theorem rank_le_length (s : Solution) (u : Nat) : s.rank u ≤ s.length := by
  refine (Finset.card_filter_le _ _).trans ?_
  refine (List.toFinset_card_le _).trans ?_
  rw [List.length_map]

theorem rank_pos (h : s.get? u = some t) : 0 < s.rank u :=
  Finset.card_pos.2 ⟨u, Finset.mem_filter.2 ⟨mem_keys_of_get? h, .refl⟩⟩

theorem rank_lt (hs : s.Acyclic) (h : s.Mentions u v) : s.rank v < s.rank u := by
  have ⟨t, ht, _⟩ := h
  refine Finset.card_lt_card (Finset.ssubset_iff_of_subset ?_ |>.2 ⟨u, ?_, ?_⟩)
  · intro w hw
    obtain ⟨hkey, hvw⟩ := Finset.mem_filter.1 hw
    exact Finset.mem_filter.2 ⟨hkey, .head h hvw⟩
  · exact Finset.mem_filter.2 ⟨mem_keys_of_get? ht, .refl⟩
  · intro hu
    exact hs u (.head' h (Finset.mem_filter.1 hu).2)

end Rank

/-- Induction along the entries: from all the unknowns that one mentions to that one. -/
theorem Acyclic.induct {P : Nat → Prop} (hs : s.Acyclic)
    (step : ∀ u, (∀ v, s.Mentions u v → P v) → P u) (u : Nat) : P u := by
  induction hn : s.rank u using Nat.strong_induction_on generalizing u with
  | _ n ih =>
    subst hn
    exact step u fun v hv => ih _ (rank_lt hs hv) v rfl

theorem acyclic_nil : Acyclic [] := by
  refine acyclic_of_rank (fun _ => 0) fun u v h => ?_
  obtain ⟨t, ht, -⟩ := h
  cases ht

/-! ### Resolving a type -/

theorem image_of_unsolved (h : s.get? u = none) (n : Nat) : s.image n u = .unknown u := by
  cases n with
  | zero => rfl
  | succ n => simp only [image, h]

/-- As many steps as an unknown has rank are enough. -/
theorem image_eq_of_rank_le (hs : s.Acyclic) {n m : Nat} (hn : s.rank u ≤ n) (hm : s.rank u ≤ m) :
    s.image n u = s.image m u := by
  induction n generalizing m u with
  | zero =>
    cases hu : s.get? u with
    | none => rw [image_of_unsolved hu, image_of_unsolved hu]
    | some t => exact absurd (rank_pos hu) (by omega)
  | succ n ih =>
    cases hu : s.get? u with
    | none => rw [image_of_unsolved hu, image_of_unsolved hu]
    | some t =>
      obtain ⟨m, rfl⟩ : ∃ k, m = k + 1 := ⟨m - 1, by have := rank_pos hu; omega⟩
      simp only [image, hu]
      refine Ty.subst_congr fun v hv => ?_
      have hlt := rank_lt hs ⟨t, hu, hv⟩
      exact ih (by omega) (by omega)

@[simp] theorem apply_fn (s : Solution) (a r : Ty) :
    s.apply (.fn a r) = .fn (s.apply a) (s.apply r) := rfl

@[simp] theorem apply_list (s : Solution) (e : Ty) : s.apply (.list e) = .list (s.apply e) := rfl

theorem apply_unsolved (h : s.get? u = none) : s.apply (.unknown u) = .unknown u :=
  image_of_unsolved h _

theorem apply_solved (hs : s.Acyclic) (h : s.get? u = some t) :
    s.apply (.unknown u) = s.apply t := by
  have hpos := rank_pos h
  have hle := s.rank_le_length u
  obtain ⟨n, hn⟩ : ∃ n, s.length = n + 1 := ⟨s.length - 1, by omega⟩
  change s.image s.length u = t.subst (s.image s.length)
  have hstep : s.image s.length u = t.subst (s.image n) := by
    rw [hn]
    simp only [image, h]
  rw [hstep]
  refine Ty.subst_congr fun v hv => ?_
  have hlt := rank_lt hs ⟨t, h, hv⟩
  exact image_eq_of_rank_le hs (by omega) (by omega)

/-- What is left in a resolved type is unsolved, and comes from the type or from an entry. -/
theorem mem_unknowns_apply (hs : s.Acyclic) (h : v ∈ (s.apply t).unknowns) :
    s.get? v = none ∧ (v ∈ t.unknowns ∨ ∃ u, s.Mentions u v) := by
  obtain ⟨u, hu, hv⟩ := Ty.mem_unknowns_subst.1 h
  change v ∈ (s.apply (.unknown u)).unknowns at hv
  clear h
  induction u using hs.induct generalizing t with
  | step u ih =>
    cases hg : s.get? u with
    | none =>
      rw [apply_unsolved hg, Ty.unknowns, List.mem_singleton] at hv
      subst hv
      exact ⟨hg, .inl hu⟩
    | some r =>
      rw [apply_solved hs hg] at hv
      obtain ⟨w, hw, hv⟩ := Ty.mem_unknowns_subst.1 hv
      obtain ⟨hnone, hmem⟩ := ih w ⟨r, hg, hw⟩ hw hv
      refine ⟨hnone, .inr ?_⟩
      rcases hmem with hmem | hmem
      · exact ⟨u, r, hg, hmem⟩
      · exact hmem

theorem apply_eq_self (h : ∀ u ∈ t.unknowns, s.get? u = none) : s.apply t = t := by
  have : s.apply t = t.subst .unknown := Ty.subst_congr fun u hu => apply_unsolved (h u hu)
  rw [this, Ty.subst_unknown]

theorem apply_apply (hs : s.Acyclic) (t : Ty) : s.apply (s.apply t) = s.apply t :=
  apply_eq_self fun _ hu => (mem_unknowns_apply hs hu).1

/-- The recursion that resolves a type: an unknown that is solved gives way to the type it is
solved to, which is resolved in its turn. -/
inductive Resolves (s : Solution) : Ty → Ty → Prop
  | number : Resolves s .number .number
  | boolean : Resolves s .boolean .boolean
  | var (name : String) : Resolves s (.var name) (.var name)
  | unsolved {u : Nat} : s.get? u = none → Resolves s (.unknown u) (.unknown u)
  | solved {u : Nat} {t t' : Ty} : s.get? u = some t → Resolves s t t' → Resolves s (.unknown u) t'
  | fn {a a' r r' : Ty} : Resolves s a a' → Resolves s r r' → Resolves s (.fn a r) (.fn a' r')
  | list {e e' : Ty} : Resolves s e e' → Resolves s (.list e) (.list e')

theorem resolves_apply_of_unknowns (t : Ty)
    (h : ∀ u ∈ t.unknowns, s.Resolves (.unknown u) (s.apply (.unknown u))) :
    s.Resolves t (s.apply t) := by
  induction t with
  | number => exact .number
  | boolean => exact .boolean
  | var name => exact .var name
  | unknown u => exact h u (by simp [Ty.unknowns])
  | fn a r iha ihr =>
    simp only [Ty.unknowns, List.mem_append] at h
    exact .fn (iha fun u hu => h u (.inl hu)) (ihr fun u hu => h u (.inr hu))
  | list e ih => exact .list (ih h)

/-- Without a cycle the recursion ends on every type. -/
theorem resolves_apply (hs : s.Acyclic) (t : Ty) : s.Resolves t (s.apply t) := by
  refine resolves_apply_of_unknowns t fun u hu => ?_
  clear hu
  induction u using hs.induct with
  | step u ih =>
    cases hu : s.get? u with
    | none =>
      rw [apply_unsolved hu]
      exact .unsolved hu
    | some r =>
      rw [apply_solved hs hu]
      exact .solved hu (resolves_apply_of_unknowns r fun v hv => ih v ⟨r, hu, hv⟩)

theorem Resolves.eq_apply {t' : Ty} (h : s.Resolves t t') (hs : s.Acyclic) : t' = s.apply t := by
  induction h with
  | number | boolean | var => rfl
  | unsolved hu => rw [apply_unsolved hu]
  | solved hu _ ih => rw [ih, apply_solved hs hu]
  | fn _ _ iha ihr => rw [iha, ihr, apply_fn]
  | list _ ih => rw [ih, apply_list]

theorem resolves_iff (hs : s.Acyclic) {t' : Ty} : s.Resolves t t' ↔ s.apply t = t' :=
  ⟨fun h => (h.eq_apply hs).symm, fun h => h ▸ resolves_apply hs t⟩

/-! ### Substitutions that agree with a solution -/

/-- Every solved unknown is put to the same type as what it is solved to. -/
def Compatible (s : Solution) (θ : Nat → Ty) : Prop := ∀ u t, s.get? u = some t → θ u = t.subst θ

theorem Compatible.subst_apply {θ : Nat → Ty} (hθ : s.Compatible θ) (hs : s.Acyclic) (t : Ty) :
    (s.apply t).subst θ = t.subst θ := by
  rw [apply, Ty.subst_subst]
  refine Ty.subst_congr fun u hu => ?_
  clear hu
  change (s.apply (.unknown u)).subst θ = θ u
  induction u using hs.induct with
  | step u ih =>
    cases hu : s.get? u with
    | none => rw [apply_unsolved hu, Ty.subst]
    | some r =>
      rw [apply_solved hs hu, hθ u r hu, apply, Ty.subst_subst]
      exact Ty.subst_congr fun v hv => ih v ⟨r, hu, hv⟩

/-- The solution itself, followed by any substitution. -/
theorem compatible_apply (hs : s.Acyclic) (σ : Nat → Ty) :
    s.Compatible fun u => (s.apply (.unknown u)).subst σ := by
  intro u t hu
  change (s.apply (.unknown u)).subst σ = _
  rw [apply_solved hs hu, apply, Ty.subst_subst]
  rfl

theorem subst_apply_unknown (s : Solution) (σ : Nat → Ty) (t : Ty) :
    (t.subst fun u => (s.apply (.unknown u)).subst σ) = (s.apply t).subst σ := by
  rw [apply, Ty.subst_subst]
  rfl

/-- Whatever is solved in one solution is solved in the same way in the other. -/
def Extends (s' s : Solution) : Prop := ∀ u t, s.get? u = some t → s'.get? u = some t

theorem Extends.refl (s : Solution) : s.Extends s := fun _ _ h => h

theorem Extends.trans {s₁ s₂ s₃ : Solution} (h₂ : s₃.Extends s₂) (h₁ : s₂.Extends s₁) :
    s₃.Extends s₁ := fun u t h => h₂ u t (h₁ u t h)

theorem Compatible.of_extends {s' : Solution} {θ : Nat → Ty} (hθ : s'.Compatible θ)
    (h : s'.Extends s) : s.Compatible θ := fun u t hu => hθ u t (h u t hu)

/-- What was resolved with fewer entries is resolved further with all of them. -/
theorem apply_apply_of_extends {s' : Solution} (hs : s.Acyclic) (hs' : s'.Acyclic)
    (h : s'.Extends s) (t : Ty) : s'.apply (s.apply t) = s'.apply t := by
  have hstep := ((compatible_apply hs' .unknown).of_extends h).subst_apply hs t
  rwa [subst_apply_unknown, subst_apply_unknown, Ty.subst_unknown, Ty.subst_unknown] at hstep

end Solution
end LetPoly
