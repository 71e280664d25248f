import Mathlib.Data.Finset.Insert
import Mathlib.Data.Set.Function
import Mathlib.Logic.Equiv.Basic
import LetPoly.Ty.Basic

/-! Types that are the same but for the numbers of their unknowns. Types that are instances of one
another are (`exists_rename_of_instances`). -/

namespace LetPoly

namespace Ty

variable {ρ π : Equiv.Perm Nat} {σ τ : Nat → Ty} {p q t : Ty} {u v : Nat}

/-- Gives every unknown the number that `ρ` has for it. -/
def rename (ρ : Equiv.Perm Nat) (t : Ty) : Ty := t.subst fun u => .unknown (ρ u)

theorem rename_refl (t : Ty) : t.rename (Equiv.refl Nat) = t := subst_unknown t

theorem rename_rename (ρ π : Equiv.Perm Nat) (t : Ty) :
    (t.rename ρ).rename π = t.rename (ρ.trans π) := by
  rw [rename, rename, subst_subst]
  rfl

theorem rename_injective (ρ : Equiv.Perm Nat) : Function.Injective (rename ρ) := by
  intro s t h
  have hback : (s.rename ρ).rename ρ.symm = (t.rename ρ).rename ρ.symm := by rw [h]
  rwa [rename_rename, rename_rename, ρ.self_trans_symm, rename_refl, rename_refl] at hback

theorem mem_unknowns_rename : ρ u ∈ (t.rename ρ).unknowns ↔ u ∈ t.unknowns := by
  simp [rename, mem_unknowns_subst, unknowns]

theorem subst_eq_iff : t.subst σ = t.subst τ ↔ ∀ u ∈ t.unknowns, σ u = τ u := by
  refine ⟨fun h => ?_, subst_congr⟩
  induction t with
  | number | boolean | var => simp [unknowns]
  | unknown u => exact List.forall_mem_singleton.2 h
  | fn a r iha ihr =>
    obtain ⟨ha, hr⟩ := fn.inj h
    exact List.forall_mem_append.2 ⟨iha ha, ihr hr⟩
  | list e ih => exact ih (list.inj h)

/-- Replacing goes through a renaming if it does at each unknown. -/
theorem replace_rename {r r' : Ty}
    (h : ∀ w, (unknown (ρ w)).replace v r' = ((unknown w).replace u r).rename π) (t : Ty) :
    (t.rename ρ).replace v r' = (t.replace u r).rename π := by
  rw [rename, replace, subst_subst, rename, replace, subst_subst]
  exact subst_congr fun w _ => h w

/-- Numbers that differ on a finite set are those that some permutation gives there. -/
theorem exists_perm_of_injOn {f : Nat → Nat} (s : Finset Nat) (hf : Set.InjOn f s) :
    ∃ ρ : Equiv.Perm Nat, ∀ u ∈ s, ρ u = f u := by
  induction s using Finset.induction_on with
  | empty => exact ⟨Equiv.refl Nat, by simp⟩
  | insert a s ha ih =>
    obtain ⟨ρ, hρ⟩ := ih (hf.mono (by simp))
    refine ⟨ρ.trans (Equiv.swap (ρ a) (f a)), fun u hu => ?_⟩
    rw [Equiv.trans_apply]
    rcases Finset.mem_insert.1 hu with rfl | hu
    · exact Equiv.swap_apply_left _ _
    · have hne : u ≠ a := fun e => ha (e ▸ hu)
      have hold : ρ u ≠ ρ a := fun e => hne (ρ.injective e)
      have hnew : ρ u ≠ f a := by
        rw [hρ u hu]
        exact fun e => hne (hf (by simp [hu]) (by simp) e)
      rw [Equiv.swap_apply_of_ne_of_ne hold hnew, hρ u hu]

theorem exists_rename_of_instances (hq : q = p.subst σ) (hp : p = q.subst τ) :
    ∃ ρ : Equiv.Perm Nat, q = p.rename ρ := by
  -- the two substitutions undo one another, so the first one only gives numbers
  have hback : ∀ u ∈ p.unknowns, (σ u).subst τ = unknown u := by
    refine subst_eq_iff.1 ?_
    rw [← subst_subst, ← hq, ← hp, subst_unknown]
  have hnumber : ∀ u ∈ p.unknowns, ∃ v, σ u = unknown v := by
    intro u hu
    have h := hback u hu
    cases hσ : σ u with
    | unknown v => exact ⟨v, rfl⟩
    | number | boolean | fn | list | var => rw [hσ] at h; cases h
  choose! f hf using hnumber
  have hinj : Set.InjOn f p.unknowns.toFinset := by
    intro u hu v hv huv
    have hu := List.mem_toFinset.1 hu
    have hv := List.mem_toFinset.1 hv
    have hsame : unknown u = unknown v := by
      rw [← hback u hu, ← hback v hv, hf u hu, hf v hv, huv]
    exact unknown.inj hsame
  obtain ⟨ρ, hρ⟩ := exists_perm_of_injOn p.unknowns.toFinset hinj
  refine ⟨ρ, ?_⟩
  rw [hq, rename, subst_eq_iff]
  intro u hu
  rw [hf u hu, hρ u (List.mem_toFinset.2 hu)]

end Ty
end LetPoly
