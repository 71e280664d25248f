import Mathlib.Data.List.Permutation
import LetPoly.Proofs.Procedure
import LetPoly.Proofs.Variants

/-! Unification with the two types exchanged. Where both sides of an equation are unknowns the runs solve
different ones, and from there on they work on types that are the same but for the numbers of unknowns
(`Equations.unify_mirror`). They end together, in conflicts that are one another's mirror image. -/

namespace LetPoly

/-- The conflict of the exchanged types. -/
def Conflict.mirror (ρ : Equiv.Perm Nat) : Conflict → Conflict
  | mismatch expected found => mismatch (found.rename ρ) (expected.rename ρ)
  | occurs u t => occurs (ρ u) (t.rename ρ)

namespace Ty

variable {ρ : Equiv.Perm Nat} {a b t : Ty} {u v : Nat} {eqs : Equations}

/-- Either both types are unknowns, and the exchanged pair solves the other one, or there is only one
unknown to solve. -/
theorem orient?_mirror (ρ : Equiv.Perm Nat) (ho : a.orient? b = some (u, t)) :
    (∃ v, a = unknown u ∧ b = unknown v ∧ t = unknown v ∧
      (b.rename ρ).orient? (a.rename ρ) = some (ρ v, unknown (ρ u))) ∨
    (∀ v, t ≠ unknown v) ∧ (b.rename ρ).orient? (a.rename ρ) = some (ρ u, t.rename ρ) := by
  rcases orient?_eq_some ho with ⟨rfl, rfl⟩ | ⟨rfl, rfl⟩
  · cases b with
    | unknown v => exact .inl ⟨v, rfl, rfl, rfl, rfl⟩
    | number | boolean | fn | list | var => exact .inr ⟨nofun, rfl⟩
  · cases a with
    | unknown v =>
      obtain ⟨rfl, -⟩ : v = u ∧ unknown u = unknown v := by simpa [orient?] using ho
      exact .inl ⟨v, rfl, rfl, rfl, rfl⟩
    | number | boolean | fn | list | var => exact .inr ⟨nofun, rfl⟩

theorem rename_ne_unknown (h : ∀ v, t ≠ unknown v) (u : Nat) : t.rename ρ ≠ unknown u := by
  cases t with
  | unknown v => exact absurd rfl (h v)
  | number | boolean | fn | list | var => exact nofun

theorem orient?_mirror_none (ρ : Equiv.Perm Nat) (ho : a.orient? b = none) :
    (b.rename ρ).orient? (a.rename ρ) = none := by
  obtain ⟨ha, hb⟩ := orient?_eq_none.1 ho
  exact orient?_eq_none.2 ⟨rename_ne_unknown hb, rename_ne_unknown ha⟩

end Ty

namespace Equations

variable {ρ : Equiv.Perm Nat} {a b t : Ty} {u v : Nat} {eqs rest : Equations}

/-- The equations with their sides exchanged, and with other numbers for the unknowns. -/
def mirror (ρ : Equiv.Perm Nat) (eqs : Equations) : Equations :=
  eqs.map fun e => (e.2.rename ρ, e.1.rename ρ)

theorem mirror_cons : mirror ρ ((a, b) :: rest) = (b.rename ρ, a.rename ρ) :: rest.mirror ρ := rfl

theorem mirror_append : mirror ρ (eqs ++ rest) = eqs.mirror ρ ++ rest.mirror ρ := List.map_append

theorem components?_mirror (hc : a.components? b = some eqs) :
    (b.rename ρ).components? (a.rename ρ) = some (eqs.mirror ρ) := by
  rcases Ty.components?_eq_some hc with ⟨a₁, r₁, a₂, r₂, rfl, rfl, rfl⟩ | ⟨e₁, e₂, rfl, rfl, rfl⟩ <;> rfl

theorem components?_mirror_none (hc : a.components? b = none) :
    (b.rename ρ).components? (a.rename ρ) = none := by
  cases a <;> cases b <;> simp_all [Ty.components?, Ty.rename, Ty.subst]

/-- Solving the one of two unknowns instead of the other gives the same up to exchanging their numbers. -/
theorem replace_swap (ρ : Equiv.Perm Nat) (u v : Nat) (s : Ty) :
    (s.rename ρ).replace (ρ v) (.unknown (ρ u)) =
      (s.replace u (.unknown v)).rename ((Equiv.swap u v).trans ρ) := by
  refine Ty.replace_rename (fun w => ?_) s
  simp only [Ty.replace, Ty.subst, ρ.injective.eq_iff]
  by_cases hv : w = v <;> by_cases hu : w = u <;>
    simp [hu, hv, Ty.rename, Ty.subst, Equiv.swap_apply_of_ne_of_ne]

theorem replace_rename_same (ρ : Equiv.Perm Nat) (u : Nat) (t s : Ty) :
    (s.rename ρ).replace (ρ u) (t.rename ρ) = (s.replace u t).rename ρ := by
  refine Ty.replace_rename (fun w => ?_) s
  simp only [Ty.replace, Ty.subst, ρ.injective.eq_iff]
  split <;> rfl

theorem mirror_replace {π : Equiv.Perm Nat} {t' : Ty}
    (h : ∀ s : Ty, (s.rename ρ).replace v t' = (s.replace u t).rename π) (eqs : Equations) :
    (eqs.mirror ρ).replace v t' = (eqs.replace u t).mirror π := by
  simp only [mirror, replace, List.map_map]
  exact List.map_congr_left fun e _ => Prod.ext (h e.2) (h e.1)

/-- The runs on equations and on the exchanged equations: their conflicts mirror one another, and what
they leave of a type differs in the numbers of unknowns. -/
structure Mirrored (ρ π : Equiv.Perm Nat) (r r' : Unification) : Prop where
  conflict : r'.conflict = r.conflict.map (Conflict.mirror π)
  bindings : ∀ t : Ty, (t.rename ρ).replaceAll r'.bindings = (t.replaceAll r.bindings).rename π

theorem Mirrored.solve {π π' : Equiv.Perm Nat} {r r' : Unification} {t' : Ty}
    (h : Mirrored π π' r r') (hreplace : ∀ s : Ty, (s.rename ρ).replace v t' = (s.replace u t).rename π) :
    Mirrored ρ π' (r.after (.solve u t)) (r'.after (.solve v t')) := by
  refine ⟨h.conflict, fun s => ?_⟩
  change ((s.rename ρ).replace v t').replaceAll r'.bindings =
    ((s.replace u t).replaceAll r.bindings).rename π'
  rw [hreplace, h.bindings]

theorem unify_mirror (eqs : Equations) (ρ : Equiv.Perm Nat) :
    ∃ π, Mirrored ρ π eqs.unify (eqs.mirror ρ).unify := by
  -- the renaming changes where both sides of an equation are unknowns, so it is general
  induction eqs using run_induction generalizing ρ with
  | nil => exact ⟨ρ, by rw [mirror, List.map_nil, unify_nil]; exact ⟨rfl, fun _ => rfl⟩⟩
  | equal a rest ih =>
    obtain ⟨π, h⟩ := ih ρ
    rw [mirror_cons, unify_equal, unify_equal]
    exact ⟨π, h.conflict, h.bindings⟩
  | occurs a b rest u t hne ho hu =>
    have hne' := (Ty.rename_injective ρ).ne hne.symm
    rcases Ty.orient?_mirror ρ ho with ⟨v, rfl, rfl, rfl, -⟩ | ⟨-, ho'⟩
    · rw [Ty.unknowns, List.mem_singleton] at hu
      exact absurd (congrArg Ty.unknown hu) hne
    · rw [mirror_cons, unify_occurs hne ho hu, unify_occurs hne' ho' (Ty.mem_unknowns_rename.2 hu)]
      exact ⟨ρ, rfl, fun _ => rfl⟩
  | solve a b rest u t hne ho hu ih =>
    have hne' := (Ty.rename_injective ρ).ne hne.symm
    rcases Ty.orient?_mirror ρ ho with ⟨v, rfl, rfl, rfl, ho'⟩ | ⟨-, ho'⟩
    · have hu' : ρ v ∉ (Ty.unknown (ρ u)).unknowns := by
        rw [Ty.unknowns, List.mem_singleton]
        exact fun e => hne (congrArg Ty.unknown (ρ.injective e).symm)
      obtain ⟨π, h⟩ := ih ((Equiv.swap u v).trans ρ)
      rw [mirror_cons, unify_solve hne ho hu, unify_solve hne' ho' hu',
        mirror_replace (replace_swap ρ u v)]
      have h := h.solve (replace_swap ρ u v)
      exact ⟨π, h.conflict, h.bindings⟩
    · obtain ⟨π, h⟩ := ih ρ
      rw [mirror_cons, unify_solve hne ho hu, unify_solve hne' ho' (mt Ty.mem_unknowns_rename.1 hu),
        mirror_replace (replace_rename_same ρ u t)]
      have h := h.solve (replace_rename_same ρ u t)
      exact ⟨π, h.conflict, h.bindings⟩
  | split a b rest parts hne ho hc ih =>
    obtain ⟨π, h⟩ := ih ρ
    rw [mirror_append] at h
    rw [mirror_cons, unify_split hne ho hc, unify_split ((Ty.rename_injective ρ).ne hne.symm)
      (Ty.orient?_mirror_none ρ ho) (components?_mirror hc)]
    exact ⟨π, h.conflict, h.bindings⟩
  | clash a b rest hne ho hc =>
    rw [mirror_cons, unify_clash hne ho hc, unify_clash ((Ty.rename_injective ρ).ne hne.symm)
      (Ty.orient?_mirror_none ρ ho) (components?_mirror_none hc)]
    exact ⟨ρ, rfl, fun _ => rfl⟩

end Equations

namespace Solution

/-- Unifying two types in either order succeeds or fails alike. What is left resolves every type to the
same up to one renaming of unknowns, and a conflict is the mirror image of the other. -/
theorem unify_symmetric (s : Solution) (hs : s.Acyclic) (a b : Ty) :
    ∃ ρ : Equiv.Perm Nat,
      (s.unify b a).1 = (s.unify a b).1.mapError (Conflict.mirror ρ) ∧
      ∀ t, (s.unify b a).2.apply t = ((s.unify a b).2.apply t).rename ρ := by
  obtain ⟨ρ, hconflict, hbindings⟩ :=
    Equations.unify_mirror [(s.apply a, s.apply b)] (Equiv.refl Nat)
  simp only [Equations.mirror, List.map_cons, List.map_nil, Ty.rename_refl] at hconflict hbindings
  refine ⟨ρ, ?_, fun t => ?_⟩
  · rw [unify_eq_record, unify_eq_record, record, record, hconflict]
    cases (Equations.unify [(s.apply a, s.apply b)]).conflict <;> rfl
  · rw [apply_unify hs, apply_unify hs]
    exact hbindings (s.apply t)

/-- One order solves unknown 1, the other unknown 2; the conflict has what is left of both. -/
theorem unify_symmetric_unknowns :
    let a : Ty := .fn (.unknown 1) (.list (.unknown 1))
    let b : Ty := .fn (.unknown 2) .number
    Acyclic [] ∧ Solution.unify [] a b = (.error (.mismatch (.list (.unknown 2)) .number), [(1, .unknown 2)]) ∧
      ∃ ρ : Equiv.Perm Nat, ρ 2 = 1 ∧
        (Solution.unify [] b a).1 = .error (.mismatch .number (.list (.unknown (ρ 2)))) ∧
        ∀ t, (Solution.unify [] b a).2.apply t = ((Solution.unify [] a b).2.apply t).rename ρ := by
  intro a b
  have hab : Solution.unify [] a b =
      (.error (.mismatch (.list (.unknown 2)) .number), [(1, .unknown 2)]) := by cbv
  have hba : Solution.unify [] b a =
      (.error (.mismatch .number (.list (.unknown 1))), [(2, .unknown 1)]) := by cbv
  obtain ⟨ρ, hconflict, happly⟩ := unify_symmetric [] acyclic_nil a b
  have htwo := happly (.unknown 2)
  rw [hab, hba] at htwo
  refine ⟨acyclic_nil, hab, ρ, (Ty.unknown.inj htwo).symm, ?_, happly⟩
  rw [hconflict, hab]
  rfl

end LetPoly.Solution
