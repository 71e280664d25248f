import LetPoly.Proofs.Completeness
import LetPoly.Proofs.Replacement

/-! A polymorphic `let` is typed as its expansion is, in which the bound expression stands for each use of
the name. The one generalizes the inferred type and makes an instance of it at each use, the other infers
a copy of the expression there. -/

namespace LetPoly

variable {x : String} {e₁ e₂ : Expr} {t : Ty}

theorem typed_let_iff_replaceFree :
    Typed .initial (.letIn false x e₁ e₂) t ↔
      (∃ a, Typed .initial e₁ a) ∧ Typed .initial (e₂.replaceFree x e₁) t := by
  constructor
  · intro h
    obtain ⟨r, hbound, hbody⟩ := typed_let_iff.1 h
    have ha := hbound fun _ => .number
    obtain ⟨s, hs⟩ := exists_principal_scheme ha
    have hle : r.LessGeneral .unknown .unknown s := fun ρ => (hs _).1 (hbound ρ)
    exact ⟨⟨_, ha⟩, (typed_replaceFree_iff hs).2 (hbody.of_lessGeneral hle)⟩
  · rintro ⟨⟨a, ha⟩, h⟩
    obtain ⟨s, hs⟩ := exists_principal_scheme ha
    exact typed_let_iff.2 ⟨s, fun ρ => (hs _).2 ⟨ρ, rfl⟩, (typed_replaceFree_iff hs).1 h⟩

/-- A type is inferred for a `let` just if one is for the bound expression, even if it is not used, and
one for the expansion. That of the expansion is the same, but for the numbers of unknowns. -/
theorem inferType_let_iff_replaceFree (x : String) (e₁ e₂ : Expr) :
    ((∃ t, inferType (.letIn false x e₁ e₂) = .ok t) ↔
      (∃ a, inferType e₁ = .ok a) ∧ ∃ t, inferType (e₂.replaceFree x e₁) = .ok t) ∧
    ∀ t t', inferType (.letIn false x e₁ e₂) = .ok t →
      inferType (e₂.replaceFree x e₁) = .ok t' → ∃ ρ : Equiv.Perm Nat, t' = t.rename ρ := by
  constructor
  · simp only [inferType_ok_iff, typed_let_iff_replaceFree, exists_and_left]
  · intro t t' h h'
    obtain ⟨r, hr⟩ := (inferType_ok_iff _).1 ⟨t, h⟩
    refine exists_rename_of_same_types h h' fun a => ?_
    rw [typed_let_iff_replaceFree]
    exact and_iff_right (typed_let_iff_replaceFree.1 hr).1

/-- The bound expression is used at two types, in the scope of a parameter that has the name of one that is
free in it. -/
theorem inferType_let_iff_replaceFree_same :
    let e₁ : Expr := .lam "y" (.app (.var "head") (.list [.var "y"]))
    let e₂ : Expr := .lam "head" (.app (.app (.var "same") (.var "same")) (.var "head"))
    e₂.replaceFree "same" e₁ = .lam "head'" (.app (.app e₁ e₁) (.var "head'")) ∧
      inferType (.letIn false "same" e₁ e₂) = .ok (.fn (.unknown 9) (.unknown 9)) ∧
      inferType (e₂.replaceFree "same" e₁) = .ok (.fn (.unknown 11) (.unknown 11)) ∧
      ∃ ρ : Equiv.Perm Nat,
        Ty.fn (.unknown 11) (.unknown 11) = (Ty.fn (.unknown 9) (.unknown 9)).rename ρ := by
  intro e₁ e₂
  have hlet : inferType (.letIn false "same" e₁ e₂) = .ok (.fn (.unknown 9) (.unknown 9)) := by cbv
  have hput : inferType (e₂.replaceFree "same" e₁) = .ok (.fn (.unknown 11) (.unknown 11)) := by cbv
  have hrename := (inferType_let_iff_replaceFree "same" e₁ e₂).2 _ _ hlet hput
  exact ⟨rfl, hlet, hput, hrename⟩

end LetPoly
