import Mathlib.Logic.Relation
import LetPoly.Proofs.Completeness

/-! The order of list items and of branches is of no consequence to types. Inference meets them in their
order, and gives out and solves other unknowns in another one; but the rules of the type system do not tell
the orders apart (`Reorders.typed_iff`), and the inferred type is principal among what these give. -/

namespace LetPoly

/-- One list of the expression has its items in another order, or one `if` has its branches exchanged. -/
inductive Reorders : Expr → Expr → Prop
  | items {items items' : List Expr} : items.Perm items' → Reorders (.list items) (.list items')
  | branches (c e₁ e₂ : Expr) : Reorders (.ite c e₁ e₂) (.ite c e₂ e₁)
  | lam {x : String} {body body' : Expr} : Reorders body body' →
      Reorders (.lam x body) (.lam x body')
  | func {f f' a : Expr} : Reorders f f' → Reorders (.app f a) (.app f' a)
  | argument {f a a' : Expr} : Reorders a a' → Reorders (.app f a) (.app f a')
  | condition {c c' e₁ e₂ : Expr} : Reorders c c' → Reorders (.ite c e₁ e₂) (.ite c' e₁ e₂)
  | thenBranch {c e₁ e₁' e₂ : Expr} : Reorders e₁ e₁' → Reorders (.ite c e₁ e₂) (.ite c e₁' e₂)
  | elseBranch {c e₁ e₂ e₂' : Expr} : Reorders e₂ e₂' → Reorders (.ite c e₁ e₂) (.ite c e₁ e₂')
  | bound {recursive : Bool} {x : String} {e e' body : Expr} : Reorders e e' →
      Reorders (.letIn recursive x e body) (.letIn recursive x e' body)
  | body {recursive : Bool} {x : String} {e body body' : Expr} : Reorders body body' →
      Reorders (.letIn recursive x e body) (.letIn recursive x e body')
  | item {before after : List Expr} {e e' : Expr} : Reorders e e' →
      Reorders (.list (before ++ e :: after)) (.list (before ++ e' :: after))

variable {e e' : Expr} {Γ : Context} {t : Ty}

theorem Reorders.typed_iff (h : Reorders e e') : Typed Γ e t ↔ Typed Γ e' t := by
  induction h generalizing Γ t with
  | items hperm =>
    rw [typed_list_iff, typed_list_iff]
    simp only [hperm.mem_iff]
  | branches c e₁ e₂ =>
    rw [typed_ite_iff, typed_ite_iff]
    exact and_congr_right fun _ => and_comm
  | lam _ ih =>
    rw [typed_lam_iff, typed_lam_iff]
    simp only [ih]
  | func _ ih | argument _ ih =>
    rw [typed_app_iff, typed_app_iff]
    simp only [ih]
  | condition _ ih | thenBranch _ ih | elseBranch _ ih =>
    rw [typed_ite_iff, typed_ite_iff]
    simp only [ih]
  | @bound recursive x e e' body _ ih | @body recursive x e body body' _ ih =>
    cases recursive with
    | true =>
      rw [typed_letRec_iff, typed_letRec_iff]
      simp only [ih]
    | false =>
      -- the scheme need not be that of either bound expression, so both can have the same
      rw [typed_let_iff, typed_let_iff]
      simp only [ih]
  | item _ ih =>
    rw [typed_list_iff, typed_list_iff]
    simp only [List.forall_mem_append, List.forall_mem_cons, ih]

theorem typed_iff_of_reordered (h : Relation.ReflTransGen Reorders e e') :
    Typed Γ e t ↔ Typed Γ e' t := by
  induction h with
  | refl => rfl
  | tail _ hstep ih => exact ih.trans hstep.typed_iff

/-- However the items of lists and the branches of `if`s are reordered in an expression, a type is inferred
for the one just if one is for the other, and it is the same but for the numbers of unknowns. -/
theorem inferType_reordered (e e' : Expr) (h : Relation.ReflTransGen Reorders e e') :
    ((∃ t, inferType e = .ok t) ↔ ∃ t, inferType e' = .ok t) ∧
    ∀ t t', inferType e = .ok t → inferType e' = .ok t' → ∃ ρ : Equiv.Perm Nat, t' = t.rename ρ := by
  constructor
  · simp only [inferType_ok_iff, typed_iff_of_reordered h]
  · intro t t' ht ht'
    exact exists_rename_of_same_types ht ht' fun _ => typed_iff_of_reordered h

/-- The branches of the one function are exchanged, and the items of a list in one of them. -/
theorem inferType_reordered_single :
    let single : Expr := .lam "x" (.list [.var "x"])
    let double : Expr := .lam "y" (.list [.app (.var "head") (.list [.var "y"]), .var "y"])
    let double' : Expr := .lam "y" (.list [.var "y", .app (.var "head") (.list [.var "y"])])
    let e : Expr := .lam "p" (.ite (.var "p") single double)
    let e' : Expr := .lam "p" (.ite (.var "p") double' single)
    let t : Nat → Ty := fun u => .fn .boolean (.fn (.unknown u) (.list (.unknown u)))
    Relation.ReflTransGen Reorders e e' ∧ inferType e = .ok (t 8) ∧ inferType e' = .ok (t 7) ∧
      ∃ ρ : Equiv.Perm Nat, t 7 = (t 8).rename ρ := by
  intro single double double' e e' t
  have h : Relation.ReflTransGen Reorders e e' := by
    refine .tail (.single (.lam (.branches _ _ _))) (.lam (.thenBranch (.lam (.items ?_))))
    exact .swap _ _ _
  have ht : inferType e = .ok (t 8) := by cbv
  have ht' : inferType e' = .ok (t 7) := by cbv
  exact ⟨h, ht, ht', (inferType_reordered e e' h).2 _ _ ht ht'⟩

end LetPoly
