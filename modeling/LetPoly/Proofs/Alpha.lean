import LetPoly.Proofs.Source

/-! Programs that are the same but for the names of their binders. -/

namespace LetPoly

/-- Which name of one program stands for which of another. -/
abbrev Naming := String → String → Prop

namespace Naming

variable {N N' : Naming} {x x' y y' : String}

/-- The naming in the scope of two binders, which stand for one another there and for nothing else. -/
def bind (N : Naming) (x x' : String) : Naming :=
  fun y y' => y = x ∧ y' = x' ∨ y ≠ x ∧ y' ≠ x' ∧ N y y'

theorem bind_imp (h : y ≠ x → y' ≠ x' → N y y' → N' y y') (hb : N.bind x x' y y') :
    N'.bind x x' y y' :=
  hb.imp id fun ⟨hy, hy', hN⟩ => ⟨hy, hy', h hy hy' hN⟩

theorem eq_bind (x : String) : bind Eq x x = Eq := by
  ext y y'
  constructor
  · rintro (⟨rfl, rfl⟩ | ⟨-, -, h⟩)
    · rfl
    · exact h
  · rintro rfl
    by_cases h : y = x
    · exact .inl ⟨h, h⟩
    · exact .inr ⟨h, h, rfl⟩

end Naming

/-- The same program but for the names of binders, where names that are free stand for one another as `N`
says. The binder of a recursive `let` is in scope in what it binds. -/
inductive Alpha : Naming → Expr → Expr → Prop
  | number {N : Naming} (n : Int64) : Alpha N (.number n) (.number n)
  | boolean {N : Naming} (b : Bool) : Alpha N (.boolean b) (.boolean b)
  | var {N : Naming} {x x' : String} : N x x' → Alpha N (.var x) (.var x')
  | lam {N : Naming} {x x' : String} {body body' : Expr} : Alpha (N.bind x x') body body' →
      Alpha N (.lam x body) (.lam x' body')
  | app {N : Naming} {f f' a a' : Expr} : Alpha N f f' → Alpha N a a' →
      Alpha N (.app f a) (.app f' a')
  | ite {N : Naming} {c c' t t' e e' : Expr} : Alpha N c c' → Alpha N t t' → Alpha N e e' →
      Alpha N (.ite c t e) (.ite c' t' e')
  | letIn {N : Naming} {x x' : String} {bound bound' body body' : Expr} : Alpha N bound bound' →
      Alpha (N.bind x x') body body' → Alpha N (.letIn false x bound body) (.letIn false x' bound' body')
  | letRec {N : Naming} {x x' : String} {bound bound' body body' : Expr} :
      Alpha (N.bind x x') bound bound' → Alpha (N.bind x x') body body' →
      Alpha N (.letIn true x bound body) (.letIn true x' bound' body')
  | nil {N : Naming} : Alpha N (.list []) (.list [])
  | cons {N : Naming} {e e' : Expr} {es es' : List Expr} : Alpha N e e' →
      Alpha N (.list es) (.list es') → Alpha N (.list (e :: es)) (.list (e' :: es'))

namespace Alpha

variable {N : Naming} {e e' : Expr}

theorem isSource (h : Alpha N e e') : e.isSource = true ∧ e'.isSource = true := by
  induction h with
  | number | boolean | var | nil => exact ⟨rfl, rfl⟩
  | lam _ ih => exact ih
  | app _ _ ihf iha => simp [Expr.isSource, ihf, iha]
  | ite _ _ _ ihc iht ihe => simp [Expr.isSource, ihc, iht, ihe]
  | letIn _ _ ih ihbody | letRec _ _ ih ihbody => simp [Expr.isSource, ih, ihbody]
  | cons _ _ ih ihes =>
    simp only [Expr.isSource] at ihes
    simp [Expr.isSource, Expr.allSource, ih, ihes]

theorem isLam_eq (h : Alpha N e e') : e.isLam = e'.isLam := by
  cases h <;> rfl

theorem tiesLambdas_eq (h : Alpha N e e') : e.tiesLambdas = e'.tiesLambdas := by
  induction h with
  | number | boolean | var | nil => rfl
  | lam _ ih => exact ih
  | app _ _ ihf iha => simp only [Expr.tiesLambdas, ihf, iha]
  | ite _ _ _ ihc iht ihe => simp only [Expr.tiesLambdas, ihc, iht, ihe]
  | letIn _ _ ih ihbody => simp [Expr.tiesLambdas, ih, ihbody]
  | letRec hbound _ ih ihbody => simp only [Expr.tiesLambdas, hbound.isLam_eq, ih, ihbody]
  | cons _ _ ih ihes =>
    simp only [Expr.tiesLambdas] at ihes
    simp only [Expr.tiesLambdas, Expr.allTieLambdas, ih, ihes]

end Alpha
end LetPoly
