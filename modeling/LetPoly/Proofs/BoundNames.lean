import LetPoly.Proofs.Alpha
import LetPoly.Proofs.Generalization

/-! Inference does not see the names of binders. Two programs that differ in these alone bind different
names over one another, so that a context may have a scheme that the other has lost; but what is inferred
in a context reaches no unknown given out before except through that context (`seals_bindScheme`), and so
both generalize the same unknowns. -/

namespace LetPoly

variable {ctx ctx' : Context} {S S₁ : Session} {x x' : String} {s : Scheme} {t : Ty} {k : Nat}

/-- Names that stand for one another have the same scheme, or they are the same name and have none. -/
def Naming.Agrees (N : Naming) (ctx ctx' : Context) : Prop :=
  ∀ y y', N y y' → ctx.get? y = ctx'.get? y' ∧ (ctx.get? y = none → y = y')

theorem Naming.Agrees.bind {N : Naming} (h : N.Agrees ctx ctx') (x x' : String) (s : Scheme) :
    (N.bind x x').Agrees (ctx.insert x s) (ctx'.insert x' s) := by
  rintro y y' (⟨rfl, rfl⟩ | ⟨hy, hy', hN⟩)
  · simp [Bindings.get?_insert]
  · rw [Bindings.get?_insert, Bindings.get?_insert, if_neg (Ne.symm hy), if_neg (Ne.symm hy')]
    exact h y y' hN

namespace Infer

variable {α β : Type} {m m' : Infer α} {f f' : α → Infer β} {Q : α → Session → Prop}
  {R : β → Session → Prop}

/-- Both actions do the same from the session, whatever the log is that the second one starts with. Only
their logs may come to differ. -/
structure Alike (m m' : Infer α) (S : Session) (Q : α → Session → Prop) : Prop where
  ensures : Ensures m S Q
  run : ∀ log, ∃ log', m'.run { S with log := log } = ((m.run S).1, { (m.run S).2 with log := log' })

theorem Alike.bind (hm : Alike m m' S Q)
    (hf : ∀ a S₁, S.Grows S₁ → Q a S₁ → Alike (f a) (f' a) S₁ R) :
    Alike (m >>= f) (m' >>= f') S R := by
  refine ⟨hm.ensures.bind fun a S₁ h₁ ha => (hf a S₁ h₁ ha).ensures, fun log => ?_⟩
  obtain ⟨log', hrun⟩ := hm.run log
  cases h : m.run S with
  | mk r S₁ =>
    rw [h] at hrun
    cases r with
    | error e =>
      rw [run_bind_error h, run_bind_error hrun]
      exact ⟨log', rfl⟩
    | ok a =>
      have hgrows := hm.ensures.grows
      rw [h] at hgrows
      rw [run_bind_ok h, run_bind_ok hrun]
      exact (hf a S₁ hgrows (hm.ensures.result a S₁ h)).run log'

theorem alike_pure {a : α} (hS : S.Valid) (hQ : Q a S) : Alike (pure a) (pure a) S Q :=
  ⟨ensures_pure hS hQ, fun log => ⟨log, rfl⟩⟩

theorem alike_throw (e : TypeError) (hS : S.Valid) : Alike (throw e) (throw e) S Q :=
  ⟨ensures_throw e hS, fun log => ⟨log, rfl⟩⟩

theorem alike_fresh (hS : S.Valid) : Alike fresh fresh S fun t S' => t.Within S'.supply :=
  ⟨ensures_fresh hS, fun log => ⟨log, rfl⟩⟩

theorem alike_instantiate (hS : S.Valid) (hs : s.Within S.supply) :
    Alike (instantiate s) (instantiate s) S fun t S' => t.Within S'.supply := by
  refine ⟨(ensures_instantiate hS hs).imp fun t S' _ h => h.1, fun log => ⟨log, ?_⟩⟩
  rw [run_instantiate, run_instantiate]

theorem alike_unify {a b : Ty} (hS : S.Valid) (ha : a.Within S.supply) (hb : b.Within S.supply) :
    Alike (unify a b) (unify a b) S fun _ _ => True := by
  refine ⟨(ensures_unify hS ha hb).imp fun _ _ _ _ => trivial, fun log => ?_⟩
  rw [run_unify_eq, run_unify_eq]
  exact ⟨_, rfl⟩

end Infer

open Infer

/-! ### Generalizing in contexts that differ in what they have lost -/

/-- Generalizing reads of the context only what it has of the unknowns in the type. -/
theorem generalize_congr {σ : Solution}
    (h : ∀ u ∈ (σ.apply t).unknowns, u ∈ ctx.freeUnknowns σ ↔ u ∈ ctx'.freeUnknowns σ) :
    generalize σ ctx t = generalize σ ctx' t := by
  have hfree : (σ.apply t).freeUnknowns.filter (fun u => u ∉ ctx.freeUnknowns σ) =
      (σ.apply t).freeUnknowns.filter fun u => u ∉ ctx'.freeUnknowns σ := by
    refine List.filter_congr fun u hu => ?_
    rw [decide_eq_decide, h u (mem_ascending.1 hu)]
  simp only [generalize, hfree]

theorem Session.Seals.not_mem_freeUnknowns (h : S.Seals S₁ k) (hctx : ctx.Within S.supply) :
    k ∉ ctx.freeUnknowns S₁.solution := by
  intro hk
  obtain ⟨b, hb, hk⟩ := Session.mem_freeUnknowns.1 hk
  obtain ⟨u, hu, hreach⟩ := (S₁.mem_apply_iff b.2.body k).1 hk
  exact hreach (h.clear u ((hctx b hb).1 u hu))

/-- What the bound expression's run has come to depends on an older context only as far as on its own. -/
theorem mem_freeUnknowns_of_run {bound : Expr} (hS : S.Valid) (hctx : ctx.Within S.supply)
    (hctx' : ctx'.Within S.supply) (hrun : (inferExpr ctx bound).run S = (.ok t, S₁))
    (hk : k ∈ (S₁.solution.apply t).unknowns) (hmem : k ∈ ctx'.freeUnknowns S₁.solution) :
    k ∈ ctx.freeUnknowns S₁.solution := by
  by_contra hkept
  have hseals := seals_bindScheme hS (List.forall_mem_map.2 hctx) (actsOn bound ctx S) hrun
    (mem_vars_generalize.2 ⟨hk, hkept⟩)
  exact hseals.not_mem_freeUnknowns hctx' hmem

theorem ensures_bindScheme {bound : Expr}
    (h : Ensures (inferExpr ctx bound) S fun t S' => t.Within S'.supply) :
    Ensures (bindScheme ctx x bound) S fun s S' => s.Within S'.supply := by
  refine h.bind ?_
  intro t S₁ h₁ ht
  refine (ensures_get h₁.valid).bind ?_
  rintro _ _ - ⟨rfl, rfl⟩
  refine (ensures_note _ h₁.valid).bind ?_
  intro _ S₂ h₂ _
  have hs := Session.within_generalize h₁.valid ctx ht
  exact ensures_pure h₂.valid ⟨fun u hu => (hs.1 u hu).trans h₂.supply, hs.2⟩

theorem alike_bindScheme {bound bound' : Expr} (hS : S.Valid) (hctx : ctx.Within S.supply)
    (hctx' : ctx'.Within S.supply)
    (h : Alike (inferExpr ctx bound) (inferExpr ctx' bound') S fun t S' => t.Within S'.supply) :
    Alike (bindScheme ctx x bound) (bindScheme ctx' x' bound') S fun s S' => s.Within S'.supply := by
  refine ⟨ensures_bindScheme h.ensures, fun log => ?_⟩
  obtain ⟨log', hrun'⟩ := h.run log
  rw [run_bindScheme, run_bindScheme, hrun']
  cases hrun : (inferExpr ctx bound).run S with
  | mk r S₁ =>
    rw [hrun] at hrun'
    cases r with
    | error e => exact ⟨log', rfl⟩
    | ok t =>
      replace hrun' : (inferExpr ctx' bound').run { S with log := log } =
        (.ok t, { S₁ with log := log' }) := hrun'
      have hS' := (grows_log hS log).valid
      have hsame : generalize S₁.solution ctx t = generalize S₁.solution ctx' t := by
        refine generalize_congr fun u hu => ⟨fun hmem => ?_, fun hmem => ?_⟩
        · have hback := mem_freeUnknowns_of_run hS' hctx' hctx hrun' hu
          exact hback hmem
        · exact mem_freeUnknowns_of_run hS hctx hctx' hrun hu hmem
      simp only [hsame]
      exact ⟨_, rfl⟩

/-! ### The walk over two expressions -/

/-- Inferring the one expression does what inferring the other does, in contexts that have the same schemes
for names that stand for one another. -/
def AlikeOn (N : Naming) (e e' : Expr) : Prop :=
  ∀ ⦃ctx ctx' : Context⦄ ⦃S : Session⦄, S.Valid → ctx.Within S.supply → ctx'.Within S.supply →
    N.Agrees ctx ctx' → Alike (inferExpr ctx e) (inferExpr ctx' e') S fun t S' => t.Within S'.supply

section Walk

variable {N : Naming} {e e' e₁ e₁' e₂ e₂' body body' : Expr} {items items' : List Expr}

theorem alikeOn_var (hx : N x x') : AlikeOn N (.var x) (.var x') := by
  intro ctx ctx' S hS hctx _ hN
  obtain ⟨hsame, hname⟩ := hN x x' hx
  cases hget : ctx.get? x with
  | none =>
    rw [inferExpr_unbound hget, inferExpr_unbound (hsame ▸ hget), hname hget]
    exact alike_throw _ hS
  | some s =>
    rw [inferExpr_bound hget, inferExpr_bound (hsame ▸ hget)]
    exact alike_instantiate hS (hctx _ (Bindings.mem_of_get? hget))

theorem AlikeOn.lam (hbody : AlikeOn (N.bind x x') body body') :
    AlikeOn N (.lam x body) (.lam x' body') := by
  intro ctx ctx' S hS hctx hctx' hN
  unfold inferExpr
  refine (alike_fresh hS).bind ?_
  intro a S₁ h₁ ha
  have hown := Scheme.within_ofTy ha
  refine (hbody h₁.valid ((hctx.mono h₁.supply).insert hown x)
    ((hctx'.mono h₁.supply).insert hown x') (hN.bind x x' _)).bind ?_
  intro r S₂ h₂ hr
  exact alike_pure h₂.valid (Ty.within_fn.2 ⟨ha.mono h₂.supply, hr⟩)

theorem AlikeOn.app (hf : AlikeOn N e₁ e₁') (ha : AlikeOn N e₂ e₂') :
    AlikeOn N (.app e₁ e₂) (.app e₁' e₂') := by
  intro ctx ctx' S hS hctx hctx' hN
  unfold inferExpr
  refine (hf hS hctx hctx' hN).bind ?_
  intro f S₁ h₁ hf
  refine (ha h₁.valid (hctx.mono h₁.supply) (hctx'.mono h₁.supply) hN).bind ?_
  intro a S₂ h₂ ha
  refine (alike_fresh h₂.valid).bind ?_
  intro r S₃ h₃ hr
  have hfn : Ty.Within S₃.supply (.fn a r) := Ty.within_fn.2 ⟨ha.mono h₃.supply, hr⟩
  refine (alike_unify h₃.valid (hf.mono (h₃.trans h₂).supply) hfn).bind ?_
  intro _ S₄ h₄ _
  exact alike_pure h₄.valid (hr.mono h₄.supply)

theorem AlikeOn.ite (hc : AlikeOn N e e') (h₁ : AlikeOn N e₁ e₁') (h₂ : AlikeOn N e₂ e₂') :
    AlikeOn N (.ite e e₁ e₂) (.ite e' e₁' e₂') := by
  intro ctx ctx' S hS hctx hctx' hN
  unfold inferExpr
  refine (hc hS hctx hctx' hN).bind ?_
  intro c S₁ g₁ hc
  refine (h₁ g₁.valid (hctx.mono g₁.supply) (hctx'.mono g₁.supply) hN).bind ?_
  intro t S₂ g₂ ht
  have g₁₂ := (g₂.trans g₁).supply
  refine (h₂ g₂.valid (hctx.mono g₁₂) (hctx'.mono g₁₂) hN).bind ?_
  intro r S₃ g₃ hr
  refine (alike_unify g₃.valid (hc.mono (g₃.trans g₂).supply) Ty.within_boolean).bind ?_
  intro _ S₄ g₄ _
  have g₃₄ := (g₄.trans g₃).supply
  refine (alike_unify g₄.valid (ht.mono g₃₄) (hr.mono g₄.supply)).bind ?_
  intro _ S₅ g₅ _
  exact alike_pure g₅.valid (ht.mono (g₃₄.trans g₅.supply))

theorem AlikeOn.letRec (hbound : AlikeOn (N.bind x x') e e') (hbody : AlikeOn (N.bind x x') body body') :
    AlikeOn N (.letIn true x e body) (.letIn true x' e' body') := by
  intro ctx ctx' S hS hctx hctx' hN
  unfold inferExpr
  refine (alike_fresh hS).bind ?_
  intro own S₁ h₁ hown
  have hinner := (hctx.mono h₁.supply).insert (Scheme.within_ofTy hown) x
  have hinner' := (hctx'.mono h₁.supply).insert (Scheme.within_ofTy hown) x'
  have hN := hN.bind x x' (.ofTy own)
  refine (hbound h₁.valid hinner hinner' hN).bind ?_
  intro a S₂ h₂ ha
  refine (alike_unify h₂.valid (hown.mono h₂.supply) ha).bind ?_
  intro _ S₃ h₃ _
  have h₁₃ := (h₃.trans h₂).supply
  exact hbody h₃.valid (hinner.mono h₁₃) (hinner'.mono h₁₃) hN

theorem AlikeOn.letPoly (hbound : AlikeOn N e e') (hbody : AlikeOn (N.bind x x') body body') :
    AlikeOn N (.letIn false x e body) (.letIn false x' e' body') := by
  intro ctx ctx' S hS hctx hctx' hN
  rw [inferExpr_letPoly, inferExpr_letPoly]
  refine (alike_bindScheme hS hctx hctx' (hbound hS hctx hctx' hN)).bind ?_
  intro s S₁ h₁ hs
  exact hbody h₁.valid ((hctx.mono h₁.supply).insert hs x) ((hctx'.mono h₁.supply).insert hs x')
    (hN.bind x x' s)

theorem alike_inferItems {element : Ty} (hitems : List.Forall₂ (AlikeOn N) items items') (hS : S.Valid)
    (hctx : ctx.Within S.supply) (hctx' : ctx'.Within S.supply) (hN : N.Agrees ctx ctx')
    (helement : element.Within S.supply) :
    Alike (inferItems ctx element items) (inferItems ctx' element items') S fun _ _ => True := by
  induction hitems generalizing S with
  | nil =>
    unfold inferItems
    exact alike_pure hS trivial
  | cons hitem _ ih =>
    unfold inferItems
    refine (hitem hS hctx hctx' hN).bind ?_
    intro t S₁ h₁ ht
    refine (alike_unify h₁.valid (helement.mono h₁.supply) ht).bind ?_
    intro _ S₂ h₂ _
    have h₀₂ := (h₂.trans h₁).supply
    exact ih h₂.valid (hctx.mono h₀₂) (hctx'.mono h₀₂) (helement.mono h₀₂)

theorem AlikeOn.list (hitems : List.Forall₂ (AlikeOn N) items items') :
    AlikeOn N (.list items) (.list items') := by
  intro ctx ctx' S hS hctx hctx' hN
  unfold inferExpr
  refine (alike_fresh hS).bind ?_
  intro a S₁ h₁ ha
  refine (alike_inferItems hitems h₁.valid (hctx.mono h₁.supply) (hctx'.mono h₁.supply) hN ha).bind ?_
  intro _ S₂ h₂ _
  exact alike_pure h₂.valid (Ty.within_list.2 (ha.mono h₂.supply))

theorem Alpha.alikeOn_items (h : Alpha N (.list items) e')
    (hitems : ∀ e ∈ items, ∀ ⦃N e'⦄, Alpha N e e' → AlikeOn N e e') :
    ∃ items', e' = .list items' ∧ List.Forall₂ (AlikeOn N) items items' := by
  induction items generalizing e' with
  | nil =>
    cases h
    exact ⟨[], rfl, .nil⟩
  | cons e items ih =>
    obtain ⟨he, hitems⟩ := List.forall_mem_cons.1 hitems
    cases h with
    | cons hitem hrest =>
      obtain ⟨items', h', hrest⟩ := ih hrest hitems
      cases h'
      exact ⟨_, rfl, .cons (he hitem) hrest⟩

theorem Alpha.alikeOn (h : Alpha N e e') : AlikeOn N e e' := by
  induction e using Expr.induct generalizing N e' with
  | number n =>
    cases h
    intro ctx ctx' S hS _ _ _
    unfold inferExpr
    exact alike_pure hS Ty.within_number
  | boolean b =>
    cases h
    intro ctx ctx' S hS _ _ _
    unfold inferExpr
    exact alike_pure hS Ty.within_boolean
  | var x =>
    cases h with
    | var hx => exact alikeOn_var hx
  | lam x body ih =>
    cases h with
    | lam hbody => exact (ih hbody).lam
  | app e₁ e₂ ih₁ ih₂ =>
    cases h with
    | app h₁ h₂ => exact (ih₁ h₁).app (ih₂ h₂)
  | ite e e₁ e₂ ih ih₁ ih₂ =>
    cases h with
    | ite h h₁ h₂ => exact (ih h).ite (ih₁ h₁) (ih₂ h₂)
  | letIn recursive x e body ih ihbody =>
    cases h with
    | letIn h hbody => exact (ih h).letPoly (ihbody hbody)
    | letRec h hbody => exact (ih h).letRec (ihbody hbody)
  | list items ih =>
    obtain ⟨items', rfl, hitems⟩ := h.alikeOn_items ih
    exact .list hitems
  | prim op | closure => cases h

end Walk

/-- A run that starts anew has the same result for programs that are the same but for the names of their
binders, and leaves the same solution, entry by entry, and the same supply. -/
theorem inferExpr_alpha (ctx : Context) (hctx : ctx.Closed) (e e' : Expr) (h : Alpha Eq e e') :
    let r := (inferExpr ctx e).run .new
    let r' := (inferExpr ctx e').run .new
    r'.1 = r.1 ∧ r'.2.solution = r.2.solution ∧ r'.2.supply = r.2.supply := by
  have hwithin := hctx.within Session.new.supply
  have hagrees : Naming.Agrees Eq ctx ctx := by
    rintro y _ rfl
    exact ⟨rfl, fun _ => rfl⟩
  obtain ⟨log, hrun⟩ := (h.alikeOn Session.valid_new hwithin hwithin hagrees).run []
  change (inferExpr ctx e').run .new = _ at hrun
  simp only [hrun]
  exact ⟨trivial, trivial, trivial⟩

/-- Where both parameters are called `x`, the context has lost unknown 1 when the `let` is generalized. -/
theorem inferExpr_alpha_shadowed :
    let e : Expr := .lam "x" (.lam "x" (.letIn false "y" (.lam "z" (.var "x")) (.var "y")))
    let e' : Expr := .lam "a" (.lam "b" (.letIn false "c" (.lam "a" (.var "b")) (.var "c")))
    let t : Ty := .fn (.unknown 1) (.fn (.unknown 2) (.fn (.unknown 4) (.unknown 2)))
    Context.initial.Closed ∧ Alpha Eq e e' ∧ ((inferExpr .initial e').run .new).1 = .ok t ∧
      ((inferExpr .initial e').run .new).2.supply = 4 := by
  intro e e' t
  have halpha : Alpha Eq e e' := by
    refine .lam (.lam (.letIn (.lam (.var ?_)) (.var ?_)))
    all_goals simp [Naming.bind]
  have hresult : ((inferExpr .initial e).run .new).1 = .ok t := by cbv
  have hsupply : ((inferExpr .initial e).run .new).2.supply = 4 := by cbv
  obtain ⟨hsame, -, hcount⟩ := inferExpr_alpha .initial Context.closed_initial e e' halpha
  exact ⟨Context.closed_initial, halpha, hsame.trans hresult, hcount.trans hsupply⟩

end LetPoly
