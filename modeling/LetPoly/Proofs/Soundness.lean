import Mathlib
import LetPoly.Proofs.Session

/-! Inference finds types of the type system. An inferred type is one only after the solution is put
into it, and the solution grows once the type is returned; so what a run establishes is stated for
every substitution that agrees with some later solution (`HasTypes`). -/

namespace LetPoly

/-- Every substitution that agrees with the solution makes the type one of the expression's, in each
context that is at least as general as the substituted one. -/
def HasTypes (s : Solution) (ctx : Context) (e : Expr) (t : Ty) : Prop :=
  ∀ θ, s.Compatible θ → ∀ Γ, Context.LessGeneral θ ctx .unknown Γ → Typed Γ e (t.subst θ)

section HasTypes

variable {s s' : Solution} {ctx : Context} {x : String} {e e₁ e₂ body : Expr} {t r : Ty}

theorem HasTypes.of_extends (h : HasTypes s ctx e t) (hs : s'.Extends s) : HasTypes s' ctx e t :=
  fun θ hθ Γ hΓ => h θ (hθ.of_extends hs) Γ hΓ

theorem hasTypes_var {scheme : Scheme} (hx : ctx.get? x = some scheme) (ρ : String → Ty) :
    HasTypes s ctx (.var x) (scheme.inst .unknown ρ) := by
  intro θ hθ Γ hΓ
  exact (Typed.var ρ hx).subst hΓ

theorem hasTypes_lam {a : Ty} (h : HasTypes s (ctx.insert x (.ofTy a)) body r) :
    HasTypes s ctx (.lam x body) (.fn a r) := by
  intro θ hθ Γ hΓ
  exact .lam (h θ hθ _ (hΓ.insert_ofTy x a))

theorem hasTypes_app {f a : Ty} (hf : HasTypes s ctx e₁ f) (ha : HasTypes s ctx e₂ a)
    (heq : ∀ θ, s.Compatible θ → f.subst θ = (Ty.fn a r).subst θ) :
    HasTypes s ctx (.app e₁ e₂) r := by
  intro θ hθ Γ hΓ
  have hfun := hf θ hθ Γ hΓ
  rw [heq θ hθ] at hfun
  exact .app hfun (ha θ hθ Γ hΓ)

theorem hasTypes_ite {c : Ty} (hc : HasTypes s ctx e c) (h₁ : HasTypes s ctx e₁ t)
    (h₂ : HasTypes s ctx e₂ r) (hbool : ∀ θ, s.Compatible θ → c.subst θ = Ty.boolean.subst θ)
    (heq : ∀ θ, s.Compatible θ → t.subst θ = r.subst θ) : HasTypes s ctx (.ite e e₁ e₂) t := by
  intro θ hθ Γ hΓ
  have hcond := hc θ hθ Γ hΓ
  have helse := h₂ θ hθ Γ hΓ
  rw [hbool θ hθ] at hcond
  rw [← heq θ hθ] at helse
  exact .ite hcond (h₁ θ hθ Γ hΓ) helse

theorem hasTypes_letRec {own a : Ty} (he : HasTypes s (ctx.insert x (.ofTy own)) e a)
    (heq : ∀ θ, s.Compatible θ → own.subst θ = a.subst θ)
    (hbody : HasTypes s (ctx.insert x (.ofTy own)) body t) :
    HasTypes s ctx (.letIn true x e body) t := by
  intro θ hθ Γ hΓ
  have hbound := he θ hθ _ (hΓ.insert_ofTy x own)
  rw [← heq θ hθ] at hbound
  exact .letRec hbound (hbody θ hθ _ (hΓ.insert_ofTy x own))

theorem mem_freeUnknowns_of_apply {scheme : Scheme} {u w : Nat} (hx : ctx.get? x = some scheme)
    (hu : u ∈ scheme.body.unknowns) (hw : w ∈ (s.apply (.unknown u)).unknowns) :
    w ∈ ctx.freeUnknowns s := by
  refine mem_ascending.2 (List.mem_flatMap.2 ⟨_, Bindings.mem_of_get? hx, ?_⟩)
  exact Ty.mem_unknowns_subst.2 ⟨u, hu, hw⟩

/-- The scheme was made with an earlier solution than the one that the body is typed under. What the
context depends on was kept, so the context cannot tell the instances of the scheme apart. -/
theorem hasTypes_letPoly {scheme : Scheme} {a : Ty} (hs : s.Acyclic) (hs' : s'.Extends s)
    (he : HasTypes s ctx e a) (hscheme : scheme.Closes (s.apply a) (ctx.freeUnknowns s))
    (hbody : HasTypes s' (ctx.insert x scheme) body t) :
    HasTypes s' ctx (.letIn false x e body) t := by
  intro θ hθ Γ hΓ
  refine typed_let_of_instances (fun ρ => ?_) fun s' hle => hbody θ hθ _ (hΓ.insert hle x)
  obtain ⟨τ, hinst, hkept⟩ := hscheme.of_inst θ ρ
  rw [hinst, ← Solution.subst_apply_unknown]
  refine he _ (Solution.compatible_apply hs τ) Γ (hΓ.congr fun y r hy u hu => ?_)
  calc (s.apply (.unknown u)).subst τ = (s.apply (.unknown u)).subst θ :=
        Ty.subst_congr fun w hw => hkept w (mem_freeUnknowns_of_apply hy hu hw)
    _ = θ u := (hθ.of_extends hs').subst_apply hs (.unknown u)

end HasTypes

/-! ### The runs, one form of expression at a time -/

section Runs
open Infer

variable {ctx : Context} {S : Session} {x : String} {e e₁ e₂ body : Expr} {items : List Expr}

/-- Inferring the expression in a session that gave out the unknowns of the context grows the
session, and what it returns is judged by the solution that the run ends with. -/
def SoundOn (e : Expr) : Prop :=
  ∀ ⦃ctx : Context⦄ ⦃S : Session⦄, S.Valid → ctx.Within S.supply →
    Ensures (inferExpr ctx e) S fun t S' => t.Within S'.supply ∧ HasTypes S'.solution ctx e t

theorem soundOn_number (n : Int64) : SoundOn (.number n) := by
  intro ctx S hS _
  unfold inferExpr
  exact ensures_pure hS ⟨Ty.within_number, fun θ hθ Γ hΓ => .number n⟩

theorem soundOn_boolean (b : Bool) : SoundOn (.boolean b) := by
  intro ctx S hS _
  unfold inferExpr
  exact ensures_pure hS ⟨Ty.within_boolean, fun θ hθ Γ hΓ => .boolean b⟩

theorem soundOn_var (x : String) : SoundOn (.var x) := by
  intro ctx S hS hctx
  unfold inferExpr
  split
  · next scheme hx =>
    refine (ensures_instantiate hS (hctx _ (Bindings.mem_of_get? hx))).imp ?_
    rintro t S₁ h₁ ⟨ht, ρ, hρ⟩
    refine ⟨ht, ?_⟩
    rw [hρ]
    exact hasTypes_var hx ρ
  · exact ensures_throw _ hS

theorem SoundOn.lam (hbody : SoundOn body) : SoundOn (.lam x body) := by
  intro ctx S hS hctx
  unfold inferExpr
  refine (ensures_fresh hS).bind ?_
  intro a S₁ h₁ ha
  refine (hbody h₁.valid ((hctx.mono h₁.supply).insert (Scheme.within_ofTy ha) x)).bind ?_
  rintro r S₂ h₂ ⟨hr, htypes⟩
  exact ensures_pure h₂.valid ⟨Ty.within_fn.2 ⟨ha.mono h₂.supply, hr⟩, hasTypes_lam htypes⟩

theorem SoundOn.app (hf : SoundOn e₁) (ha : SoundOn e₂) : SoundOn (.app e₁ e₂) := by
  intro ctx S hS hctx
  unfold inferExpr
  refine (hf hS hctx).bind ?_
  rintro f S₁ h₁ ⟨hf, hfunc⟩
  refine (ha h₁.valid (hctx.mono h₁.supply)).bind ?_
  rintro a S₂ h₂ ⟨ha, hargument⟩
  refine (ensures_fresh h₂.valid).bind ?_
  intro r S₃ h₃ hr
  have h₁₃ := h₃.trans h₂
  have hfn : Ty.Within S₃.supply (.fn a r) := Ty.within_fn.2 ⟨ha.mono h₃.supply, hr⟩
  refine (ensures_unify h₃.valid (hf.mono h₁₃.supply) hfn).bind ?_
  intro _ S₄ h₄ heq
  have htypes := hasTypes_app (hfunc.of_extends (h₄.trans h₁₃).solution)
    (hargument.of_extends (h₄.trans h₃).solution) heq
  exact ensures_pure h₄.valid ⟨hr.mono h₄.supply, htypes⟩

theorem SoundOn.ite (hc : SoundOn e) (h₁ : SoundOn e₁) (h₂ : SoundOn e₂) :
    SoundOn (.ite e e₁ e₂) := by
  intro ctx S hS hctx
  unfold inferExpr
  refine (hc hS hctx).bind ?_
  rintro c S₁ g₁ ⟨hc, hcond⟩
  refine (h₁ g₁.valid (hctx.mono g₁.supply)).bind ?_
  rintro t S₂ g₂ ⟨ht, hthen⟩
  refine (h₂ g₂.valid (hctx.mono (g₂.trans g₁).supply)).bind ?_
  rintro r S₃ g₃ ⟨hr, helse⟩
  refine (ensures_unify g₃.valid (hc.mono (g₃.trans g₂).supply) Ty.within_boolean).bind ?_
  intro _ S₄ g₄ hbool
  have g₃₄ := g₄.trans g₃
  refine (ensures_unify g₄.valid (ht.mono g₃₄.supply) (hr.mono g₄.supply)).bind ?_
  intro _ S₅ g₅ heq
  have g₂₅ := g₅.trans g₃₄
  have htypes := hasTypes_ite (hcond.of_extends (g₂₅.trans g₂).solution)
    (hthen.of_extends g₂₅.solution) (helse.of_extends (g₅.trans g₄).solution)
    (fun θ hθ => hbool θ (hθ.of_extends g₅.solution)) heq
  exact ensures_pure g₅.valid ⟨ht.mono g₂₅.supply, htypes⟩

theorem SoundOn.letRec (he : SoundOn e) (hbody : SoundOn body) :
    SoundOn (.letIn true x e body) := by
  intro ctx S hS hctx
  unfold inferExpr
  refine (ensures_fresh hS).bind ?_
  intro own S₁ h₁ hown
  have hinner := (hctx.mono h₁.supply).insert (Scheme.within_ofTy hown) x
  refine (he h₁.valid hinner).bind ?_
  rintro a S₂ h₂ ⟨ha, hbound⟩
  refine (ensures_unify h₂.valid (hown.mono h₂.supply) ha).bind ?_
  intro _ S₃ h₃ heq
  refine (hbody h₃.valid (hinner.mono (h₃.trans h₂).supply)).imp ?_
  rintro t S₄ h₄ ⟨ht, htypes⟩
  refine ⟨ht, ?_⟩
  exact hasTypes_letRec (hbound.of_extends (h₄.trans h₃).solution)
    (fun θ hθ => heq θ (hθ.of_extends h₄.solution)) htypes

theorem SoundOn.letPoly (he : SoundOn e) (hbody : SoundOn body) :
    SoundOn (.letIn false x e body) := by
  intro ctx S hS hctx
  unfold inferExpr
  refine (he hS hctx).bind ?_
  rintro a S₁ h₁ ⟨ha, hbound⟩
  refine (ensures_get h₁.valid).bind ?_
  rintro _ _ - ⟨rfl, rfl⟩
  refine (ensures_note _ h₁.valid).bind ?_
  intro _ S₂ h₂ _
  have hscheme := Session.within_generalize h₁.valid ctx ha
  have hinner := (hctx.mono h₁.supply).insert hscheme x
  refine (hbody h₂.valid (hinner.mono h₂.supply)).imp ?_
  rintro t S₃ h₃ ⟨ht, htypes⟩
  refine ⟨ht, ?_⟩
  exact hasTypes_letPoly h₁.valid.acyclic (h₃.trans h₂).solution hbound
    (Session.closes_generalize h₁.valid ctx ha) htypes

theorem inferItems_ensures {element : Ty} (hitems : ∀ e ∈ items, SoundOn e) (hS : S.Valid)
    (hctx : ctx.Within S.supply) (helement : element.Within S.supply) :
    Ensures (inferItems ctx element items) S fun _ S' =>
      ∀ e ∈ items, HasTypes S'.solution ctx e element := by
  induction items generalizing S with
  | nil =>
    unfold inferItems
    exact ensures_pure hS (by simp)
  | cons item items ih =>
    obtain ⟨hitem, hitems⟩ := List.forall_mem_cons.1 hitems
    unfold inferItems
    refine (hitem hS hctx).bind ?_
    rintro t S₁ h₁ ⟨ht, htypes⟩
    refine (ensures_unify h₁.valid (helement.mono h₁.supply) ht).bind ?_
    intro _ S₂ h₂ heq
    have hle := h₁.supply.trans h₂.supply
    refine (ih hitems h₂.valid (hctx.mono hle) (helement.mono hle)).imp ?_
    intro _ S₃ h₃ hrest
    refine List.forall_mem_cons.2 ⟨fun θ hθ Γ hΓ => ?_, hrest⟩
    rw [heq θ (hθ.of_extends h₃.solution)]
    exact htypes θ (hθ.of_extends (h₃.solution.trans h₂.solution)) Γ hΓ

theorem SoundOn.list (hitems : ∀ e ∈ items, SoundOn e) : SoundOn (.list items) := by
  intro ctx S hS hctx
  unfold inferExpr
  refine (ensures_fresh hS).bind ?_
  intro a S₁ h₁ ha
  refine (inferItems_ensures hitems h₁.valid (hctx.mono h₁.supply) ha).bind ?_
  intro _ S₂ h₂ htypes
  refine ensures_pure h₂.valid ⟨ha.mono h₂.supply, fun θ hθ Γ hΓ => ?_⟩
  exact .list fun e he => htypes e he θ hθ Γ hΓ

theorem soundOn (e : Expr) : SoundOn e := by
  induction e using Expr.induct with
  | number n => exact soundOn_number n
  | boolean b => exact soundOn_boolean b
  | var x => exact soundOn_var x
  | lam x body ih => exact ih.lam
  | app e₁ e₂ ih₁ ih₂ => exact ih₁.app ih₂
  | ite e e₁ e₂ ih ih₁ ih₂ => exact ih.ite ih₁ ih₂
  | letIn recursive x e body ihe ihbody =>
    cases recursive with
    | true => exact ihe.letRec ihbody
    | false => exact ihe.letPoly ihbody
  | list items ih => exact SoundOn.list ih
  | prim op | closure =>
    intro ctx S hS _
    unfold inferExpr
    exact ensures_throw _ hS

theorem infer_ensures (e : Expr) (hS : S.Valid) (hctx : ctx.Within S.supply) :
    Ensures (infer ctx e) S fun t S' =>
      ∃ r, r.Within S'.supply ∧ t = S'.solution.apply r ∧ HasTypes S'.solution ctx e r := by
  unfold infer
  refine (soundOn e hS hctx).bind ?_
  rintro r S₁ h₁ ⟨hr, htypes⟩
  refine (ensures_get h₁.valid).bind ?_
  rintro _ _ - ⟨rfl, rfl⟩
  exact ensures_pure h₁.valid ⟨r, hr, rfl, htypes⟩

end Runs

/-! ### Closed contexts -/

/-- No scheme has anything left to solve, or a variable that is not its own. -/
def Context.Closed (ctx : Context) : Prop :=
  ∀ b ∈ ctx, b.2.body.unknowns = [] ∧ ∀ v ∈ b.2.body.vars, v ∈ b.2.vars

section Closed

variable {ctx : Context} {e : Expr} {t : Ty} {S : Session}

theorem Context.Closed.within (h : ctx.Closed) (n : Nat) : ctx.Within n := by
  intro b hb
  obtain ⟨hu, hv⟩ := h b hb
  exact ⟨fun u hmem => absurd (hu ▸ hmem) List.not_mem_nil, hv⟩

theorem Context.Closed.lessGeneral (h : ctx.Closed) (σ τ : Nat → Ty) :
    Context.LessGeneral σ ctx τ ctx := by
  refine .refl fun x s hx u hu => ?_
  rw [(h _ (Bindings.mem_of_get? hx)).1] at hu
  cases hu

theorem Context.closed_initial : Context.initial.Closed := by
  unfold Context.Closed
  decide

theorem typed_of_infer (hctx : ctx.Closed) (h : (infer ctx e).run Session.new = (.ok t, S))
    (σ : Nat → Ty) : t.vars = [] ∧ Typed ctx e (t.subst σ) := by
  have hnew := infer_ensures e Session.valid_new (hctx.within 0)
  obtain ⟨r, hr, rfl, htypes⟩ := hnew.result t S h
  have hvalid : S.Valid := by
    have hgrows := hnew.grows.valid
    rwa [h] at hgrows
  refine ⟨(hvalid.within_apply hr).1, ?_⟩
  rw [← Solution.subst_apply_unknown]
  exact htypes _ (Solution.compatible_apply hvalid.acyclic σ) ctx (hctx.lessGeneral _ _)

/-- What a new session infers is a type of the expression, and so is each of its instances. -/
theorem infer_sound (ctx : Context) (hctx : ctx.Closed) (e : Expr) (t : Ty) (S : Session)
    (h : (infer ctx e).run Session.new = (.ok t, S)) :
    e.isSource = true ∧ (∀ x ∈ e.freeVars, (ctx.get? x).isSome) ∧ t.vars = [] ∧
      Typed ctx e t ∧ ∀ σ, Typed ctx e (t.subst σ) := by
  obtain ⟨hvars, htyped⟩ := typed_of_infer hctx h .unknown
  rw [Ty.subst_unknown] at htyped
  refine ⟨htyped.isSource, fun x hx => htyped.bound_of_mem_freeVars hx, hvars, htyped, fun σ => ?_⟩
  exact (typed_of_infer hctx h σ).2

theorem infer_sound_polymorphic_let :
    let e : Expr := .letIn false "single" (.lam "x" (.binary "cons" (.var "x") (.var "nil")))
      (.lam "y" (.app (.var "single") (.var "y")))
    Context.initial.Closed ∧
      (∃ S, (infer .initial e).run Session.new =
        (.ok (.fn (.unknown 6) (.list (.unknown 6))), S)) ∧
      Typed .initial e (.fn .number (.list .number)) := by
  intro e
  have hrun : (infer .initial e).run Session.new =
      (.ok (.fn (.unknown 6) (.list (.unknown 6))), ((infer .initial e).run Session.new).2) :=
    Prod.ext (by cbv) rfl
  obtain ⟨-, -, -, -, hinstances⟩ := infer_sound .initial Context.closed_initial e _ _ hrun
  exact ⟨Context.closed_initial, ⟨_, hrun⟩, hinstances fun _ => .number⟩

end Closed
end LetPoly
