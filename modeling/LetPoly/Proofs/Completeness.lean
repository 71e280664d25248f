import LetPoly.Proofs.Soundness
import LetPoly.Proofs.Variants

/-! Inference finds principal types. Given a derivation, a substitution of the unknowns is carried
along the run and continued to each unknown as it is given out (`Session.Continues`): it agrees with
every solution on the way, so no unification can fail, and it turns the inferred type into the given
one. -/

namespace LetPoly

/-- A later session, and a substitution that agrees with its solution and puts the same types as
before for the unknowns that were given out before. -/
structure Session.Continues (S : Session) (θ : Nat → Ty) (S' : Session) (θ' : Nat → Ty) : Prop where
  grows : S.Grows S'
  compatible : S'.solution.Compatible θ'
  agrees : ∀ u ≤ S.supply, θ' u = θ u

namespace Session.Continues

variable {S S₁ S₂ : Session} {θ θ₁ θ₂ : Nat → Ty} {t : Ty}

theorem refl (hS : S.Valid) (hθ : S.solution.Compatible θ) : S.Continues θ S θ :=
  ⟨.refl hS, hθ, fun _ _ => rfl⟩

theorem trans (h₂ : S₁.Continues θ₁ S₂ θ₂) (h₁ : S.Continues θ S₁ θ₁) : S.Continues θ S₂ θ₂ := by
  refine ⟨h₂.grows.trans h₁.grows, h₂.compatible, fun u hu => ?_⟩
  rw [h₂.agrees u (hu.trans h₁.grows.supply), h₁.agrees u hu]

theorem subst (h : S.Continues θ S₁ θ₁) (ht : t.Within S.supply) : t.subst θ₁ = t.subst θ :=
  Ty.subst_congr fun u hu => h.agrees u (ht.2 u hu)

/-- Only unknowns were given out, and the substitution was changed on these. -/
theorem supply (hS : S.Valid) (hθ : S.solution.Compatible θ) (n : Nat)
    (h : ∀ u ≤ S.supply, θ₁ u = θ u) : S.Continues θ { S with supply := S.supply + n } θ₁ :=
  ⟨Infer.grows_supply hS n, hS.compatible_congr hθ h, h⟩

end Session.Continues

/-! ### Contexts -/

/-- The inference context has a scheme for each name of the context of the derivation, which is at
least as general once the substitution is put in, and it has no further names. -/
structure Context.Covers (θ : Nat → Ty) (ctx Γ : Context) : Prop where
  general : Context.LessGeneral .unknown Γ θ ctx
  bound : ∀ b ∈ ctx, ∃ s, Γ.get? b.1 = some s ∧ s.LessGeneral .unknown θ b.2

namespace Context.Covers

variable {θ θ' : Nat → Ty} {ctx Γ : Context} {s s' : Scheme} {x : String}

theorem insert (h : ctx.Covers θ Γ) (hs : s.LessGeneral .unknown θ s') (x : String) :
    Covers θ (ctx.insert x s') (Γ.insert x s) := by
  refine ⟨h.general.insert hs x, fun b hb => ?_⟩
  rcases mem_insert hb with rfl | ⟨hb, hne⟩
  · exact ⟨s, by rw [Bindings.get?_insert, if_pos rfl], hs⟩
  · obtain ⟨r, hr, hle⟩ := h.bound b hb
    exact ⟨r, by rw [Bindings.get?_insert, if_neg hne.symm, hr], hle⟩

theorem congr (h : ctx.Covers θ Γ) (heq : ∀ b ∈ ctx, ∀ u ∈ b.2.body.unknowns, θ' u = θ u) :
    Covers θ' ctx Γ := by
  have change : ∀ b ∈ ctx, ∀ s : Scheme, s.LessGeneral .unknown θ b.2 →
      s.LessGeneral .unknown θ' b.2 := by
    intro b hb s hle ρ
    obtain ⟨ρ', hρ'⟩ := hle ρ
    exact ⟨ρ', by rw [hρ', Scheme.inst_congr (heq b hb)]⟩
  constructor
  · intro y s hy
    obtain ⟨s', hs', hle⟩ := h.general y s hy
    exact ⟨s', hs', change _ (Bindings.mem_of_get? hs') s hle⟩
  · intro b hb
    obtain ⟨s, hs, hle⟩ := h.bound b hb
    exact ⟨s, hs, change b hb s hle⟩

end Context.Covers

/-- A type variable that comes in through a scheme is free in every scheme that is less general. -/
theorem Scheme.LessGeneral.mem_unknowns {s s' : Scheme} {θ : Nat → Ty} {u w : Nat}
    (h : s.LessGeneral .unknown θ s') (hu : u ∈ s'.body.unknowns) (hw : w ∈ (θ u).unknowns) :
    w ∈ s.body.unknowns := by
  -- the instance with numbers for the variables has no unknowns but those of the body
  obtain ⟨ρ', hρ'⟩ := h fun _ => .number
  have hmem : w ∈ (s.inst .unknown fun _ => .number).unknowns := by
    rw [hρ']
    exact Ty.mem_unknowns_inst.2 (.inl ⟨u, hu, hw⟩)
  rcases Ty.mem_unknowns_inst.1 hmem with ⟨v, hv, hw⟩ | ⟨v, -, hw⟩
  · exact List.mem_singleton.1 hw ▸ hv
  · split at hw <;> cases hw

/-- What the context depends on stands for types with no other type variables than the context of
the derivation has. -/
theorem Context.Covers.mem_unknowns {s : Solution} {θ : Nat → Ty} {ctx Γ : Context} {u w : Nat}
    (h : ctx.Covers θ Γ) (hs : s.Acyclic) (hθ : s.Compatible θ) (hu : u ∈ ctx.freeUnknowns s)
    (hw : w ∈ (θ u).unknowns) : w ∈ Γ.unknowns := by
  obtain ⟨b, hb, hu⟩ := List.mem_flatMap.1 (mem_ascending.1 hu)
  obtain ⟨r, hr, hle⟩ := h.bound b hb
  have hmem : w ∈ (b.2.body.subst θ).unknowns := by
    rw [← hθ.subst_apply hs]
    exact Ty.mem_unknowns_subst.2 ⟨u, hu, hw⟩
  obtain ⟨v, hv, hw⟩ := Ty.mem_unknowns_subst.1 hmem
  exact Context.mem_unknowns hr (hle.mem_unknowns hv hw)

/-- Generalizing the inferred type gives at least what generalizing the derived one gives. -/
theorem lessGeneral_generalize {S : Session} {θ : Nat → Ty} {ctx Γ : Context} {t : Ty} {s : Scheme}
    (hS : S.Valid) (hθ : S.solution.Compatible θ) (hctx : ctx.Covers θ Γ) (ht : t.Within S.supply)
    (hs : Γ.Generalizes (t.subst θ) s) :
    s.LessGeneral .unknown θ (generalize S.solution ctx t) := by
  intro ρ
  obtain ⟨τ, hinst, hkept⟩ := hs.closes.of_inst .unknown ρ
  have hfix : ∀ u ∈ ctx.freeUnknowns S.solution, (θ u).subst τ = θ u := by
    intro u hu
    have hunknown : (θ u).subst τ = (θ u).subst .unknown :=
      Ty.subst_congr fun w hw => hkept w (hctx.mem_unknowns hS.acyclic hθ hu hw)
    rw [hunknown, Ty.subst_unknown]
  obtain ⟨ρ', hρ'⟩ := (Session.closes_generalize hS ctx ht).inst_of θ (fun u => (θ u).subst τ) hfix
  refine ⟨ρ', ?_⟩
  rw [hinst, ← hρ', ← hθ.subst_apply hS.acyclic, Ty.subst_subst]

/-! ### Runs that cannot fail -/

namespace Infer

variable {α β : Type} {m : Infer α} {f : α → Infer β} {S : Session} {θ : Nat → Ty}
  {Q : α → Session → (Nat → Ty) → Prop} {R : β → Session → (Nat → Ty) → Prop}

/-- The run ends without an error, and the substitution can be continued so that `Q` holds. -/
def Completes (m : Infer α) (S : Session) (θ : Nat → Ty)
    (Q : α → Session → (Nat → Ty) → Prop) : Prop :=
  ∃ a S' θ', m.run S = (.ok a, S') ∧ S.Continues θ S' θ' ∧ Q a S' θ'

theorem completes_pure {a : α} (hS : S.Valid) (hθ : S.solution.Compatible θ) (hQ : Q a S θ) :
    Completes (pure a) S θ Q :=
  ⟨a, S, θ, run_pure a S, .refl hS hθ, hQ⟩

theorem Completes.bind (hm : Completes m S θ Q)
    (hf : ∀ a S₁ θ₁, S.Continues θ S₁ θ₁ → Q a S₁ θ₁ → Completes (f a) S₁ θ₁ R) :
    Completes (m >>= f) S θ R := by
  obtain ⟨a, S₁, θ₁, hrun, hcont, hQ⟩ := hm
  obtain ⟨b, S₂, θ₂, hrun', hcont', hR⟩ := hf a S₁ θ₁ hcont hQ
  refine ⟨b, S₂, θ₂, ?_, hcont'.trans hcont, hR⟩
  rw [run_bind, hrun]
  exact hrun'

theorem completes_get (hS : S.Valid) (hθ : S.solution.Compatible θ) :
    Completes get S θ fun r S' θ' => r = S ∧ S' = S ∧ θ' = θ :=
  ⟨S, S, θ, run_get S, .refl hS hθ, rfl, rfl, rfl⟩

theorem completes_note (e : Event) (hS : S.Valid) (hθ : S.solution.Compatible θ) :
    Completes (note e) S θ fun _ _ _ => True :=
  ⟨(), _, θ, rfl, ⟨grows_log hS (e :: S.log), hθ, fun _ _ => rfl⟩, trivial⟩

theorem completes_fresh (hS : S.Valid) (hθ : S.solution.Compatible θ) (t : Ty) :
    Completes fresh S θ fun a S' θ' => a.Within S'.supply ∧ a.subst θ' = t := by
  refine ⟨_, _, fun u => if u ≤ S.supply then θ u else t, run_fresh S,
    .supply hS hθ 1 fun u hu => if_pos hu, Ty.within_unknown.2 le_rfl, ?_⟩
  exact if_neg (by omega)

theorem completes_instantiate {s : Scheme} (hS : S.Valid) (hθ : S.solution.Compatible θ)
    (hs : s.Within S.supply) (ρ : String → Ty) :
    Completes (instantiate s) S θ fun a S' θ' => a.Within S'.supply ∧ a.subst θ' = s.inst θ ρ := by
  have hkeep : ∀ u ≤ S.supply, s.choice (S.supply + 1) θ ρ u = θ u := fun u hu =>
    Scheme.choice_of_lt (by omega)
  refine ⟨_, _, s.choice (S.supply + 1) θ ρ, run_instantiate s S, .supply hS hθ _ hkeep,
    within_generic hs, ?_⟩
  rw [Scheme.generic_subst_choice]
  exact Scheme.inst_congr fun u hu => hkeep u (hs.1 u hu)

theorem completes_unify {a b : Ty} (hS : S.Valid) (hθ : S.solution.Compatible θ)
    (ha : a.Within S.supply) (hb : b.Within S.supply) (h : a.subst θ = b.subst θ) :
    Completes (unify a b) S θ fun _ _ _ => True := by
  obtain ⟨log, hrun⟩ := run_unify a b S
  obtain ⟨hok, hcompatible⟩ := Solution.unify_of_unifier hS.acyclic hθ h
  rw [hok] at hrun
  exact ⟨(), _, θ, hrun, ⟨grows_unify hS ha hb log, hcompatible, fun _ _ => rfl⟩, trivial⟩

end Infer

/-! ### The runs, one typing rule at a time -/

/-- Where inference stands when it comes to an expression that has a type in the context `Γ`. -/
structure Ready (ctx : Context) (S : Session) (θ : Nat → Ty) (Γ : Context) : Prop where
  valid : S.Valid
  within : ctx.Within S.supply
  compatible : S.solution.Compatible θ
  covers : ctx.Covers θ Γ

namespace Ready

variable {ctx Γ : Context} {S S' : Session} {θ θ' : Nat → Ty}

theorem continues (h : Ready ctx S θ Γ) (hθ : S.Continues θ S' θ') : Ready ctx S' θ' Γ where
  valid := hθ.grows.valid
  within := h.within.mono hθ.grows.supply
  compatible := hθ.compatible
  covers := h.covers.congr fun b hb u hu => hθ.agrees u ((h.within b hb).1 u hu)

theorem insert {s s' : Scheme} (h : Ready ctx S θ Γ) (hs' : s'.Within S.supply)
    (hle : s.LessGeneral .unknown θ s') (x : String) :
    Ready (ctx.insert x s') S θ (Γ.insert x s) where
  valid := h.valid
  within := h.within.insert hs' x
  compatible := h.compatible
  covers := h.covers.insert hle x

theorem insert_ofTy {t a : Ty} (h : Ready ctx S θ Γ) (ht : t.Within S.supply)
    (hta : t.subst θ = a) (x : String) :
    Ready (ctx.insert x (.ofTy t)) S θ (Γ.insert x (.ofTy a)) :=
  h.insert (Scheme.within_ofTy ht)
    (Scheme.lessGeneral_ofTy ((Ty.subst_unknown a).trans hta.symm)) x

end Ready

section Runs
open Infer

variable {ctx Γ : Context} {S : Session} {θ : Nat → Ty} {x : String} {e e₁ e₂ body : Expr}
  {items : List Expr} {a r t : Ty}

/-- Inferring the expression cannot fail, and the type comes out under the continued substitution. -/
def CompleteOn (Γ : Context) (e : Expr) (t : Ty) : Prop :=
  ∀ ⦃ctx : Context⦄ ⦃S : Session⦄ ⦃θ : Nat → Ty⦄, Ready ctx S θ Γ →
    Completes (inferExpr ctx e) S θ fun p S' θ' => p.Within S'.supply ∧ p.subst θ' = t

theorem completeOn_number (n : Int64) : CompleteOn Γ (.number n) .number := by
  intro ctx S θ h
  unfold inferExpr
  exact completes_pure h.valid h.compatible ⟨Ty.within_number, rfl⟩

theorem completeOn_boolean (b : Bool) : CompleteOn Γ (.boolean b) .boolean := by
  intro ctx S θ h
  unfold inferExpr
  exact completes_pure h.valid h.compatible ⟨Ty.within_boolean, rfl⟩

theorem completeOn_var {s : Scheme} (hx : Γ.get? x = some s) (ρ : String → Ty) :
    CompleteOn Γ (.var x) (s.inst .unknown ρ) := by
  intro ctx S θ h
  obtain ⟨scheme, hscheme, hle⟩ := h.covers.general x s hx
  obtain ⟨ρ', hρ'⟩ := hle ρ
  unfold inferExpr
  rw [hscheme, hρ']
  exact completes_instantiate h.valid h.compatible (h.within _ (Bindings.mem_of_get? hscheme)) ρ'

theorem CompleteOn.lam (hbody : CompleteOn (Γ.insert x (.ofTy a)) body r) :
    CompleteOn Γ (.lam x body) (.fn a r) := by
  intro ctx S θ h
  unfold inferExpr
  refine (completes_fresh h.valid h.compatible a).bind ?_
  rintro p S₁ θ₁ h₁ ⟨hp, hpa⟩
  refine (hbody ((h.continues h₁).insert_ofTy hp hpa x)).bind ?_
  rintro q S₂ θ₂ h₂ ⟨hq, hqr⟩
  refine completes_pure h₂.grows.valid h₂.compatible ⟨?_, ?_⟩
  · exact Ty.within_fn.2 ⟨hp.mono h₂.grows.supply, hq⟩
  · rw [Ty.subst, h₂.subst hp, hpa, hqr]

theorem CompleteOn.app (hf : CompleteOn Γ e₁ (.fn a r)) (ha : CompleteOn Γ e₂ a) :
    CompleteOn Γ (.app e₁ e₂) r := by
  intro ctx S θ h
  unfold inferExpr
  refine (hf h).bind ?_
  rintro p S₁ θ₁ h₁ ⟨hp, hpf⟩
  refine (ha (h.continues h₁)).bind ?_
  rintro q S₂ θ₂ h₂ ⟨hq, hqa⟩
  refine (completes_fresh h₂.grows.valid h₂.compatible r).bind ?_
  rintro o S₃ θ₃ h₃ ⟨ho, hor⟩
  have h₁₃ := h₃.trans h₂
  have hfn : Ty.Within S₃.supply (.fn q o) := Ty.within_fn.2 ⟨hq.mono h₃.grows.supply, ho⟩
  have heq : p.subst θ₃ = (Ty.fn q o).subst θ₃ := by
    rw [h₁₃.subst hp, hpf, Ty.subst, h₃.subst hq, hqa, hor]
  refine (completes_unify h₃.grows.valid h₃.compatible (hp.mono h₁₃.grows.supply) hfn heq).bind ?_
  intro _ S₄ θ₄ h₄ _
  exact completes_pure h₄.grows.valid h₄.compatible
    ⟨ho.mono h₄.grows.supply, (h₄.subst ho).trans hor⟩

theorem CompleteOn.ite (hc : CompleteOn Γ e .boolean) (h₁ : CompleteOn Γ e₁ t)
    (h₂ : CompleteOn Γ e₂ t) : CompleteOn Γ (.ite e e₁ e₂) t := by
  intro ctx S θ h
  unfold inferExpr
  refine (hc h).bind ?_
  rintro b S₁ θ₁ g₁ ⟨hb, hbool⟩
  refine (h₁ (h.continues g₁)).bind ?_
  rintro p S₂ θ₂ g₂ ⟨hp, hpt⟩
  refine (h₂ (h.continues (g₂.trans g₁))).bind ?_
  rintro q S₃ θ₃ g₃ ⟨hq, hqt⟩
  have g₁₃ := g₃.trans g₂
  refine (completes_unify g₃.grows.valid g₃.compatible (hb.mono g₁₃.grows.supply)
    Ty.within_boolean ((g₁₃.subst hb).trans hbool)).bind ?_
  intro _ S₄ θ₄ g₄ _
  have g₂₄ := g₄.trans g₃
  have heq : p.subst θ₄ = q.subst θ₄ := by rw [g₂₄.subst hp, hpt, g₄.subst hq, hqt]
  refine (completes_unify g₄.grows.valid g₄.compatible (hp.mono g₂₄.grows.supply)
    (hq.mono g₄.grows.supply) heq).bind ?_
  intro _ S₅ θ₅ g₅ _
  have g₂₅ := g₅.trans g₂₄
  exact completes_pure g₅.grows.valid g₅.compatible
    ⟨hp.mono g₂₅.grows.supply, (g₂₅.subst hp).trans hpt⟩

theorem CompleteOn.letRec (he : CompleteOn (Γ.insert x (.ofTy a)) e a)
    (hbody : CompleteOn (Γ.insert x (.ofTy a)) body t) : CompleteOn Γ (.letIn true x e body) t := by
  intro ctx S θ h
  unfold inferExpr
  refine (completes_fresh h.valid h.compatible a).bind ?_
  rintro own S₁ θ₁ h₁ ⟨hown, howna⟩
  have hinner := (h.continues h₁).insert_ofTy hown howna x
  refine (he hinner).bind ?_
  rintro p S₂ θ₂ h₂ ⟨hp, hpa⟩
  have heq : own.subst θ₂ = p.subst θ₂ := by rw [h₂.subst hown, howna, hpa]
  refine (completes_unify h₂.grows.valid h₂.compatible (hown.mono h₂.grows.supply) hp heq).bind ?_
  intro _ S₃ θ₃ h₃ _
  exact hbody (hinner.continues (h₃.trans h₂))

theorem CompleteOn.letPoly {s : Scheme} (he : CompleteOn Γ e a) (hs : Γ.Generalizes a s)
    (hbody : CompleteOn (Γ.insert x s) body t) : CompleteOn Γ (.letIn false x e body) t := by
  intro ctx S θ h
  unfold inferExpr
  refine (he h).bind ?_
  rintro p S₁ θ₁ h₁ ⟨hp, rfl⟩
  have hready := h.continues h₁
  have hle := lessGeneral_generalize hready.valid hready.compatible hready.covers hp hs
  have hscheme := Session.within_generalize hready.valid ctx hp
  refine (completes_get hready.valid hready.compatible).bind ?_
  rintro _ _ _ - ⟨rfl, rfl, rfl⟩
  refine (completes_note _ hready.valid hready.compatible).bind ?_
  intro _ S₂ θ₂ h₂ _
  exact hbody ((hready.insert hscheme hle x).continues h₂)

theorem inferItems_completes {element : Ty} (hitems : ∀ e ∈ items, CompleteOn Γ e t)
    (h : Ready ctx S θ Γ) (helement : element.Within S.supply) (ht : element.subst θ = t) :
    Completes (inferItems ctx element items) S θ fun _ _ _ => True := by
  induction items generalizing S θ with
  | nil =>
    unfold inferItems
    exact completes_pure h.valid h.compatible trivial
  | cons item items ih =>
    obtain ⟨hitem, hitems⟩ := List.forall_mem_cons.1 hitems
    unfold inferItems
    refine (hitem h).bind ?_
    rintro p S₁ θ₁ h₁ ⟨hp, hpt⟩
    have hE := helement.mono h₁.grows.supply
    have heq : element.subst θ₁ = p.subst θ₁ := by rw [h₁.subst helement, ht, hpt]
    refine (completes_unify h₁.grows.valid h₁.compatible hE hp heq).bind ?_
    intro _ S₂ θ₂ h₂ _
    have h₀₂ := h₂.trans h₁
    exact ih hitems (h.continues h₀₂) (helement.mono h₀₂.grows.supply)
      ((h₀₂.subst helement).trans ht)

theorem CompleteOn.list (hitems : ∀ e ∈ items, CompleteOn Γ e t) :
    CompleteOn Γ (.list items) (.list t) := by
  intro ctx S θ h
  unfold inferExpr
  refine (completes_fresh h.valid h.compatible t).bind ?_
  rintro p S₁ θ₁ h₁ ⟨hp, hpt⟩
  refine (inferItems_completes hitems (h.continues h₁) hp hpt).bind ?_
  intro _ S₂ θ₂ h₂ _
  refine completes_pure h₂.grows.valid h₂.compatible ⟨hp.mono h₂.grows.supply, ?_⟩
  rw [Ty.subst, h₂.subst hp, hpt]

theorem Typed.completeOn (h : Typed Γ e t) : CompleteOn Γ e t := by
  induction h with
  | number n => exact completeOn_number n
  | boolean b => exact completeOn_boolean b
  | var ρ hx => exact completeOn_var hx ρ
  | lam _ ih => exact ih.lam
  | app _ _ ih₁ ih₂ => exact ih₁.app ih₂
  | ite _ _ _ ih ih₁ ih₂ => exact ih.ite ih₁ ih₂
  | letRec _ _ ihe ihbody => exact ihe.letRec ihbody
  | letPoly _ hs _ ihe ihbody => exact ihe.letPoly hs ihbody
  | list _ ih => exact CompleteOn.list ih

end Runs

/-! ### Principal types -/

theorem Context.covers_initial (θ : Nat → Ty) : Context.initial.Covers θ .initial := by
  refine ⟨closed_initial.lessGeneral _ _, fun b hb => ?_⟩
  have hget : ∀ b ∈ Context.initial, Context.initial.get? b.1 = some b.2 := by decide
  refine ⟨b.2, hget b hb, .refl fun u hu => ?_⟩
  rw [(closed_initial b hb).1] at hu
  cases hu

theorem ready_initial : Ready .initial .new .unknown .initial where
  valid := Session.valid_new
  within := Context.closed_initial.within 0
  compatible := fun u t hu => by cases hu
  covers := Context.covers_initial _

theorem inferType_of_typed {e : Expr} {t : Ty} (h : Typed .initial e t) :
    ∃ p, inferType e = .ok p ∧ ∃ σ, t = p.subst σ := by
  obtain ⟨a, S, θ, hrun, hcont, -, rfl⟩ := h.completeOn ready_initial
  refine ⟨S.solution.apply a, ?_, θ, ?_⟩
  · unfold inferType infer
    rw [Infer.run_bind, hrun]
    rfl
  · exact (hcont.compatible.subst_apply hcont.grows.valid.acyclic a).symm

theorem typed_iff_of_inferType {e : Expr} {p t : Ty} (hp : inferType e = .ok p) :
    Typed .initial e t ↔ ∃ σ, t = p.subst σ := by
  constructor
  · intro h
    obtain ⟨q, hq, σ, rfl⟩ := inferType_of_typed h
    cases hp.symm.trans hq
    exact ⟨σ, rfl⟩
  · rintro ⟨σ, rfl⟩
    exact (typed_of_infer Context.closed_initial (Prod.ext hp rfl) σ).2

theorem inferType_ok_iff (e : Expr) : (∃ p, inferType e = .ok p) ↔ ∃ t, Typed .initial e t := by
  constructor
  · rintro ⟨p, hp⟩
    exact ⟨p, (typed_iff_of_inferType hp).2 ⟨_, (Ty.subst_unknown p).symm⟩⟩
  · rintro ⟨t, h⟩
    obtain ⟨p, hp, -⟩ := inferType_of_typed h
    exact ⟨p, hp⟩

/-- Of expressions that have the same types the same is inferred, but for the numbers of unknowns. -/
theorem exists_rename_of_same_types {e e' : Expr} {p q : Ty} (hp : inferType e = .ok p)
    (hq : inferType e' = .ok q) (h : ∀ t, Typed .initial e t ↔ Typed .initial e' t) :
    ∃ ρ : Equiv.Perm Nat, q = p.rename ρ := by
  have hself : ∀ t : Ty, ∃ σ, t = t.subst σ := fun t => ⟨_, (Ty.subst_unknown t).symm⟩
  obtain ⟨τ, hτ⟩ := (typed_iff_of_inferType hq).1 ((h p).1 ((typed_iff_of_inferType hp).2 (hself p)))
  obtain ⟨σ, hσ⟩ := (typed_iff_of_inferType hp).1 ((h q).2 ((typed_iff_of_inferType hq).2 (hself q)))
  exact Ty.exists_rename_of_instances hσ hτ

/-- The types of an expression are the instances of one scheme. -/
theorem exists_principal_scheme {e : Expr} {a : Ty} (h : Typed .initial e a) :
    ∃ s : Scheme, ∀ t, Typed .initial e t ↔ ∃ ρ, t = s.inst .unknown ρ := by
  obtain ⟨p, hp, -⟩ := inferType_of_typed h
  obtain ⟨s, hs⟩ := Context.initial.exists_generalizes p
  have hnone : Context.initial.unknowns = [] :=
    List.flatMap_eq_nil_iff.2 fun b hb => (Context.closed_initial b hb).1
  refine ⟨s, fun t => ?_⟩
  rw [typed_iff_of_inferType hp]
  constructor
  · rintro ⟨σ, rfl⟩
    exact hs.closes.inst_of .unknown σ (by simp [hnone])
  · rintro ⟨ρ, rfl⟩
    obtain ⟨σ, hσ, -⟩ := hs.closes.of_inst .unknown ρ
    exact ⟨σ, hσ⟩

/-- The types of an expression are the instances of the one that is inferred for it. There is none
if inference ends in an error. -/
theorem inferType_principal (e : Expr) :
    (∀ t, Typed .initial e t ↔ ∃ p, inferType e = .ok p ∧ ∃ σ, t = p.subst σ) ∧
      ∀ error, inferType e = .error error → ∀ t, ¬ Typed .initial e t := by
  constructor
  · intro t
    constructor
    · exact inferType_of_typed
    · rintro ⟨p, hp, σ, rfl⟩
      exact (typed_of_infer Context.closed_initial (Prod.ext hp rfl) σ).2
  · intro error herror t ht
    obtain ⟨p, hp, -⟩ := inferType_of_typed ht
    rw [herror] at hp
    cases hp

/-- A parameter has one type in all its uses; one that is applied to itself would need an infinite
type. -/
theorem inferType_principal_parameters :
    let single : Expr := .lam "x" (.list [.var "x"])
    let self : Expr := .lam "x" (.app (.var "x") (.var "x"))
    (∃ p, inferType single = .ok p ∧ ∃ σ, Ty.fn .boolean (.list .boolean) = p.subst σ) ∧
      inferType self = .error (.infinite 1 (.fn (.unknown 1) (.unknown 2))) ∧
      ∀ t, ¬ Typed .initial self t := by
  intro single self
  have hsingle : Typed .initial single (.fn .boolean (.list .boolean)) := by
    refine .lam (.list fun e he => ?_)
    rw [List.mem_singleton.1 he]
    have hx : (Context.initial.insert "x" (.ofTy .boolean)).get? "x" = some (.ofTy .boolean) := by
      rw [Bindings.get?_insert, if_pos rfl]
    exact .var (fun _ => .number) hx
  have herror : inferType self = .error (.infinite 1 (.fn (.unknown 1) (.unknown 2))) := by cbv
  refine ⟨((inferType_principal single).1 _).1 hsingle, herror, ?_⟩
  exact (inferType_principal self).2 _ herror

end LetPoly
