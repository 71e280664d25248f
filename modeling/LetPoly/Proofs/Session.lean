import LetPoly.Inference
import LetPoly.Proofs.Procedure
import LetPoly.Proofs.Typing

/-! What the steps of inference do to a session. Every run, one that ends in an error included,
gives out more unknowns and solves more of them, and takes nothing back (`Session.Grows`).
Postconditions are stated with `Infer.Ensures`, which goes through a bind. -/

namespace LetPoly

/-! ### Types, schemes and contexts about the unknowns given out -/

/-- No named variable occurs, and no unknown beyond `n`. -/
def Ty.Within (n : Nat) (t : Ty) : Prop := t.vars = [] ∧ ∀ u ∈ t.unknowns, u ≤ n

namespace Ty

variable {n m u : Nat} {t : Ty}

@[simp] theorem within_number : Within n .number := by simp [Within, vars, unknowns]

@[simp] theorem within_boolean : Within n .boolean := by simp [Within, vars, unknowns]

@[simp] theorem within_unknown : Within n (.unknown u) ↔ u ≤ n := by simp [Within, vars, unknowns]

@[simp] theorem within_fn {a r : Ty} : Within n (.fn a r) ↔ a.Within n ∧ r.Within n := by
  simp only [Within, vars, unknowns, List.append_eq_nil_iff, List.mem_append, or_imp, forall_and]
  exact and_and_and_comm

@[simp] theorem within_list {e : Ty} : Within n (.list e) ↔ e.Within n := Iff.rfl

theorem Within.mono (h : t.Within n) (hnm : n ≤ m) : t.Within m :=
  ⟨h.1, fun u hu => (h.2 u hu).trans hnm⟩

theorem mem_vars_subst {σ : Nat → Ty} {v : String} :
    v ∈ (t.subst σ).vars ↔ v ∈ t.vars ∨ ∃ u ∈ t.unknowns, v ∈ (σ u).vars := by
  induction t with
  | number | boolean | var => simp [Ty.subst, vars, unknowns]
  | unknown u => simp [Ty.subst, vars, unknowns]
  | fn a r iha ihr =>
    simp only [Ty.subst, unknowns, vars, List.mem_append, iha, ihr, or_and_right, exists_or]
    exact or_or_or_comm
  | list e ih => simpa [Ty.subst, unknowns, vars] using ih

theorem substVar_eq_inst (v : String) (r : Ty) :
    t.substVar v r = t.inst .unknown fun w => if w = v then r else .var w := by
  induction t with
  | number | boolean | var | unknown => rfl
  | fn a r iha ihr => rw [substVar, inst, iha, ihr]
  | list e ih => rw [substVar, inst, ih]

/-- A type whose variables all belong to a scheme, with types within the bound in their places. -/
theorem within_inst {σ : Nat → Ty} {ρ : String → Ty} (hσ : ∀ u ∈ t.unknowns, (σ u).Within n)
    (hρ : ∀ v ∈ t.vars, (ρ v).Within n) : (t.inst σ ρ).Within n := by
  induction t with
  | number => exact within_number
  | boolean => exact within_boolean
  | var v => exact hρ v (by simp [vars])
  | unknown u => exact hσ u (by simp [unknowns])
  | fn a r iha ihr =>
    simp only [unknowns, vars, List.mem_append] at hσ hρ
    exact within_fn.2 ⟨iha (fun u hu => hσ u (.inl hu)) fun v hv => hρ v (.inl hv),
      ihr (fun u hu => hσ u (.inr hu)) fun v hv => hρ v (.inr hv)⟩
  | list e ih => exact ih hσ hρ

theorem Within.subst {σ : Nat → Ty} (h : t.Within m) (hσ : ∀ u ≤ m, (σ u).Within n) :
    (t.subst σ).Within n := by
  rw [subst_eq_inst]
  refine within_inst (fun u hu => hσ u (h.2 u hu)) fun v hv => ?_
  rw [h.1] at hv
  cases hv

end Ty

/-- The unknowns of a scheme are given out, and its variables are its own. -/
def Scheme.Within (n : Nat) (s : Scheme) : Prop :=
  (∀ u ∈ s.body.unknowns, u ≤ n) ∧ ∀ v ∈ s.body.vars, v ∈ s.vars

theorem Scheme.within_ofTy {n : Nat} {t : Ty} (h : t.Within n) : (Scheme.ofTy t).Within n :=
  ⟨h.2, fun v hv => absurd (h.1 ▸ hv : v ∈ []) List.not_mem_nil⟩

def Context.Within (n : Nat) (ctx : Context) : Prop := ∀ b ∈ ctx, b.2.Within n

namespace Context

variable {n m : Nat} {ctx : Context} {x : String} {s : Scheme}

theorem mem_insert {b : String × Scheme} (h : b ∈ ctx.insert x s) :
    b = (x, s) ∨ b ∈ ctx ∧ b.1 ≠ x := by
  simpa [Bindings.insert, Bindings.erase] using h

theorem Within.mono (h : ctx.Within n) (hnm : n ≤ m) : ctx.Within m := by
  intro b hb
  obtain ⟨hu, hv⟩ := h b hb
  exact ⟨fun u hmem => (hu u hmem).trans hnm, hv⟩

theorem Within.insert (h : ctx.Within n) (hs : s.Within n) (x : String) :
    Within n (ctx.insert x s) := by
  intro b hb
  rcases mem_insert hb with rfl | ⟨hb, -⟩
  · exact hs
  · exact h b hb

end Context

theorem generalizedName_injective : Function.Injective generalizedName := by
  intro u v huv
  simp only [generalizedName, toString, String.append_right_inj] at huv
  have hvalue := congrArg (fun s : String => Nat.ofDigitChars 10 s.toList 0) huv
  simpa using hvalue

/-! ### Sessions -/

namespace Session

/-- The solution has no cycle, and speaks of unknowns that were given out. -/
structure Valid (S : Session) : Prop where
  acyclic : S.solution.Acyclic
  within : ∀ u t, S.solution.get? u = some t → u ≤ S.supply ∧ t.Within S.supply

/-- A later session: more unknowns are given out and solved, and no entry is changed. -/
structure Grows (S S' : Session) : Prop where
  valid : S'.Valid
  supply : S.supply ≤ S'.supply
  solution : S'.solution.Extends S.solution

variable {S S₁ S₂ : Session} {t : Ty}

theorem valid_new : new.Valid := ⟨Solution.acyclic_nil, fun _ _ h => by cases h⟩

theorem Grows.refl (h : S.Valid) : S.Grows S := ⟨h, le_rfl, .refl _⟩

theorem Grows.trans (h₂ : S₁.Grows S₂) (h₁ : S.Grows S₁) : S.Grows S₂ :=
  ⟨h₂.valid, h₁.supply.trans h₂.supply, h₂.solution.trans h₁.solution⟩

theorem Valid.within_image (h : S.Valid) (n : Nat) {u : Nat} (hu : u ≤ S.supply) :
    (S.solution.image n u).Within S.supply := by
  induction n generalizing u with
  | zero => exact Ty.within_unknown.2 hu
  | succ n ih =>
    unfold Solution.image
    split
    · exact Ty.within_unknown.2 hu
    · next hentry => exact (h.within u _ hentry).2.subst fun v hv => ih hv

theorem Valid.within_apply (h : S.Valid) (ht : t.Within S.supply) :
    (S.solution.apply t).Within S.supply :=
  ht.subst fun _ hu => h.within_image _ hu

/-- Substitutions that agree on all unknowns given out agree with the same solutions. -/
theorem Valid.compatible_congr (h : S.Valid) {θ θ' : Nat → Ty}
    (hθ : S.solution.Compatible θ) (heq : ∀ u ≤ S.supply, θ' u = θ u) :
    S.solution.Compatible θ' := by
  intro u t hu
  obtain ⟨hle, ht⟩ := h.within u t hu
  rw [heq u hle, hθ u t hu]
  exact Ty.subst_congr fun v hv => (heq v (ht.2 v hv)).symm

/-- What generalizing quantifies over: every unknown that the context does not depend on. -/
theorem closes_generalize (h : S.Valid) (ctx : Context) (ht : t.Within S.supply) :
    (generalize S.solution ctx t).Closes (S.solution.apply t) (ctx.freeUnknowns S.solution) := by
  refine Scheme.closes_of_names generalizedName_injective ?_ ?_ ?_
  · intro u hu
    rw [(h.within_apply ht).1] at hu
    cases hu
  · intro v
    simp [generalize, Ty.freeUnknowns, mem_ascending, and_assoc]
  · refine Ty.subst_congr fun u hu => ?_
    simp only [Ty.freeUnknowns, List.mem_filter, mem_ascending, hu, true_and, decide_eq_true_eq]
    split_ifs <;> rfl

theorem within_generalize (h : S.Valid) (ctx : Context) (ht : t.Within S.supply) :
    (generalize S.solution ctx t).Within S.supply := by
  obtain ⟨hvars, hle⟩ := h.within_apply ht
  constructor
  · intro v hv
    obtain ⟨u, hu, hv⟩ := Ty.mem_unknowns_subst.1 hv
    split at hv
    · cases hv
    · exact List.mem_singleton.1 hv ▸ hle u hu
  · intro v hv
    rcases Ty.mem_vars_subst.1 hv with hv | ⟨u, -, hv⟩
    · rw [hvars] at hv
      cases hv
    · split at hv
      · next hfree => exact List.mem_singleton.1 hv ▸ List.mem_map_of_mem hfree
      · cases hv

end Session

/-! ### Runs -/

namespace Infer

variable {α β : Type} {S : Session}

theorem run_bind (m : Infer α) (f : α → Infer β) (S : Session) :
    (m >>= f).run S = match m.run S with
      | (.ok a, S₁) => (f a).run S₁
      | (.error e, S₁) => (.error e, S₁) := by
  cases h : m.run S with
  | mk r S₁ =>
    change (ExceptT.bind m f) S = _
    unfold ExceptT.bind ExceptT.mk
    change (let p := m.run S; ExceptT.bindCont f p.1 p.2) = _
    rw [h]
    cases r <;> rfl

theorem run_pure (a : α) (S : Session) : (pure a : Infer α).run S = (.ok a, S) := rfl

theorem run_fresh (S : Session) :
    fresh.run S = (.ok (.unknown (S.supply + 1)), { S with supply := S.supply + 1 }) := rfl

theorem run_get (S : Session) : (get : Infer Session).run S = (.ok S, S) := rfl

theorem run_instantiateVars (vs : List String) (t : Ty) (S : Session) :
    (instantiateVars vs t).run S =
      (.ok (t.inst .unknown fun v =>
        if v ∈ vs then .unknown (S.supply + 1 + vs.idxOf v) else .var v),
        { S with supply := S.supply + vs.length }) := by
  induction vs generalizing t S with
  | nil =>
    have hself : (t.inst .unknown fun v => .var v) = t := by
      rw [← Ty.subst_eq_inst, Ty.subst_unknown]
    simp only [instantiateVars, run_pure, List.not_mem_nil, if_false, List.length_nil, hself]
    rfl
  | cons w vs ih =>
    rw [instantiateVars, run_bind, run_fresh]
    simp only [ih, Ty.substVar_eq_inst, Ty.inst_inst, List.length_cons]
    rw [Prod.mk.injEq, Except.ok.injEq]
    refine ⟨Ty.inst_congr (fun _ _ => rfl) fun v _ => ?_, ?_⟩
    · by_cases hv : v = w
      · subst hv
        simp [Ty.inst]
      · have hidx := List.idxOf_cons_ne vs (Ne.symm hv)
        simp only [hv, if_false, Ty.inst, List.mem_cons, false_or, hidx]
        split
        · congr 1
          omega
        · rfl
    · congr 1
      omega

/-- The variables of a scheme get the next unknowns, in the order of their list. -/
theorem run_instantiate (s : Scheme) (S : Session) :
    (instantiate s).run S =
      (.ok (s.generic (S.supply + 1) .unknown), { S with supply := S.supply + s.vars.length }) :=
  run_instantiateVars s.vars s.body S

theorem run_unify_eq (a b : Ty) (S : Session) :
    (unify a b).run S =
      ((S.solution.unify a b).1.mapError .ofConflict,
        ⟨(S.solution.unify a b).2, S.supply,
          ((S.solution.unification a b).steps.map Event.unification).reverse ++ S.log⟩) := by
  simp only [unify, run_bind, run_get, Solution.unify]
  cases (S.solution.unification a b).conflict <;> rfl

theorem run_unify (a b : Ty) (S : Session) :
    ∃ log, (unify a b).run S =
      ((S.solution.unify a b).1.mapError .ofConflict,
        ⟨(S.solution.unify a b).2, S.supply, log⟩) :=
  ⟨_, run_unify_eq a b S⟩

theorem inferExpr_bound {ctx : Context} {x : String} {s : Scheme} (h : ctx.get? x = some s) :
    inferExpr ctx (.var x) = instantiate s := by
  unfold inferExpr
  rw [h]

theorem inferExpr_unbound {ctx : Context} {x : String} (h : ctx.get? x = none) :
    inferExpr ctx (.var x) = throw (.unboundVariable x) := by
  unfold inferExpr
  rw [h]

/-- Every run from the session grows it, and the result of one without an error satisfies `Q`. -/
structure Ensures (m : Infer α) (S : Session) (Q : α → Session → Prop) : Prop where
  grows : S.Grows (m.run S).2
  result : ∀ a S', m.run S = (.ok a, S') → Q a S'

variable {m : Infer α} {f : α → Infer β} {Q : α → Session → Prop} {R : β → Session → Prop}

theorem Ensures.of_run {a : α} {S' : Session} (h : m.run S = (.ok a, S')) (hg : S.Grows S')
    (hQ : Q a S') : Ensures m S Q := by
  refine ⟨by rwa [h], fun b S₁ hb => ?_⟩
  rw [h] at hb
  cases hb
  exact hQ

theorem ensures_pure {a : α} (hS : S.Valid) (hQ : Q a S) : Ensures (pure a) S Q :=
  .of_run (run_pure a S) (.refl hS) hQ

theorem ensures_throw (e : TypeError) (hS : S.Valid) : Ensures (throw e) S Q :=
  ⟨.refl hS, fun a S' h => by cases h⟩

theorem Ensures.bind (hm : Ensures m S Q)
    (hf : ∀ a S₁, S.Grows S₁ → Q a S₁ → Ensures (f a) S₁ R) : Ensures (m >>= f) S R := by
  obtain ⟨hgrows, hresult⟩ := hm
  cases h : m.run S with
  | mk r S₁ =>
    rw [h] at hgrows
    cases r with
    | error e =>
      have hrun : (m >>= f).run S = (.error e, S₁) := by rw [run_bind, h]
      refine ⟨by rwa [hrun], fun b S' hb => ?_⟩
      rw [hrun] at hb
      cases hb
    | ok a =>
      have hrun : (m >>= f).run S = (f a).run S₁ := by rw [run_bind, h]
      obtain ⟨hgrows', hresult'⟩ := hf a S₁ hgrows (hresult a S₁ h)
      exact ⟨by rw [hrun]; exact hgrows'.trans hgrows, fun b S' hb => hresult' b S' (hrun ▸ hb)⟩

theorem Ensures.imp {Q' : α → Session → Prop} (hm : Ensures m S Q)
    (h : ∀ a S', S.Grows S' → Q a S' → Q' a S') : Ensures m S Q' := by
  refine ⟨hm.grows, fun a S' hrun => h a S' ?_ (hm.result a S' hrun)⟩
  have hgrows := hm.grows
  rwa [hrun] at hgrows

theorem ensures_get (hS : S.Valid) : Ensures get S fun r S' => r = S ∧ S' = S :=
  .of_run (run_get S) (.refl hS) ⟨rfl, rfl⟩

theorem grows_log (hS : S.Valid) (log : Log) : S.Grows { S with log := log } :=
  ⟨⟨hS.acyclic, hS.within⟩, le_rfl, .refl _⟩

theorem ensures_note (e : Event) (hS : S.Valid) : Ensures (note e) S fun _ _ => True :=
  .of_run rfl (grows_log hS (e :: S.log)) trivial

theorem grows_supply (hS : S.Valid) (n : Nat) : S.Grows { S with supply := S.supply + n } := by
  refine ⟨⟨hS.acyclic, fun u t hu => ?_⟩, Nat.le_add_right _ _, .refl _⟩
  obtain ⟨hle, ht⟩ := hS.within u t hu
  exact ⟨hle.trans (Nat.le_add_right _ _), ht.mono (Nat.le_add_right _ _)⟩

theorem ensures_fresh (hS : S.Valid) : Ensures fresh S fun t S' => t.Within S'.supply :=
  .of_run (run_fresh S) (grows_supply hS 1) (Ty.within_unknown.2 le_rfl)

theorem within_generic {s : Scheme} {n : Nat} (hs : s.Within n) :
    (s.generic (n + 1) .unknown).Within (n + s.vars.length) := by
  refine Ty.within_inst (fun u hu => ?_) fun v hv => ?_
  · exact Ty.within_unknown.2 ((hs.1 u hu).trans (Nat.le_add_right _ _))
  · have hlt := List.idxOf_lt_length_iff.2 (hs.2 v hv)
    rw [if_pos (hs.2 v hv), Ty.within_unknown]
    omega

theorem ensures_instantiate {s : Scheme} (hS : S.Valid) (hs : s.Within S.supply) :
    Ensures (instantiate s) S fun t S' => t.Within S'.supply ∧ ∃ ρ, t = s.inst .unknown ρ :=
  .of_run (run_instantiate s S) (grows_supply hS _) ⟨within_generic hs, _, rfl⟩

theorem valid_unify {a b : Ty} (hS : S.Valid) (ha : a.Within S.supply) (hb : b.Within S.supply)
    (log : Log) : Session.Valid ⟨(S.solution.unify a b).2, S.supply, log⟩ := by
  refine ⟨Solution.acyclic_unify hS.acyclic a b, fun u t hu => ?_⟩
  rcases Solution.get?_extend hu with hu | hmem
  · exact hS.within u t hu
  · obtain ⟨hkey, hty⟩ := (Equations.forall_types (P := Ty.Within S.supply)
      Ty.within_fn.1 Ty.within_list.1 (fun u hs ht => hs.subst fun v hv => by
        split
        · exact ht
        · exact Ty.within_unknown.2 hv)
      _ (List.forall_mem_singleton.2 ⟨hS.within_apply ha, hS.within_apply hb⟩)).1 (u, t) hmem
    exact ⟨Ty.within_unknown.1 hkey, hty⟩

theorem grows_unify {a b : Ty} (hS : S.Valid) (ha : a.Within S.supply) (hb : b.Within S.supply)
    (log : Log) : S.Grows ⟨(S.solution.unify a b).2, S.supply, log⟩ :=
  ⟨valid_unify hS ha hb log, le_rfl, Solution.extends_unify hS.acyclic a b⟩

theorem ensures_unify {a b : Ty} (hS : S.Valid) (ha : a.Within S.supply)
    (hb : b.Within S.supply) :
    Ensures (unify a b) S fun _ S' => ∀ θ, S'.solution.Compatible θ → a.subst θ = b.subst θ := by
  obtain ⟨log, hrun⟩ := run_unify a b S
  refine ⟨by rw [hrun]; exact grows_unify hS ha hb log, fun r S' h θ hθ => ?_⟩
  rw [hrun] at h
  cases hok : (S.solution.unify a b).1 with
  | error c => rw [hok] at h; cases h
  | ok _ =>
    cases (Prod.mk.inj h).2
    exact Solution.unifier_of_compatible hS.acyclic hok hθ

end Infer
end LetPoly
