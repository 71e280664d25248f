import LetPoly.Proofs.History
import LetPoly.Proofs.Instantiation
import LetPoly.Proofs.Shift

/-! What a session has done before makes no difference to what it infers in a closed context, except for the
numbers of unknowns (`infer_after_calls`). The run goes in step with that of a new session, on top of the old
one (`Session.atop`): whatever it gives out, solves or generalizes is the same with the old supply added.
`Infer.Follows` states this of one action and goes through a bind. -/

namespace LetPoly

def TypeError.shift (n : Nat) : TypeError → TypeError
  | unboundVariable name => unboundVariable name
  | mismatch expected found => mismatch (expected.shift n) (found.shift n)
  | infinite u t => infinite (n + u) (t.shift n)
  | runtimeValue text => runtimeValue text

theorem TypeError.shift_ofConflict (n : Nat) (c : Conflict) :
    (ofConflict c).shift n = ofConflict (c.shift n) := by
  cases c <;> rfl

/-! ### A session on top of another one -/

/-- The session that has done what `P` has, and then what `S` has, on unknowns beyond those of `P`. -/
def Session.atop (S P : Session) (log : Log) : Session :=
  ⟨S.solution.atop P.supply P.solution, P.supply + S.supply, log⟩

section Atop

variable {S P : Session} {a b t : Ty}

theorem Session.atop_new (P : Session) : new.atop P P.log = P := rfl

theorem Session.Valid.unsolved_above (hP : P.Valid) :
    ∀ u ∈ positive, P.solution.get? (P.supply + u) = none :=
  fun _ hu => hP.get?_eq_none (Nat.lt_add_of_pos_right hu)

theorem Session.Area.apply_atop (hS : S.Area positive) (hP : P.Valid)
    (ht : ∀ u ∈ t.unknowns, u ∈ positive) :
    (S.solution.atop P.supply P.solution).apply (t.shift P.supply) =
      (S.solution.apply t).shift P.supply :=
  Solution.apply_atop hS.valid.acyclic hP.unsolved_above hS.closed ht

theorem Session.Area.unification_atop (hS : S.Area positive) (hP : P.Valid)
    (ha : a.Inside positive S.supply) (hb : b.Inside positive S.supply) :
    (S.solution.atop P.supply P.solution).unification (a.shift P.supply) (b.shift P.supply) =
      (S.solution.unification a b).shift P.supply := by
  rw [Solution.unification, hS.apply_atop hP ha.2, hS.apply_atop hP hb.2]
  exact Equations.unify_shift P.supply [(S.solution.apply a, S.solution.apply b)]

theorem Session.Area.unify_atop (hS : S.Area positive) (hP : P.Valid)
    (ha : a.Inside positive S.supply) (hb : b.Inside positive S.supply) :
    (S.solution.atop P.supply P.solution).unify (a.shift P.supply) (b.shift P.supply) =
      ((S.solution.unify a b).1.mapError (Conflict.shift P.supply),
        (S.solution.unify a b).2.atop P.supply P.solution) := by
  have hbelow : ∀ p ∈ (S.solution.unification a b).bindings, P.solution.get? (P.supply + p.1) = none :=
    fun p hp => hP.unsolved_above p.1 (Ty.inside_unknown.1 ((hS.inside_unification ha hb).1 p hp).1).2
  simp only [Solution.unify, hS.unification_atop hP ha hb, Unification.bindings_shift]
  refine Prod.ext ?_ (Solution.extend_atop hbelow S.solution)
  rw [Unification.shift]
  cases (S.solution.unification a b).conflict <;> rfl

end Atop

/-! ### Schemes and contexts -/

/-- The schemes have as many variables, and differ by the shift in their unknowns and in what they are
instantiated to. -/
structure Scheme.Shifted (n : Nat) (s s' : Scheme) : Prop where
  count : s'.vars.length = s.vars.length
  unknowns : ∀ u, u ∈ s'.body.unknowns ↔ ∃ v ∈ s.body.unknowns, u = n + v
  generic : ∀ k, s'.generic (n + k) .unknown = (s.generic k .unknown).shift n

theorem Scheme.shifted_ofTy (n : Nat) (t : Ty) : Shifted n (.ofTy t) (.ofTy (t.shift n)) := by
  refine ⟨rfl, fun u => Ty.mem_unknowns_shift, fun k => ?_⟩
  rw [generic, generic, inst_ofTy, inst_ofTy, Ty.subst_unknown, Ty.subst_unknown]

theorem Scheme.shifted_self {s : Scheme} (h : s.body.unknowns = []) (n : Nat) : s.Shifted n s := by
  refine ⟨rfl, by simp [h], fun k => ?_⟩
  rw [generic, generic, Ty.shift, inst_subst]
  simp only [Ty.subst, Nat.add_assoc]
  exact inst_congr (by simp [h])

/-- The same names with shifted schemes, where those of the first context are about unknowns up to `m`. -/
structure Context.Shifted (n m : Nat) (ctx ctx' : Context) : Prop where
  inside : ∀ s ∈ ctx.schemes, s.Inside positive m
  entries : List.Forall₂ (fun b b' => b'.1 = b.1 ∧ b.2.Shifted n b'.2) ctx ctx'

section Contexts

variable {n m k : Nat} {ctx ctx' : Context} {x : String} {s s' : Scheme}

theorem Context.Shifted.mono (h : ctx.Shifted n m ctx') (hmk : m ≤ k) : ctx.Shifted n k ctx' :=
  ⟨fun s hs => (h.inside s hs).mono hmk, h.entries⟩

theorem Context.Shifted.insert (h : ctx.Shifted n m ctx') (hs : s.Inside positive m)
    (hss' : s.Shifted n s') (x : String) : Shifted n m (ctx.insert x s) (ctx'.insert x s') := by
  refine ⟨fun r hr => ?_, .cons ⟨rfl, hss'⟩ (List.rel_filter ?_ h.entries)⟩
  · rcases List.mem_cons.1 (schemes_insert ctx x s hr) with rfl | hr
    · exact hs
    · exact h.inside r hr
  · rintro b b' ⟨hname, -⟩
    simp [hname]

theorem Context.Shifted.insert_ofTy {t : Ty} (h : ctx.Shifted n m ctx') (ht : t.Inside positive m)
    (x : String) : Shifted n m (ctx.insert x (.ofTy t)) (ctx'.insert x (.ofTy (t.shift n))) :=
  h.insert (Scheme.inside_ofTy.2 ht) (Scheme.shifted_ofTy n t) x

theorem Context.Shifted.get? (h : ctx.Shifted n m ctx') (x : String) :
    Option.Rel (Scheme.Shifted n) (ctx.get? x) (ctx'.get? x) := by
  obtain ⟨-, h⟩ := h
  induction h with
  | nil => exact .none
  | @cons b b' ctx ctx' hb _ ih =>
    obtain ⟨y, s⟩ := b
    obtain ⟨y', s'⟩ := b'
    obtain ⟨rfl, hs⟩ := hb
    by_cases hy : y' = x
    · simpa [Bindings.get?, hy] using Option.Rel.some hs
    · simpa [Bindings.get?, hy] using ih

theorem Scheme.inside_of_closed {A : Set Nat} (hu : s.body.unknowns = [])
    (hv : ∀ v ∈ s.body.vars, v ∈ s.vars) : s.Inside A n :=
  ⟨⟨by simp [hu], hv⟩, by simp [hu]⟩

theorem Context.Closed.shifted (h : ctx.Closed) (n m : Nat) : ctx.Shifted n m ctx := by
  refine ⟨List.forall_mem_map.2 fun b hb => ?_, List.forall₂_same.2 fun b hb => ⟨rfl, ?_⟩⟩
  · exact Scheme.inside_of_closed (h b hb).1 (h b hb).2
  · exact Scheme.shifted_self (h b hb).1 n

variable {S P : Session} {t : Ty} {u : Nat}

theorem Scheme.Shifted.mem_apply (h : s.Shifted P.supply s') (hS : S.Area positive) (hP : P.Valid)
    (hs : s.Inside positive S.supply) :
    P.supply + u ∈ ((S.solution.atop P.supply P.solution).apply s'.body).unknowns ↔
      u ∈ (S.solution.apply s.body).unknowns := by
  have hstep : ∀ v ∈ s.body.unknowns,
      (P.supply + u ∈ ((S.solution.atop P.supply P.solution).apply (.unknown (P.supply + v))).unknowns ↔
        u ∈ (S.solution.apply (.unknown v)).unknowns) := by
    intro v hv
    have happly := hS.apply_atop (t := .unknown v) hP (List.forall_mem_singleton.2 (hs.2 v hv))
    rw [Ty.shift_unknown] at happly
    rw [happly, Ty.add_mem_unknowns_shift]
  rw [Solution.apply, Solution.apply, Ty.mem_unknowns_subst, Ty.mem_unknowns_subst]
  simp only [h.unknowns]
  constructor
  · rintro ⟨_, ⟨v, hv, rfl⟩, hmem⟩
    exact ⟨v, hv, (hstep v hv).1 hmem⟩
  · rintro ⟨v, hv, hmem⟩
    exact ⟨_, ⟨v, hv, rfl⟩, (hstep v hv).2 hmem⟩

theorem Context.Shifted.mem_freeUnknowns (h : ctx.Shifted P.supply S.supply ctx') (hS : S.Area positive)
    (hP : P.Valid) :
    P.supply + u ∈ ctx'.freeUnknowns (S.solution.atop P.supply P.solution) ↔
      u ∈ ctx.freeUnknowns S.solution := by
  obtain ⟨hin, h⟩ := h
  rw [Session.mem_freeUnknowns, Session.mem_freeUnknowns]
  induction h with
  | nil => simp
  | cons hb _ ih =>
    obtain ⟨hs, hin⟩ := List.forall_mem_cons.1 hin
    simp only [List.mem_cons, exists_eq_or_imp, hb.2.mem_apply hS hP hs, ih hin]

/-- What is generalized on top of the old session are the same unknowns, shifted. -/
theorem Context.Shifted.quantified (h : ctx.Shifted P.supply S.supply ctx') (hS : S.Area positive)
    (hP : P.Valid) (ht : t.Inside positive S.supply) :
    ctx'.quantified (S.solution.atop P.supply P.solution) (t.shift P.supply) =
      (ctx.quantified S.solution t).map (P.supply + ·) := by
  refine quantified_eq ((pairwise_quantified ..).map _ fun _ _ hlt => Nat.add_lt_add_left hlt _) fun u => ?_
  rw [hS.apply_atop hP ht.2, List.mem_map]
  constructor
  · rintro ⟨v, hv, rfl⟩
    obtain ⟨hmem, hkept⟩ := mem_quantified.1 hv
    exact ⟨Ty.add_mem_unknowns_shift.2 hmem, mt (h.mem_freeUnknowns hS hP).1 hkept⟩
  · rintro ⟨hu, hkept⟩
    obtain ⟨v, hv, rfl⟩ := Ty.mem_unknowns_shift.1 hu
    exact ⟨v, mem_quantified.2 ⟨hv, mt (h.mem_freeUnknowns hS hP).2 hkept⟩, rfl⟩

theorem shifted_generalize (h : ctx.Shifted P.supply S.supply ctx') (hS : S.Area positive) (hP : P.Valid)
    (ht : t.Inside positive S.supply) :
    (generalize S.solution ctx t).Shifted P.supply
      (generalize (S.solution.atop P.supply P.solution) ctx' (t.shift P.supply)) := by
  have happly := hS.apply_atop hP ht.2
  have hvars := (hS.valid.within_apply ht.1).1
  have hquantified := h.quantified hS hP ht
  refine ⟨by simp only [vars_generalize, hquantified, List.length_map], fun u => ?_, fun k => ?_⟩
  · simp only [Infer.mem_unknowns_generalize, happly, Ty.mem_unknowns_shift]
    constructor
    · rintro ⟨⟨v, hv, rfl⟩, hkept⟩
      exact ⟨v, ⟨hv, (h.mem_freeUnknowns hS hP).1 hkept⟩, rfl⟩
    · rintro ⟨v, ⟨hv, hkept⟩, rfl⟩
      exact ⟨⟨v, hv, rfl⟩, (h.mem_freeUnknowns hS hP).2 hkept⟩
  · rw [generic_generalize (by simp [happly, Ty.vars_shift, hvars]), generic_generalize (by simp [hvars]),
      happly, hquantified, Ty.shift_subst, Ty.subst_shift]
    refine Ty.subst_congr fun u _ => ?_
    have hindex := idxOf_map_of_injective (add_right_injective P.supply) (ctx.quantified S.solution t) u
    by_cases hu : u ∈ ctx.quantified S.solution t <;> simp [hu, hindex, Nat.add_assoc]

end Contexts

/-! ### Actions in step -/

namespace Infer

variable {α β : Type} {P S S₁ : Session} {m m' : Infer α} {f f' : α → Infer β} {a a' : α}
  {Q : α → α → Session → Prop} {Q' : β → β → Session → Prop} {e : TypeError}

/-- The second action does on top of `P` what the first one does from the session itself. -/
structure Follows (P : Session) (m m' : Infer α) (S : Session) (Q : α → α → Session → Prop) :
    Prop where
  area : (m.run S).2.Area positive
  supply : S.supply ≤ (m.run S).2.supply
  ok : ∀ a S₁, m.run S = (.ok a, S₁) → ∃ a', Q a a' S₁ ∧
    ∀ log, ∃ log', m'.run (S.atop P log) = (.ok a', S₁.atop P log')
  error : ∀ e S₁, m.run S = (.error e, S₁) →
    ∀ log, ∃ log', m'.run (S.atop P log) = (.error (e.shift P.supply), S₁.atop P log')

/-- Types without anything beyond the supply, shifted. -/
def ShiftedTy (n : Nat) (t t' : Ty) (S : Session) : Prop := t.Inside positive S.supply ∧ t' = t.shift n

/-- Schemes without anything beyond the supply, shifted. -/
def ShiftedScheme (n : Nat) (s s' : Scheme) (S : Session) : Prop :=
  s.Inside positive S.supply ∧ s.Shifted n s'

theorem Follows.of_run (h : m.run S = (.ok a, S₁)) (harea : S₁.Area positive)
    (hsupply : S.supply ≤ S₁.supply) (hQ : Q a a' S₁)
    (hrun : ∀ log, ∃ log', m'.run (S.atop P log) = (.ok a', S₁.atop P log')) : Follows P m m' S Q := by
  refine ⟨by rwa [h], by rwa [h], fun b S₂ hb => ?_, fun e S₂ he => ?_⟩
  · rw [h] at hb
    cases hb
    exact ⟨a', hQ, hrun⟩
  · rw [h] at he
    cases he

theorem Follows.of_error (h : m.run S = (.error e, S₁)) (harea : S₁.Area positive)
    (hsupply : S.supply ≤ S₁.supply)
    (hrun : ∀ log, ∃ log', m'.run (S.atop P log) = (.error (e.shift P.supply), S₁.atop P log')) :
    Follows P m m' S Q := by
  refine ⟨by rwa [h], by rwa [h], fun a S₂ ha => ?_, fun e' S₂ he => ?_⟩
  · rw [h] at ha
    cases ha
  · rw [h] at he
    cases he
    exact hrun

theorem Follows.bind (hm : Follows P m m' S Q)
    (hf : ∀ a a' S₁, S₁.Area positive → S.supply ≤ S₁.supply → Q a a' S₁ →
      Follows P (f a) (f' a') S₁ Q') :
    Follows P (m >>= f) (m' >>= f') S Q' := by
  obtain ⟨harea, hsupply, hok, herror⟩ := hm
  cases h : m.run S with
  | mk r S₁ =>
    rw [h] at harea hsupply
    cases r with
    | error e =>
      exact .of_error (run_bind_error h) harea hsupply fun log =>
        (herror e S₁ h log).imp fun _ => run_bind_error
    | ok a =>
      have hrun := run_bind_ok (f := f) h
      obtain ⟨a', hQ, hrun'⟩ := hok a S₁ h
      obtain ⟨harea', hsupply', hok', herror'⟩ := hf a a' S₁ harea hsupply hQ
      refine ⟨by rwa [hrun], by rw [hrun]; exact hsupply.trans hsupply', fun b S₂ hb => ?_,
        fun e S₂ he log => ?_⟩
      · rw [hrun] at hb
        obtain ⟨b', hQ', hrest⟩ := hok' b S₂ hb
        refine ⟨b', hQ', fun log => ?_⟩
        obtain ⟨log₁, h₁⟩ := hrun' log
        obtain ⟨log₂, h₂⟩ := hrest log₁
        exact ⟨log₂, (run_bind_ok h₁).trans h₂⟩
      · rw [hrun] at he
        obtain ⟨log₁, h₁⟩ := hrun' log
        obtain ⟨log₂, h₂⟩ := herror' e S₂ he log₁
        exact ⟨log₂, (run_bind_ok h₁).trans h₂⟩

theorem Follows.run_atop {m m' : Infer Ty} (h : Follows P m m' S (ShiftedTy P.supply)) (log : Log) :
    ∃ log', m'.run (S.atop P log) =
      (((m.run S).1.map (Ty.shift P.supply)).mapError (TypeError.shift P.supply),
        (m.run S).2.atop P log') := by
  obtain ⟨-, -, hok, herror⟩ := h
  cases hrun : m.run S with
  | mk r S₁ =>
    cases r with
    | ok t =>
      obtain ⟨_, ⟨-, rfl⟩, hrun'⟩ := hok t S₁ hrun
      exact hrun' log
    | error e => exact herror e S₁ hrun log

theorem follows_pure (hS : S.Area positive) (hQ : Q a a' S) : Follows P (pure a) (pure a') S Q :=
  .of_run (run_pure a S) hS le_rfl hQ fun log => ⟨log, rfl⟩

theorem follows_throw (hS : S.Area positive) (he : e.shift P.supply = e) :
    Follows P (throw e : Infer α) (throw e) S Q :=
  .of_error rfl hS le_rfl fun log => ⟨log, by rw [he]; rfl⟩

theorem follows_fresh (hS : S.Area positive) : Follows P fresh fresh S (ShiftedTy P.supply) := by
  have hadv := Session.advances_supply (A := positive) hS.valid 1
  refine .of_run (run_fresh S) (hadv.area hS) hadv.grows.supply ⟨?_, rfl⟩ fun log => ⟨log, rfl⟩
  exact Ty.inside_unknown.2 ⟨le_rfl, Nat.succ_pos _⟩

theorem follows_instantiate {s s' : Scheme} (hS : S.Area positive) (hs : s.Inside positive S.supply)
    (h : s.Shifted P.supply s') :
    Follows P (instantiate s) (instantiate s') S (ShiftedTy P.supply) := by
  have hacts : Acts (fun _ _ _ _ => True) [s] (instantiate s) S fun t => [.ofTy t] :=
    acts_instantiate (List.mem_singleton_self s)
  obtain ⟨hadv, -, hresult⟩ := hacts.confined positive hS (List.forall_mem_singleton.2 hs)
  have hrun := run_instantiate s S
  rw [hrun] at hadv
  refine .of_run hrun (hadv.area hS) hadv.grows.supply
    ⟨Scheme.inside_ofTy.1 (List.forall_mem_singleton.1 (hresult _ _ hrun)), rfl⟩ fun log => ⟨log, ?_⟩
  rw [run_instantiate, h.count, ← h.generic]
  simp only [Session.atop, Nat.add_assoc]

theorem follows_unify {a b : Ty} (hS : S.Area positive) (hP : P.Valid) (ha : a.Inside positive S.supply)
    (hb : b.Inside positive S.supply) :
    Follows P (unify a b) (unify (a.shift P.supply) (b.shift P.supply)) S fun _ _ _ => True := by
  obtain ⟨hadv, -⟩ := hS.advances_unify ha hb
  have hrun := run_unify_eq a b S
  have hrun' (log : Log) : ∃ log', (unify (a.shift P.supply) (b.shift P.supply)).run (S.atop P log) =
      (((S.solution.unify a b).1.mapError (Conflict.shift P.supply)).mapError .ofConflict,
        ⟨(S.solution.unify a b).2.atop P.supply P.solution, P.supply + S.supply, log'⟩) := by
    obtain ⟨log', h⟩ := run_unify (a.shift P.supply) (b.shift P.supply) (S.atop P log)
    simp only [Session.atop, hS.unify_atop hP ha hb] at h
    exact ⟨log', h⟩
  rw [hrun] at hadv
  have harea := hadv.area hS
  cases hr : (S.solution.unify a b).1 with
  | ok _ =>
    simp only [hr] at hrun hrun'
    exact .of_run hrun harea hadv.grows.supply trivial hrun'
  | error c =>
    simp only [hr] at hrun hrun'
    refine .of_error hrun harea hadv.grows.supply fun log => ?_
    rw [TypeError.shift_ofConflict]
    exact hrun' log

theorem follows_bindScheme {ctx ctx' : Context} {e : Expr} (hP : P.Valid)
    (hctx : ctx.Shifted P.supply S.supply ctx')
    (h : Follows P (inferExpr ctx e) (inferExpr ctx' e) S (ShiftedTy P.supply)) (x : String) :
    Follows P (bindScheme ctx x e) (bindScheme ctx' x e) S (ShiftedScheme P.supply) := by
  refine h.bind ?_
  rintro t _ S₁ hS₁ h₁ ⟨ht, rfl⟩
  have hadv := Session.advances_note (A := positive) hS₁.valid
    (e := .generalized x (generalize S₁.solution ctx t)) rfl
  have hshifted := shifted_generalize (hctx.mono h₁) hS₁ hP ht
  have hs := inside_generalize hS₁ ctx ht
  exact .of_run rfl (hadv.area hS₁) le_rfl ⟨hs, hshifted⟩ fun log => ⟨_, rfl⟩

end Infer

open Infer

/-! ### The walk over an expression -/

/-- Inferring the expression in contexts with shifted schemes keeps step. -/
def FollowsOn (P : Session) (e : Expr) : Prop :=
  ∀ ⦃ctx ctx' : Context⦄ ⦃S : Session⦄, S.Area positive → ctx.Shifted P.supply S.supply ctx' →
    Follows P (inferExpr ctx e) (inferExpr ctx' e) S (ShiftedTy P.supply)

section Walk

variable {P S : Session} {ctx ctx' : Context} {e e₁ e₂ body : Expr} {items : List Expr} {x : String}

theorem followsOn_var (x : String) : FollowsOn P (.var x) := by
  intro ctx ctx' S hS hctx
  have hrel := hctx.get? x
  generalize hx : ctx.get? x = o, hx' : ctx'.get? x = o' at hrel
  cases hrel with
  | none =>
    rw [inferExpr_unbound hx, inferExpr_unbound hx']
    exact follows_throw hS rfl
  | @some s s' hs =>
    rw [inferExpr_bound hx, inferExpr_bound hx']
    exact follows_instantiate hS (hctx.inside s (List.mem_map_of_mem (Bindings.mem_of_get? hx))) hs

theorem FollowsOn.lam (hbody : FollowsOn P body) : FollowsOn P (.lam x body) := by
  intro ctx ctx' S hS hctx
  unfold inferExpr
  refine (follows_fresh hS).bind ?_
  rintro a _ S₁ hS₁ h₁ ⟨ha, rfl⟩
  refine (hbody hS₁ ((hctx.mono h₁).insert_ofTy ha x)).bind ?_
  rintro r _ S₂ hS₂ h₂ ⟨hr, rfl⟩
  exact follows_pure hS₂ ⟨Ty.inside_fn.2 ⟨ha.mono h₂, hr⟩, rfl⟩

theorem FollowsOn.app (hP : P.Valid) (hf : FollowsOn P e₁) (ha : FollowsOn P e₂) :
    FollowsOn P (.app e₁ e₂) := by
  intro ctx ctx' S hS hctx
  unfold inferExpr
  refine (hf hS hctx).bind ?_
  rintro f _ S₁ hS₁ h₁ ⟨hf, rfl⟩
  refine (ha hS₁ (hctx.mono h₁)).bind ?_
  rintro a _ S₂ hS₂ h₂ ⟨ha, rfl⟩
  refine (follows_fresh hS₂).bind ?_
  rintro r _ S₃ hS₃ h₃ ⟨hr, rfl⟩
  have hfn : Ty.Inside positive S₃.supply (.fn a r) := Ty.inside_fn.2 ⟨ha.mono h₃, hr⟩
  refine (follows_unify hS₃ hP (hf.mono (h₂.trans h₃)) hfn).bind ?_
  rintro _ _ S₄ hS₄ h₄ -
  exact follows_pure hS₄ ⟨hr.mono h₄, rfl⟩

theorem FollowsOn.ite (hP : P.Valid) (hc : FollowsOn P e) (h₁ : FollowsOn P e₁) (h₂ : FollowsOn P e₂) :
    FollowsOn P (.ite e e₁ e₂) := by
  intro ctx ctx' S hS hctx
  unfold inferExpr
  refine (hc hS hctx).bind ?_
  rintro c _ S₁ hS₁ g₁ ⟨hc, rfl⟩
  refine (h₁ hS₁ (hctx.mono g₁)).bind ?_
  rintro t _ S₂ hS₂ g₂ ⟨ht, rfl⟩
  refine (h₂ hS₂ (hctx.mono (g₁.trans g₂))).bind ?_
  rintro r _ S₃ hS₃ g₃ ⟨hr, rfl⟩
  refine (follows_unify hS₃ hP (hc.mono (g₂.trans g₃)) Ty.inside_boolean).bind ?_
  rintro _ _ S₄ hS₄ g₄ -
  have g₃₄ := g₃.trans g₄
  refine (follows_unify hS₄ hP (ht.mono g₃₄) (hr.mono g₄)).bind ?_
  rintro _ _ S₅ hS₅ g₅ -
  exact follows_pure hS₅ ⟨ht.mono (g₃₄.trans g₅), rfl⟩

theorem FollowsOn.letRec (hP : P.Valid) (hbound : FollowsOn P e) (hbody : FollowsOn P body) :
    FollowsOn P (.letIn true x e body) := by
  intro ctx ctx' S hS hctx
  unfold inferExpr
  refine (follows_fresh hS).bind ?_
  rintro own _ S₁ hS₁ h₁ ⟨hown, rfl⟩
  have hinner := (hctx.mono h₁).insert_ofTy hown x
  refine (hbound hS₁ hinner).bind ?_
  rintro t _ S₂ hS₂ h₂ ⟨ht, rfl⟩
  refine (follows_unify hS₂ hP (hown.mono h₂) ht).bind ?_
  rintro _ _ S₃ hS₃ h₃ -
  exact hbody hS₃ (hinner.mono (h₂.trans h₃))

theorem FollowsOn.letPoly (hP : P.Valid) (hbound : FollowsOn P e) (hbody : FollowsOn P body) :
    FollowsOn P (.letIn false x e body) := by
  intro ctx ctx' S hS hctx
  rw [inferExpr_letPoly, inferExpr_letPoly]
  refine (follows_bindScheme hP hctx (hbound hS hctx) x).bind ?_
  rintro s s' S₁ hS₁ h₁ ⟨hs, hss'⟩
  exact hbody hS₁ ((hctx.mono h₁).insert hs hss' x)

theorem follows_inferItems {element : Ty} (hP : P.Valid) (hitems : ∀ e ∈ items, FollowsOn P e)
    (hS : S.Area positive) (hctx : ctx.Shifted P.supply S.supply ctx')
    (helement : element.Inside positive S.supply) :
    Follows P (inferItems ctx element items) (inferItems ctx' (element.shift P.supply) items) S
      fun _ _ _ => True := by
  induction items generalizing S with
  | nil =>
    unfold inferItems
    exact follows_pure hS trivial
  | cons item items ih =>
    obtain ⟨hitem, hitems⟩ := List.forall_mem_cons.1 hitems
    unfold inferItems
    refine (hitem hS hctx).bind ?_
    rintro t _ S₁ hS₁ h₁ ⟨ht, rfl⟩
    refine (follows_unify hS₁ hP (helement.mono h₁) ht).bind ?_
    rintro _ _ S₂ hS₂ h₂ -
    have h₁₂ := h₁.trans h₂
    exact ih hitems hS₂ (hctx.mono h₁₂) (helement.mono h₁₂)

theorem FollowsOn.list (hP : P.Valid) (hitems : ∀ e ∈ items, FollowsOn P e) :
    FollowsOn P (.list items) := by
  intro ctx ctx' S hS hctx
  unfold inferExpr
  refine (follows_fresh hS).bind ?_
  rintro a _ S₁ hS₁ h₁ ⟨ha, rfl⟩
  refine (follows_inferItems hP hitems hS₁ (hctx.mono h₁) ha).bind ?_
  rintro _ _ S₂ hS₂ h₂ -
  exact follows_pure hS₂ ⟨Ty.inside_list.2 (ha.mono h₂), rfl⟩

theorem followsOn (hP : P.Valid) (e : Expr) : FollowsOn P e := by
  induction e using Expr.induct with
  | number n =>
    intro ctx ctx' S hS _
    unfold inferExpr
    exact follows_pure hS ⟨Ty.inside_number, rfl⟩
  | boolean b =>
    intro ctx ctx' S hS _
    unfold inferExpr
    exact follows_pure hS ⟨Ty.inside_boolean, rfl⟩
  | var x => exact followsOn_var x
  | lam x body ih => exact ih.lam
  | app e₁ e₂ ih₁ ih₂ => exact ih₁.app hP ih₂
  | ite e e₁ e₂ ih ih₁ ih₂ => exact ih.ite hP ih₁ ih₂
  | letIn recursive x e body ih ihbody =>
    cases recursive with
    | true => exact ih.letRec hP ihbody
    | false => exact ih.letPoly hP ihbody
  | list items ih => exact .list hP ih
  | prim op | closure =>
    intro ctx ctx' S hS _
    unfold inferExpr
    exact follows_throw hS rfl

theorem follows_infer (hP : P.Valid) (e : Expr) (hS : S.Area positive)
    (hctx : ctx.Shifted P.supply S.supply ctx') :
    Follows P (infer ctx e) (infer ctx' e) S (ShiftedTy P.supply) := by
  unfold infer
  refine (followsOn hP e hS hctx).bind ?_
  rintro t _ S₁ hS₁ _ ⟨ht, rfl⟩
  exact .of_run rfl hS₁ le_rfl ⟨hS₁.inside_apply ht, hS₁.apply_atop hP ht.2⟩ fun log => ⟨log, rfl⟩

end Walk

/-! ### After any calls -/

/-- The call brings nothing that is left to solve, and no variable outside its scheme. -/
def Call.Closed (c : Call) : Prop :=
  ∀ s ∈ c.held, s.body.unknowns = [] ∧ ∀ v ∈ s.body.vars, v ∈ s.vars

theorem Session.admits_of_closed {calls : List Call} (h : ∀ c ∈ calls, c.Closed) (S : Session) :
    S.Admits calls := by
  induction calls generalizing S with
  | nil => trivial
  | cons c calls ih =>
    obtain ⟨hc, hcalls⟩ := List.forall_mem_cons.1 h
    exact ⟨fun s hs => Scheme.inside_of_closed (hc s hs).1 (hc s hs).2, ih hcalls _⟩

/-- After any closed calls, failed ones among them, a session infers in a closed context what a new one does,
its type or its error, with the supply added to every unknown. What it solves is that of the new session,
shifted in the same way; the entries from before are kept, and the supply goes on from where it was. -/
theorem infer_after_calls (calls : List Call) (hcalls : ∀ c ∈ calls, c.Closed) (ctx : Context)
    (hctx : ctx.Closed) (e : Expr) :
    let P := Session.new.performAll calls
    let r := (infer ctx e).run .new
    let r' := (infer ctx e).run P
    r'.1 = (r.1.map (Ty.shift P.supply)).mapError (TypeError.shift P.supply) ∧
      r'.2.solution = r.2.solution.shift P.supply ++ P.solution ∧
      r'.2.solution.Extends P.solution ∧ r'.2.supply = P.supply + r.2.supply := by
  intro P r r'
  obtain ⟨hsound, -⟩ := Session.sound_new.performAll (Session.admits_of_closed hcalls .new)
  have hconfined : Confined positive (infer ctx e) P fun t => [.ofTy t] :=
    confined_infer hsound.area (hctx.shifted 0 P.supply).inside
  have hfollows := follows_infer hsound.valid e Session.sound_new.area (hctx.shifted P.supply 0)
  obtain ⟨log, hrun⟩ := hfollows.run_atop P.log
  rw [Session.atop_new] at hrun
  refine ⟨congrArg Prod.fst hrun, ?_, hconfined.advances.grows.solution, ?_⟩
  · exact congrArg (fun p => p.2.solution) hrun
  · exact congrArg (fun p => p.2.supply) hrun

/-- A call that fails leaves unknowns 1 and 2 solved, and has given out 4. Another call then generalizes one
more unknown, and instantiates it, as in a new session. -/
theorem infer_after_calls_failed :
    let both : Expr := .lam "f" (.list [.app (.var "f") (.number 1), .app (.var "f") (.boolean true)])
    let e : Expr := .letIn false "single" (.lam "x" (.list [.var "x"]))
      (.lam "y" (.app (.var "single") (.var "y")))
    let P := Session.new.performAll [.infer [] both]
    ((infer [] both).run .new).1 = .error (.mismatch .number .boolean) ∧
      ((infer [] e).run .new).1 = .ok (.fn (.unknown 3) (.list (.unknown 3))) ∧
      ((infer [] e).run P).1 = .ok (.fn (.unknown 7) (.list (.unknown 7))) ∧
      ((infer [] e).run P).2.solution = ((infer [] e).run .new).2.solution.shift 4 ++
        [(2, .unknown 3), (1, .fn .number (.unknown 3))] := by
  intro both e P
  have hsupply : P.supply = 4 := by
    dsimp only [P, both]
    cbv
  have hsolution : P.solution = [(2, .unknown 3), (1, .fn .number (.unknown 3))] := by
    dsimp only [P, both]
    cbv
  have hnew : ((infer [] e).run .new).1 = .ok (.fn (.unknown 3) (.list (.unknown 3))) := by
    dsimp only [e]
    cbv
  have hclosed : ∀ c ∈ [Call.infer [] both], c.Closed := by simp [Call.Closed, Call.held, Context.schemes]
  have hctx : Context.Closed [] := by simp [Context.Closed]
  obtain ⟨hresult, hentries, -, -⟩ := infer_after_calls [.infer [] both] hclosed [] hctx e
  refine ⟨by cbv, hnew, ?_, ?_⟩
  · rw [hresult, hnew, hsupply]
    rfl
  · rw [hentries, hsupply, hsolution]

end LetPoly
