import LetPoly.Proofs.Area

/-! What a run of inference touches. An action holds the schemes of its context and the types it has
been given; wherever these are inside an area, the run stays in it. So an unknown that a `let` has
generalized on the way, which nothing older reaches, is left alone by all that follows. Both are fields
of one judgement with one rule for a bind (`Infer.Acts.bind`), and hold of every expression
(`actsOn`). -/

namespace LetPoly

/-- The schemes in a context. -/
def Context.schemes (ctx : Context) : List Scheme := ctx.map Prod.snd

namespace Infer

variable {α β : Type} {m : Infer α} {f : α → Infer β} {S S₁ : Session} {A : Set Nat}
  {R : α → List Scheme} {R' : β → List Scheme} {held held' : List Scheme}

/-- The run from the session stays in the area, also with the types of its error and with the schemes
in its result. -/
structure Confined (A : Set Nat) (m : Infer α) (S : Session) (R : α → List Scheme) : Prop where
  advances : S.Advances A (m.run S).2
  error : ∀ e S', m.run S = (.error e, S') → ∀ t ∈ e.types, t.Inside A S'.supply
  result : ∀ a S', m.run S = (.ok a, S') → ∀ s ∈ R a, s.Inside A S'.supply

/-- The run adds to the log that `x` is given the scheme `s`, when the log is `before`. -/
def Notes (m : Infer α) (S : Session) (before : Log) (x : String) (s : Scheme) : Prop :=
  S.log <:+ before ∧ .generalized x s :: before <:+ (m.run S).2.log

/-- The action speaks only of the unknowns in the schemes it holds. An unknown that is generalized in
the run has its origin there, and is sealed off from what there was before and from the result. -/
structure Acts (origin : Log → String → Scheme → Nat → Prop) (held : List Scheme) (m : Infer α)
    (S : Session) (R : α → List Scheme) : Prop where
  confined : ∀ A, S.Area A → (∀ s ∈ held, s.Inside A S.supply) → Confined A m S R
  seals : S.Valid → (∀ s ∈ held, s.Within S.supply) → ∀ before x s k, Notes m S before x s →
    generalizedName k ∈ s.vars → origin before x s k ∧ S.Seals (m.run S).2 k ∧
      ∀ a S', m.run S = (.ok a, S') → ∀ r ∈ R a, ∀ u ∈ r.body.unknowns, u ∈ S'.clearOf k

theorem run_bind_ok {a : α} (h : m.run S = (.ok a, S₁)) : (m >>= f).run S = (f a).run S₁ := by
  rw [run_bind, h]

theorem run_bind_error {e : TypeError} (h : m.run S = (.error e, S₁)) :
    (m >>= f).run S = (.error e, S₁) := by
  rw [run_bind, h]

theorem Confined.of_run {a : α} {S' : Session} (h : m.run S = (.ok a, S')) (hadv : S.Advances A S')
    (hR : ∀ s ∈ R a, s.Inside A S'.supply) : Confined A m S R := by
  refine ⟨by rwa [h], fun e S₁ he => ?_, fun b S₁ hb => ?_⟩
  · rw [h] at he
    cases he
  · rw [h] at hb
    cases hb
    exact hR

theorem Confined.bind (hm : Confined A m S R)
    (hf : ∀ a S₁, m.run S = (.ok a, S₁) → Confined A (f a) S₁ R') : Confined A (m >>= f) S R' := by
  have hadv := hm.advances
  cases h : m.run S with
  | mk r S₁ =>
    rw [h] at hadv
    cases r with
    | error e =>
      refine ⟨by rwa [run_bind_error h], fun e' S' he => ?_, fun b S' hb => ?_⟩
      · rw [run_bind_error h] at he
        exact hm.error e' S' (h.trans (by cases he; rfl))
      · rw [run_bind_error h] at hb
        cases hb
    | ok a =>
      obtain ⟨hadv', herror, hresult⟩ := hf a S₁ h
      refine ⟨?_, fun e S' he => herror e S' (by rwa [run_bind_ok h] at he),
        fun b S' hb => hresult b S' (by rwa [run_bind_ok h] at hb)⟩
      rw [run_bind_ok h]
      exact hadv'.trans hadv

/-- A note of a bind is one of its first action, or of the second from where the first has ended. -/
theorem Notes.of_bind {a : α} {before : Log} {x : String} {s : Scheme} (hrun : m.run S = (.ok a, S₁))
    (hlog : S₁.log <:+ ((f a).run S₁).2.log) (h : Notes (m >>= f) S before x s) :
    Notes m S before x s ∨ Notes (f a) S₁ before x s := by
  obtain ⟨hS, hnote⟩ := h
  rw [run_bind_ok hrun] at hnote
  rcases List.suffix_or_suffix_of_suffix hlog hnote with hlater | hfirst
  · rcases List.suffix_cons_iff.1 hlater with heq | hlater
    · exact .inl ⟨hS, by rw [hrun, heq]⟩
    · exact .inr ⟨hlater, hnote⟩
  · exact .inl ⟨hS, by rwa [hrun]⟩

section Acts

variable {origin origin' : Log → String → Scheme → Nat → Prop}

theorem Acts.weaken (h : Acts origin held m S R) (hheld : held ⊆ held')
    (horigin : ∀ before x s k, origin before x s k → origin' before x s k) :
    Acts origin' held' m S R := by
  refine ⟨fun A hA hin => h.confined A hA fun s hs => hin s (hheld hs), ?_⟩
  intro hS hin before x s k hnote hk
  obtain ⟨horig, hseals⟩ := h.seals hS (fun s hs => hin s (hheld hs)) before x s k hnote hk
  exact ⟨horigin before x s k horig, hseals⟩

/-- What the second action holds is what the first returns, and what it has held itself. -/
theorem Acts.bind (hm : Acts origin held m S R)
    (hf : ∀ a S₁, m.run S = (.ok a, S₁) → Acts origin (R a ++ held) (f a) S₁ R') :
    Acts origin held (m >>= f) S R' := by
  have hconfined : ∀ A, S.Area A → (∀ s ∈ held, s.Inside A S.supply) → ∀ a S₁,
      m.run S = (.ok a, S₁) → S.Advances A S₁ ∧ (∀ s ∈ R a ++ held, s.Inside A S₁.supply) ∧
        Confined A (f a) S₁ R' := by
    intro A hA hin a S₁ hrun
    obtain ⟨hadv, -, hresult⟩ := hm.confined A hA hin
    rw [hrun] at hadv
    have hin' : ∀ s ∈ R a ++ held, s.Inside A S₁.supply :=
      List.forall_mem_append.2 ⟨hresult a S₁ hrun, fun s hs => (hin s hs).mono hadv.grows.supply⟩
    exact ⟨hadv, hin', (hf a S₁ hrun).confined A (hadv.area hA) hin'⟩
  constructor
  · intro A hA hin
    exact (hm.confined A hA hin).bind fun a S₁ hrun => (hconfined A hA hin a S₁ hrun).2.2
  · intro hS hin before x s k hnote hk
    have huniv := fun s hs => Scheme.inside_univ (hin s hs)
    cases hrun : m.run S with
    | mk r S₁ =>
      cases r with
      | error e =>
        have hnote' : Notes m S before x s := by
          rw [Notes, run_bind_error hrun] at hnote
          rwa [Notes, hrun]
        obtain ⟨horig, hseals, -⟩ := hm.seals hS hin before x s k hnote' hk
        rw [hrun] at hseals
        rw [run_bind_error hrun]
        exact ⟨horig, hseals, fun b S' hb => by cases hb⟩
      | ok a =>
        obtain ⟨hadv, hin', hcont⟩ := hconfined _ (Session.area_univ hS) huniv a S₁ hrun
        have hS₁ := hadv.grows.valid
        rw [run_bind_ok hrun]
        rcases hnote.of_bind hrun hcont.advances.log with hfirst | hsecond
        · -- generalized before: the rest of the run is inside what does not reach it
          obtain ⟨horig, hseals, hresult⟩ := hm.seals hS hin before x s k hfirst hk
          rw [hrun] at hseals
          have hclear : ∀ s ∈ R a ++ held, s.Inside (S₁.clearOf k) S₁.supply := by
            refine fun s hs => ⟨(hin' s hs).1, ?_⟩
            rcases List.mem_append.1 hs with hs | hs
            · exact hresult a S₁ hrun s hs
            · exact fun u hu => hseals.clear u ((hin s hs).1 u hu)
          obtain ⟨hadv', -, hrest⟩ := (hf a S₁ hrun).confined _
            (Session.area_clearOf hS₁ hseals.given) hclear
          refine ⟨horig, hseals.advances hS₁ hadv', fun b S' hb r hr u hu => ?_⟩
          rw [hb] at hadv'
          exact hseals.clearOf_mono hS₁ hadv' ((hrest b S' hb r hr).2 u hu)
        · obtain ⟨horig, hseals, hresult⟩ :=
            (hf a S₁ hrun).seals hS₁ (fun s hs => (hin' s hs).1) before x s k hsecond hk
          refine ⟨horig, ⟨hadv.grows.supply.trans_lt hseals.after, hseals.given, hseals.unsolved, ?_⟩,
            hresult⟩
          exact fun u hu => hseals.clear u (hu.trans hadv.grows.supply)

/-! ### Single actions -/

/-- An action that generalizes nothing has nothing to seal. -/
theorem acts_of_quiet (new : List Event) (hlog : (m.run S).2.log = new ++ S.log)
    (hnew : ∀ e ∈ new, ∀ x s, e ≠ .generalized x s)
    (h : ∀ A, S.Area A → (∀ s ∈ held, s.Inside A S.supply) → Confined A m S R) :
    Acts origin held m S R := by
  refine ⟨h, fun _ _ before x s k hnote _ => ?_⟩
  obtain ⟨⟨between, rfl⟩, post, hpost⟩ := hnote
  have happend : (post ++ .generalized x s :: between) ++ S.log = new ++ S.log := by
    rw [← hlog, ← hpost, List.append_assoc, List.cons_append]
  have heq := List.append_cancel_right happend
  exact absurd rfl (hnew (.generalized x s) (by simp [← heq]) x s)

theorem acts_pure {a : α} (h : ∀ A n, (∀ s ∈ held, s.Inside A n) → ∀ r ∈ R a, r.Inside A n) :
    Acts origin held (pure a) S R :=
  acts_of_quiet [] (List.nil_append S.log).symm (by simp) fun A hA hin =>
    .of_run (run_pure a S) (.refl hA.valid) (h A S.supply hin)

theorem acts_throw {e : TypeError} (he : e.types = []) : Acts origin held (throw e) S R := by
  refine acts_of_quiet [] (List.nil_append S.log).symm (by simp) fun A hA _ => ?_
  refine ⟨.refl hA.valid, fun e' S' h => ?_, fun a S' h => by cases h⟩
  cases h
  simp [he]

theorem acts_fresh : Acts origin held fresh S fun t => [.ofTy t] := by
  refine acts_of_quiet [] (List.nil_append S.log).symm (by simp) fun A hA _ => ?_
  refine .of_run (run_fresh S) (Session.advances_supply hA.valid 1) (List.forall_mem_singleton.2 ?_)
  exact Scheme.inside_ofTy.2 (Ty.inside_unknown.2 ⟨le_rfl, hA.fresh _ (Nat.lt_succ_self _)⟩)

theorem acts_instantiate {s : Scheme} (hs : s ∈ held) :
    Acts origin held (instantiate s) S fun t => [.ofTy t] := by
  have hrun := run_instantiate s S
  refine acts_of_quiet [] (by rw [hrun]; rfl) (by simp) fun A hA hin => ?_
  refine .of_run hrun (Session.advances_supply hA.valid _) (List.forall_mem_singleton.2 ?_)
  refine Scheme.inside_ofTy.2 ⟨within_generic (hin s hs).1, fun u hu => ?_⟩
  rcases Ty.mem_unknowns_inst.1 hu with ⟨v, hv, hu⟩ | ⟨v, -, hu⟩
  · exact List.mem_singleton.1 hu ▸ (hin s hs).2 v hv
  · split at hu
    · exact hA.fresh u (by simp only [Ty.unknowns, List.mem_singleton] at hu; omega)
    · cases hu

theorem acts_unify {a b : Ty} (hab : ∀ A n, (∀ s ∈ held, s.Inside A n) → a.Inside A n ∧ b.Inside A n) :
    Acts origin held (unify a b) S fun _ => [] := by
  have hrun := run_unify_eq a b S
  refine acts_of_quiet _ (by rw [hrun]) (by simp) fun A hA hin => ?_
  obtain ⟨ha, hb⟩ := hab A S.supply hin
  obtain ⟨hadv, hconflict⟩ := hA.advances_unify ha hb
  refine ⟨hadv, fun e S' h => ?_, by simp⟩
  rw [hrun, Solution.unify] at h
  cases hc : (S.solution.unification a b).conflict with
  | none => rw [hc] at h; cases h
  | some c =>
    rw [hc] at h
    cases h
    rw [TypeError.types_ofConflict]
    exact hconflict c hc

end Acts

/-! ### A polymorphic `let` -/

/-- What a `let` does for its name. -/
def bindScheme (ctx : Context) (x : String) (bound : Expr) : Infer Scheme := do
  let t ← inferExpr ctx bound
  let scheme := generalize (← get).solution ctx t
  note (.generalized x scheme)
  return scheme

theorem inferExpr_letPoly (ctx : Context) (x : String) (bound body : Expr) :
    inferExpr ctx (.letIn false x bound body) =
      bindScheme ctx x bound >>= fun s => inferExpr (ctx.insert x s) body := by
  rw [inferExpr]
  simp [bindScheme]

theorem run_bindScheme (ctx : Context) (x : String) (bound : Expr) (S : Session) :
    (bindScheme ctx x bound).run S =
      match (inferExpr ctx bound).run S with
      | (.ok t, S₁) =>
        let s := generalize S₁.solution ctx t
        (.ok s, { S₁ with log := .generalized x s :: S₁.log })
      | (.error e, S₁) => (.error e, S₁) := by
  rw [bindScheme, run_bind]
  cases (inferExpr ctx bound).run S with
  | mk r S₁ => cases r <;> rfl

theorem mem_vars_generalize {s : Solution} {ctx : Context} {t : Ty} {k : Nat} :
    generalizedName k ∈ (generalize s ctx t).vars ↔
      k ∈ (s.apply t).unknowns ∧ k ∉ ctx.freeUnknowns s := by
  simp [generalize, Ty.freeUnknowns, mem_ascending, generalizedName_injective.eq_iff]

theorem mem_unknowns_generalize {s : Solution} {ctx : Context} {t : Ty} {u : Nat} :
    u ∈ (generalize s ctx t).body.unknowns ↔ u ∈ (s.apply t).unknowns ∧ u ∈ ctx.freeUnknowns s := by
  constructor
  · intro hu
    obtain ⟨v, hv, hu⟩ := Ty.mem_unknowns_subst.1 hu
    split at hu
    · cases hu
    · next hkept =>
      rw [Ty.unknowns, List.mem_singleton] at hu
      subst hu
      simp only [Ty.freeUnknowns, List.mem_filter, mem_ascending, hv, true_and, decide_eq_true_eq,
        not_not] at hkept
      exact ⟨hv, hkept⟩
  · rintro ⟨hu, hkept⟩
    refine Ty.mem_unknowns_subst.2 ⟨u, hu, ?_⟩
    rw [if_neg (by simp [hkept])]
    exact List.mem_singleton_self u

theorem inside_generalize {t : Ty} (hA : S.Area A) (ctx : Context) (ht : t.Inside A S.supply) :
    (generalize S.solution ctx t).Inside A S.supply :=
  ⟨Session.within_generalize hA.valid ctx ht.1,
    fun _ hu => hA.mem_of_apply ht.2 (mem_unknowns_generalize.1 hu).1⟩

section BindScheme

variable {origin : Log → String → Scheme → Nat → Prop} {ctx : Context} {x : String} {bound : Expr}

theorem confined_bindScheme (hA : S.Area A)
    (h : Confined A (inferExpr ctx bound) S fun t => [.ofTy t]) :
    Confined A (bindScheme ctx x bound) S fun s => [s] := by
  obtain ⟨hadv, herror, hresult⟩ := h
  have hrun := run_bindScheme ctx x bound S
  cases hb : (inferExpr ctx bound).run S with
  | mk r S₁ =>
    rw [hb] at hadv hrun
    cases r with
    | error e =>
      refine ⟨by rwa [hrun], fun e' S' h => ?_, fun s S' h => ?_⟩
      · rw [hrun] at h
        cases h
        exact herror e S₁ hb
      · rw [hrun] at h
        cases h
    | ok t =>
      have ht := Scheme.inside_ofTy.1 (List.forall_mem_singleton.1 (hresult t S₁ hb))
      refine .of_run hrun ((Session.advances_note hadv.grows.valid rfl).trans hadv) ?_
      exact List.forall_mem_singleton.2 (inside_generalize (hadv.area hA) ctx ht)

/-- What a `let` generalizes has its origin there: it is given out while the bound expression is
inferred, as that run speaks of what the context depends on otherwise. -/
theorem seals_bindScheme {t : Ty} {k : Nat} (hS : S.Valid) (hctx : ∀ s ∈ ctx.schemes, s.Within S.supply)
    (h : Acts origin ctx.schemes (inferExpr ctx bound) S fun t => [.ofTy t])
    (hb : (inferExpr ctx bound).run S = (.ok t, S₁))
    (hk : generalizedName k ∈ (generalize S₁.solution ctx t).vars) : S.Seals S₁ k := by
  have hin : ∀ s ∈ ctx.schemes, s.Inside (S.dependents ctx) S.supply := by
    intro s hs
    obtain ⟨b, hb, rfl⟩ := List.mem_map.1 hs
    exact ⟨hctx _ hs, Session.inside_dependents hb⟩
  obtain ⟨hadv, -, hresult⟩ := h.confined _ (Session.area_dependents hS ctx) hin
  rw [hb] at hadv
  have ht := Scheme.inside_ofTy.1 (List.forall_mem_singleton.1 (hresult t S₁ hb))
  obtain ⟨hmem, hkept⟩ := mem_vars_generalize.1 hk
  exact Session.seals_of_advances hS hadv ht hmem hkept

theorem acts_bindScheme (h : Acts origin ctx.schemes (inferExpr ctx bound) S fun t => [.ofTy t])
    (horigin : ∀ t S₁ k, (inferExpr ctx bound).run S = (.ok t, S₁) → S.Seals S₁ k →
      origin S₁.log x (generalize S₁.solution ctx t) k) :
    Acts origin ctx.schemes (bindScheme ctx x bound) S fun s => [s] := by
  refine ⟨fun A hA hin => confined_bindScheme hA (h.confined A hA hin), ?_⟩
  rintro hS hctx before y s k ⟨hbefore, hnote⟩ hk
  have hrun := run_bindScheme ctx x bound S
  have hadv := (h.confined _ (Session.area_univ hS) fun s hs => Scheme.inside_univ (hctx s hs)).advances
  cases hb : (inferExpr ctx bound).run S with
  | mk r S₁ =>
    rw [hb] at hrun hadv
    cases r with
    | error e =>
      rw [hrun] at hnote ⊢
      obtain ⟨horig, hseals, -⟩ := h.seals hS hctx before y s k ⟨hbefore, by rwa [hb]⟩ hk
      rw [hb] at hseals
      exact ⟨horig, hseals, fun _ _ h => by cases h⟩
    | ok t =>
      rw [hrun] at hnote ⊢
      have hclear : ∀ u ∈ (generalize S₁.solution ctx t).body.unknowns, u ≠ k → u ∈ S₁.clearOf k := by
        intro u hu hne
        have hunsolved := (Solution.mem_unknowns_apply hadv.grows.valid.acyclic
          (mem_unknowns_generalize.1 hu).1).1
        simpa [Session.clearOf, Solution.apply_unsolved hunsolved, Ty.unknowns] using hne.symm
      rcases List.suffix_cons_iff.1 hnote with hnew | hold
      · cases hnew
        have hseals := seals_bindScheme hS hctx h hb hk
        refine ⟨horigin t S₁ k hb hseals, hseals.of_solution_eq rfl rfl, ?_⟩
        rintro _ _ ⟨⟩ r hr u hu
        rw [List.mem_singleton.1 hr] at hu
        refine hclear u hu ?_
        rintro rfl
        exact (mem_vars_generalize.1 hk).2 (mem_unknowns_generalize.1 hu).2
      · obtain ⟨horig, hseals, hresult⟩ := h.seals hS hctx before y s k ⟨hbefore, by rwa [hb]⟩ hk
        rw [hb] at hseals
        refine ⟨horig, hseals.of_solution_eq rfl rfl, ?_⟩
        rintro _ _ ⟨⟩ r hr u hu
        rw [List.mem_singleton.1 hr] at hu
        refine hclear u hu ?_
        rintro rfl
        obtain ⟨v, hv, hreach⟩ := (S₁.mem_apply_iff t u).1 (mem_unknowns_generalize.1 hu).1
        exact hreach (hresult t S₁ hb _ (List.mem_singleton_self _) v hv)

end BindScheme

end Infer
end LetPoly
