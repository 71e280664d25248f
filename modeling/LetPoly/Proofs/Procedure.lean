import LetPoly.Proofs.Recording

/-! Unification as a recursive procedure on one solution: both types are resolved at every call, and
a call on parts works under what the calls before it have left. `Unifies` is the finite tree of such
calls. On a solution without a cycle every pair of types has one, its result is that of
`Solution.unify` (`unifies_iff`), and what it leaves is most general. -/

namespace LetPoly.Solution

variable {s s' : Solution} {a b t : Ty} {u : Nat} {o : Except Conflict Unit} {θ : Nat → Ty}

/-! ### The equations of the recursion -/

/-- Leaves the bindings of a run in the solution, whether it has met a conflict or not. -/
def record (s : Solution) (r : Unification) : Except Conflict Unit × Solution :=
  (match r.conflict with
    | none => .ok ()
    | some c => .error c, s.extend r.bindings)

theorem unify_eq_record (s : Solution) (a b : Ty) :
    s.unify a b = s.record (Equations.unify [(s.apply a, s.apply b)]) := rfl

theorem record_andThen {r : Unification} (h : r.conflict = none) (k : Unification) :
    s.record (r.andThen k) = (s.extend r.bindings).record k := by
  rw [Unification.andThen_of_ok h, record, record]
  simp only [Unification.bindings, List.filterMap_append, extend_append]

theorem unify_of_apply_eq (h : s.apply a = s.apply b) : s.unify a b = (.ok (), s) := by
  rw [unify_eq_record, h, Equations.unify_equal, Equations.unify_nil]
  rfl

theorem unify_of_orient (hne : s.apply a ≠ s.apply b)
    (ho : (s.apply a).orient? (s.apply b) = some (u, t)) : s.unify a b = s.solve u t := by
  by_cases hu : u ∈ t.unknowns
  · rw [unify_eq_record, Equations.unify_occurs hne ho hu, solve, if_pos hu]
    rfl
  · rw [unify_eq_record, Equations.unify_solve hne ho hu, solve, if_neg hu]
    simp only [Equations.replace, List.map_nil, Equations.unify_nil]
    rfl

theorem unify_of_clash (hne : s.apply a ≠ s.apply b) (ho : (s.apply a).orient? (s.apply b) = none)
    (hc : (s.apply a).components? (s.apply b) = none) :
    s.unify a b = (.error (.mismatch (s.apply a) (s.apply b)), s) := by
  rw [unify_eq_record, Equations.unify_clash hne ho hc]
  rfl

theorem unify_of_lists (hs : s.Acyclic) {e₁ e₂ : Ty} (ha : s.apply a = .list e₁)
    (hb : s.apply b = .list e₂) : s.unify a b = s.unify e₁ e₂ := by
  have he₁ : s.apply e₁ = e₁ := Ty.list.inj (by rw [← apply_list, ← ha, apply_apply hs, ha])
  have he₂ : s.apply e₂ = e₂ := Ty.list.inj (by rw [← apply_list, ← hb, apply_apply hs, hb])
  by_cases hne : e₁ = e₂
  · rw [unify_of_apply_eq (by rw [ha, hb, hne]), unify_of_apply_eq (by rw [hne])]
  · rw [unify_eq_record, ha, hb, Equations.unify_split (mt Ty.list.inj hne) rfl rfl,
      unify_eq_record, he₁, he₂]
    rfl

/-- The results are unified under what the arguments leave, if these meet no conflict. -/
theorem unify_of_fns (hs : s.Acyclic) {a₁ r₁ a₂ r₂ : Ty} (ha : s.apply a = .fn a₁ r₁)
    (hb : s.apply b = .fn a₂ r₂) :
    s.unify a b =
      match s.unify a₁ a₂ with
      | (.ok (), s₁) => s₁.unify r₁ r₂
      | (.error c, s₁) => (.error c, s₁) := by
  obtain ⟨ha₁, hr₁⟩ := Ty.fn.inj
    (show Ty.fn (s.apply a₁) (s.apply r₁) = .fn a₁ r₁ by rw [← apply_fn, ← ha, apply_apply hs])
  obtain ⟨ha₂, hr₂⟩ := Ty.fn.inj
    (show Ty.fn (s.apply a₂) (s.apply r₂) = .fn a₂ r₂ by rw [← apply_fn, ← hb, apply_apply hs])
  by_cases hne : Ty.fn a₁ r₁ = .fn a₂ r₂
  · obtain ⟨rfl, rfl⟩ := Ty.fn.inj hne
    rw [unify_of_apply_eq (by rw [ha, hb]), unify_of_apply_eq rfl]
    exact (unify_of_apply_eq rfl).symm
  have hfits := fits_unification hs a₁ a₂
  rw [unification, Ty.unify, ha₁, ha₂] at hfits
  have hrun : s.unify a b = s.record ((Equations.unify [(a₁, a₂)]).andThen
      (Equations.replaceAll (Equations.unify [(a₁, a₂)]).bindings [(r₁, r₂)]).unify) := by
    rw [unify_eq_record, ha, hb, Equations.unify_split hne rfl rfl, ← Equations.unify_append]
    rfl
  rw [hrun, unify_eq_record s a₁ a₂, ha₁, ha₂]
  cases hc : (Equations.unify [(a₁, a₂)]).conflict with
  | some c =>
    rw [Unification.andThen_of_conflict hc, record, hc]
  | none =>
    rw [record_andThen hc, record.eq_def s, hc]
    simp only
    rw [unify_eq_record, apply_extend hs hfits, apply_extend hs hfits, hr₁, hr₂]
    rfl

/-! ### What a call leaves -/

theorem acyclic_unify (hs : s.Acyclic) (a b : Ty) : (s.unify a b).2.Acyclic :=
  acyclic_extend hs (fits_unification hs a b)

theorem extends_unify (hs : s.Acyclic) (a b : Ty) : (s.unify a b).2.Extends s :=
  extends_extend (fits_unification hs a b)

theorem unify_fst_eq_ok : (s.unify a b).1 = .ok () ↔ (s.unification a b).conflict = none := by
  rw [unify]
  cases (s.unification a b).conflict <;> simp

theorem unify_fst_eq_error {c : Conflict} :
    (s.unify a b).1 = .error c ↔ (s.unification a b).conflict = some c := by
  rw [unify]
  cases (s.unification a b).conflict <;> simp

/-- A call only puts its bindings into what was resolved before. -/
theorem apply_unify (hs : s.Acyclic) (a b t : Ty) :
    (s.unify a b).2.apply t = (s.apply t).replaceAll (s.unification a b).bindings :=
  apply_extend hs (fits_unification hs a b) t

theorem solved_apply (hs : s.Acyclic) (hθ : s.Compatible θ) :
    Equations.Solved θ [(s.apply a, s.apply b)] ↔ a.subst θ = b.subst θ := by
  rw [Equations.solved_cons, hθ.subst_apply hs, hθ.subst_apply hs]
  exact and_iff_left Equations.solved_nil

/-- A substitution that makes the types equal rules out a conflict and agrees with what is left. -/
theorem unify_of_unifier (hs : s.Acyclic) (hθ : s.Compatible θ) (h : a.subst θ = b.subst θ) :
    (s.unify a b).1 = .ok () ∧ (s.unify a b).2.Compatible θ := by
  obtain ⟨hnone, hmeets⟩ := Equations.meets_of_solved _ ((solved_apply hs hθ).2 h)
  exact ⟨unify_fst_eq_ok.2 hnone, (compatible_extend (fits_unification hs a b)).2 ⟨hθ, hmeets⟩⟩

/-- Without a conflict, whatever agrees with what is left makes the types equal. -/
theorem unifier_of_compatible (hs : s.Acyclic) (hok : (s.unify a b).1 = .ok ())
    (h : (s.unify a b).2.Compatible θ) : a.subst θ = b.subst θ := by
  obtain ⟨hθ, hmeets⟩ := (compatible_extend (fits_unification hs a b)).1 h
  exact (solved_apply hs hθ).1 (Equations.solved_of_meets _ (unify_fst_eq_ok.1 hok) hmeets)

theorem apply_eq_of_unify (hs : s.Acyclic) (hok : (s.unify a b).1 = .ok ()) :
    (s.unify a b).2.apply a = (s.unify a b).2.apply b := by
  have h := unifier_of_compatible hs hok (compatible_apply (acyclic_unify hs a b) .unknown)
  rwa [subst_apply_unknown, subst_apply_unknown, Ty.subst_unknown, Ty.subst_unknown] at h

/-! ### The tree of calls -/

/-- A call on two types with its outcome and the solution it leaves, after the calls it makes itself. -/
inductive Unifies : Solution → Ty → Ty → Except Conflict Unit → Solution → Prop
  | equal {s : Solution} {a b t : Ty} : s.Resolves a t → s.Resolves b t → Unifies s a b (.ok ()) s
  | solve {s : Solution} {a b a' b' t : Ty} {u : Nat} :
      s.Resolves a a' → s.Resolves b b' → a' ≠ b' → a'.orient? b' = some (u, t) →
      Unifies s a b (s.solve u t).1 (s.solve u t).2
  | fn {s s₁ s₂ : Solution} {a b a₁ r₁ a₂ r₂ : Ty} {o : Except Conflict Unit} :
      s.Resolves a (.fn a₁ r₁) → s.Resolves b (.fn a₂ r₂) → Ty.fn a₁ r₁ ≠ .fn a₂ r₂ →
      Unifies s a₁ a₂ (.ok ()) s₁ → Unifies s₁ r₁ r₂ o s₂ → Unifies s a b o s₂
  /-- A conflict in the arguments ends the call before the results are looked at. -/
  | argument {s s₁ : Solution} {a b a₁ r₁ a₂ r₂ : Ty} {c : Conflict} :
      s.Resolves a (.fn a₁ r₁) → s.Resolves b (.fn a₂ r₂) → Ty.fn a₁ r₁ ≠ .fn a₂ r₂ →
      Unifies s a₁ a₂ (.error c) s₁ → Unifies s a b (.error c) s₁
  | list {s s₁ : Solution} {a b e₁ e₂ : Ty} {o : Except Conflict Unit} :
      s.Resolves a (.list e₁) → s.Resolves b (.list e₂) → e₁ ≠ e₂ →
      Unifies s e₁ e₂ o s₁ → Unifies s a b o s₁
  | clash {s : Solution} {a b a' b' : Ty} : s.Resolves a a' → s.Resolves b b' → a' ≠ b' →
      a'.orient? b' = none → a'.components? b' = none →
      Unifies s a b (.error (.mismatch a' b')) s

theorem Unifies.eq_unify (h : Unifies s a b o s') (hs : s.Acyclic) : s.unify a b = (o, s') := by
  induction h with
  | equal ha hb => exact unify_of_apply_eq ((ha.eq_apply hs).symm.trans (hb.eq_apply hs))
  | solve ha hb hne ho =>
    cases ha.eq_apply hs
    cases hb.eq_apply hs
    exact unify_of_orient hne ho
  | @fn s s₁ s₂ a b a₁ r₁ a₂ r₂ o ha hb _ _ _ ih₁ ih₂ =>
    have hargs := ih₁ hs
    have hs₁ := acyclic_unify hs a₁ a₂
    rw [unify_of_fns hs (ha.eq_apply hs).symm (hb.eq_apply hs).symm, hargs]
    rw [hargs] at hs₁
    exact ih₂ hs₁
  | argument ha hb _ _ ih =>
    rw [unify_of_fns hs (ha.eq_apply hs).symm (hb.eq_apply hs).symm, ih hs]
  | list ha hb _ _ ih =>
    rw [unify_of_lists hs (ha.eq_apply hs).symm (hb.eq_apply hs).symm, ih hs]
  | clash ha hb hne ho hc =>
    cases ha.eq_apply hs
    cases hb.eq_apply hs
    exact unify_of_clash hne ho hc

/-- Calls on a list of pairs, each on what the one before it leaves, until a conflict. -/
def UnifiesAll (s : Solution) : List (Ty × Ty) → Prop
  | [] => True
  | (a, b) :: ps => Unifies s a b (s.unify a b).1 (s.unify a b).2 ∧
      ((s.unify a b).1 = .ok () → UnifiesAll (s.unify a b).2 ps)

theorem UnifiesAll.of_fns {a₁ r₁ a₂ r₂ : Ty} {ps : List (Ty × Ty)} (hs : s.Acyclic)
    (ha : s.apply a = .fn a₁ r₁) (hb : s.apply b = .fn a₂ r₂) (hne : Ty.fn a₁ r₁ ≠ .fn a₂ r₂)
    (h : s.UnifiesAll ((a₁, a₂) :: (r₁, r₂) :: ps)) : s.UnifiesAll ((a, b) :: ps) := by
  have hx := (resolves_iff hs).2 ha
  have hy := (resolves_iff hs).2 hb
  obtain ⟨hargs, hresults⟩ := h
  rw [UnifiesAll, unify_of_fns hs ha hb]
  cases hu : s.unify a₁ a₂ with
  | mk o s₁ =>
    rw [hu] at hargs hresults
    cases o with
    | error c => exact ⟨.argument hx hy hne hargs, fun hok => by cases hok⟩
    | ok =>
      obtain ⟨hresult, hrest⟩ := hresults rfl
      exact ⟨.fn hx hy hne hargs hresult, hrest⟩

theorem UnifiesAll.of_lists {e₁ e₂ : Ty} {ps : List (Ty × Ty)} (hs : s.Acyclic)
    (ha : s.apply a = .list e₁) (hb : s.apply b = .list e₂) (hne : Ty.list e₁ ≠ .list e₂)
    (h : s.UnifiesAll ((e₁, e₂) :: ps)) : s.UnifiesAll ((a, b) :: ps) := by
  obtain ⟨helements, hrest⟩ := h
  rw [UnifiesAll, unify_of_lists hs ha hb]
  refine ⟨.list ((resolves_iff hs).2 ha) ((resolves_iff hs).2 hb) ?_ helements, hrest⟩
  intro e
  exact hne (by rw [e])

/-- The pairs as the equations that a run starts from. -/
def resolved (s : Solution) (ps : List (Ty × Ty)) : Equations :=
  ps.map fun p => (s.apply p.1, s.apply p.2)

theorem resolved_insert (hs : s.Acyclic) (hu : s.get? u = none) (hut : u ∉ t.unknowns)
    (ht : ∀ v ∈ t.unknowns, s.get? v = none) (ps : List (Ty × Ty)) :
    resolved (s.insert u t) ps = (s.resolved ps).replace u t := by
  simp only [resolved, Equations.replace, List.map_map]
  exact List.map_congr_left fun p _ =>
    Prod.ext (apply_insert hs hu hut ht p.1) (apply_insert hs hu hut ht p.2)

theorem unifiesAll_of_resolved (eqs : Equations) (hs : s.Acyclic) (ps : List (Ty × Ty))
    (h : s.resolved ps = eqs) : s.UnifiesAll ps := by
  -- the run on the resolved pairs makes the same calls in the same order
  induction eqs using Equations.run_induction generalizing s ps with
  | nil => cases ps with
    | nil => trivial
    | cons => cases h
  | equal x rest ih =>
    obtain ⟨⟨a, b⟩, ps, rfl, hp, rfl⟩ := List.map_eq_cons_iff.1 h
    obtain ⟨ha, hb⟩ := Prod.mk.inj hp
    rw [UnifiesAll, unify_of_apply_eq (ha.trans hb.symm)]
    exact ⟨.equal ((resolves_iff hs).2 ha) ((resolves_iff hs).2 hb), fun _ => ih hs ps rfl⟩
  | occurs x y rest u t hne ho hu =>
    obtain ⟨⟨a, b⟩, ps, rfl, hp, rfl⟩ := List.map_eq_cons_iff.1 h
    obtain ⟨rfl, rfl⟩ := Prod.mk.inj hp
    rw [UnifiesAll, unify_of_orient hne ho]
    refine ⟨.solve (resolves_apply hs a) (resolves_apply hs b) hne ho, fun hok => ?_⟩
    rw [solve, if_pos hu] at hok
    cases hok
  | solve x y rest u t hne ho hu ih =>
    obtain ⟨⟨a, b⟩, ps, rfl, hp, rfl⟩ := List.map_eq_cons_iff.1 h
    obtain ⟨rfl, rfl⟩ := Prod.mk.inj hp
    rw [UnifiesAll, unify_of_orient hne ho]
    refine ⟨.solve (resolves_apply hs a) (resolves_apply hs b) hne ho, fun _ => ?_⟩
    rw [solve, if_neg hu]
    have unsolved : ∀ v, v = u ∨ v ∈ t.unknowns → s.get? v = none := by
      intro v hv
      rcases Equations.mem_unknowns_orient ho hv with hv | hv <;> exact (mem_unknowns_apply hs hv).1
    have ht : ∀ v ∈ t.unknowns, s.get? v = none := fun v hv => unsolved v (.inr hv)
    exact ih (acyclic_insert hs hu ht) ps (resolved_insert hs (unsolved u (.inl rfl)) hu ht ps)
  | split x y rest parts hne ho hc ih =>
    obtain ⟨⟨a, b⟩, ps, rfl, hp, rfl⟩ := List.map_eq_cons_iff.1 h
    obtain ⟨ha, hb⟩ := Prod.mk.inj hp
    have hself : s.resolved [(x, y)] = [(x, y)] := by
      rw [← ha, ← hb, resolved, List.map_singleton, apply_apply hs, apply_apply hs]
    rcases Ty.components?_eq_some hc with
      ⟨a₁, r₁, a₂, r₂, rfl, rfl, rfl⟩ | ⟨e₁, e₂, rfl, rfl, rfl⟩
    · have hparts : s.resolved [(a₁, a₂), (r₁, r₂)] = [(a₁, a₂), (r₁, r₂)] := by
        simpa [resolved, and_assoc, and_left_comm] using hself
      exact .of_fns hs ha hb hne (ih hs ((a₁, a₂) :: (r₁, r₂) :: ps) (by rw [← hparts]; rfl))
    · have hparts : s.resolved [(e₁, e₂)] = [(e₁, e₂)] := by simpa [resolved] using hself
      exact .of_lists hs ha hb hne (ih hs ((e₁, e₂) :: ps) (by rw [← hparts]; rfl))
  | clash x y rest hne ho hc =>
    obtain ⟨⟨a, b⟩, ps, rfl, hp, rfl⟩ := List.map_eq_cons_iff.1 h
    obtain ⟨rfl, rfl⟩ := Prod.mk.inj hp
    rw [UnifiesAll, unify_of_clash hne ho hc]
    exact ⟨.clash (resolves_apply hs a) (resolves_apply hs b) hne ho hc, fun hok => by cases hok⟩

/-- The procedure ends on every pair of types, and in one way only. -/
theorem unifies_iff (hs : s.Acyclic) : Unifies s a b o s' ↔ s.unify a b = (o, s') := by
  constructor
  · intro h
    exact h.eq_unify hs
  · intro h
    obtain ⟨hcall, -⟩ := unifiesAll_of_resolved _ hs [(a, b)] rfl
    rwa [h] at hcall

/-- On a solution without a cycle unification ends. It succeeds exactly if some substitution that
agrees with the solution makes the types equal; what it then leaves is again without a cycle, keeps
every entry, makes the types equal, and agrees with every such substitution. -/
theorem unify_most_general (s : Solution) (hs : s.Acyclic) (a b : Ty) :
    (∀ o s', Unifies s a b o s' ↔ s.unify a b = (o, s')) ∧
    ((s.unify a b).1 = .ok () ↔ ∃ θ, s.Compatible θ ∧ a.subst θ = b.subst θ) ∧
    ∀ s', s.unify a b = (.ok (), s') →
      s'.Acyclic ∧ s'.Extends s ∧ s'.apply a = s'.apply b ∧
      ∀ θ, s.Compatible θ → a.subst θ = b.subst θ →
        s'.Compatible θ ∧ ∀ t : Ty, t.subst θ = (s'.apply t).subst θ := by
  refine ⟨fun o s' => unifies_iff hs, ⟨fun hok => ?_, ?_⟩, fun s' h => ?_⟩
  · have hθ := compatible_apply (acyclic_unify hs a b) .unknown
    exact ⟨_, hθ.of_extends (extends_unify hs a b), unifier_of_compatible hs hok hθ⟩
  · rintro ⟨θ, hθ, heq⟩
    exact (unify_of_unifier hs hθ heq).1
  · have hs' := acyclic_unify hs a b
    have hkeep := extends_unify hs a b
    have heq := apply_eq_of_unify hs (congrArg Prod.fst h)
    have hgeneral : ∀ θ, s.Compatible θ → a.subst θ = b.subst θ → (s.unify a b).2.Compatible θ :=
      fun θ hθ hab => (unify_of_unifier hs hθ hab).2
    rw [h] at hs' hkeep heq hgeneral
    refine ⟨hs', hkeep, heq, fun θ hθ hab => ⟨hgeneral θ hθ hab, fun t => ?_⟩⟩
    exact ((hgeneral θ hθ hab).subst_apply hs' t).symm

/-- Unknown 1 is solved already, to a type that the run comes to through unknown 3. -/
theorem unify_most_general_shared :
    let s : Solution := [(1, .list (.unknown 2))]
    let a : Ty := .fn (.unknown 1) (.unknown 2)
    let b : Ty := .fn (.unknown 3) .number
    s.Acyclic ∧ ∃ s', Unifies s a b (.ok ()) s' ∧ s'.Acyclic ∧ s'.Extends s ∧
      s'.apply a = .fn (.list .number) .number ∧ s'.apply b = .fn (.list .number) .number := by
  intro s a b
  have hs : s.Acyclic := by
    refine acyclic_of_rank (fun u => if u = 1 then 1 else 0) fun u v h => ?_
    obtain ⟨t, ht, hv⟩ := h
    by_cases hu : 1 = u
    · simp only [s, Bindings.get?, if_pos hu, Option.some.injEq] at ht
      subst ht hu
      simp only [Ty.unknowns, List.mem_singleton] at hv
      simp [hv]
    · simp [s, Bindings.get?, hu] at ht
  have hrun : s.unify a b =
      (.ok (), [(2, .number), (3, .list (.unknown 2)), (1, .list (.unknown 2))]) := by
    rw [unify_eq_record, Equations.unify_split (by decide) rfl rfl]
    change s.record (Equations.unify [(.list (.unknown 2), .unknown 3), (.unknown 2, .number)]) = _
    rw [Equations.unify_solve (by decide) rfl (by decide)]
    change s.record (((Equations.unify [(.unknown 2, .number)]).after _).after _) = _
    rw [Equations.unify_solve (by decide) rfl (by decide)]
    change s.record (((((Equations.unify []).after _).after _).after _).after _) = _
    rw [Equations.unify_nil]
    rfl
  obtain ⟨hcalls, -, hresult⟩ := unify_most_general s hs a b
  obtain ⟨hs', hkeep, heq, -⟩ := hresult _ hrun
  exact ⟨hs, _, (hcalls _ _).2 hrun, hs', hkeep, by decide, heq.symm.trans (by decide)⟩

end LetPoly.Solution
