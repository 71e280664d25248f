import Mathlib.Data.Set.Basic
import LetPoly.Proofs.Session

/-! Sets of unknowns that a run of inference does not leave. An area holds everything that may still be
given out, and with an unknown all that it stands for; runs that start inside one solve only unknowns
of it, and to types about it (`Session.Advances`). The unknowns that do not reach a given one are an
area, and so are those that a context can reach, with the fresh ones (`area_clearOf`,
`area_dependents`). -/

namespace LetPoly

def Event.binding? : Event → Option (Nat × Ty)
  | unification step => step.binding?
  | _ => none

/-! ### Types and schemes about an area -/

def Ty.Inside (A : Set Nat) (n : Nat) (t : Ty) : Prop := t.Within n ∧ ∀ u ∈ t.unknowns, u ∈ A

def Scheme.Inside (A : Set Nat) (n : Nat) (s : Scheme) : Prop :=
  s.Within n ∧ ∀ u ∈ s.body.unknowns, u ∈ A

def TypeError.types : TypeError → List Ty
  | mismatch expected found => [expected, found]
  | infinite u t => [.unknown u, t]
  | unboundVariable _ | runtimeValue _ => []

theorem TypeError.types_ofConflict (c : Conflict) : (ofConflict c).types = c.types := by
  cases c <;> rfl

section Inside

variable {A B : Set Nat} {n m u : Nat} {t a r : Ty} {s : Scheme}

@[simp] theorem Ty.inside_number : Ty.Inside A n .number := by simp [Inside, unknowns]

@[simp] theorem Ty.inside_boolean : Ty.Inside A n .boolean := by simp [Inside, unknowns]

theorem Ty.inside_unknown : Ty.Inside A n (.unknown u) ↔ u ≤ n ∧ u ∈ A := by
  simp [Inside, unknowns]

theorem Ty.inside_fn : Ty.Inside A n (.fn a r) ↔ a.Inside A n ∧ r.Inside A n := by
  simp only [Inside, within_fn, unknowns, List.mem_append, or_imp, forall_and]
  exact and_and_and_comm

theorem Ty.inside_list : Ty.Inside A n (.list t) ↔ t.Inside A n := Iff.rfl

theorem Ty.inside_replace (ht : t.Inside A n) (ha : a.Inside A n) (u : Nat) :
    (t.replace u a).Inside A n := by
  constructor
  · refine ht.1.subst fun v hv => ?_
    split
    · exact ha.1
    · exact Ty.within_unknown.2 hv
  · intro v hv
    rcases mem_unknowns_replace.1 hv with ⟨-, hv⟩ | ⟨hv, -⟩
    · exact ha.2 v hv
    · exact ht.2 v hv

theorem Scheme.inside_ofTy : (Scheme.ofTy t).Inside A n ↔ t.Inside A n := by
  have hvars : (∀ v ∈ t.vars, v ∈ ([] : List String)) ↔ t.vars = [] := by
    simp [List.eq_nil_iff_forall_not_mem]
  simp only [Scheme.Inside, Ty.Inside, Scheme.Within, Ty.Within, ofTy, hvars]
  rw [and_comm (a := t.vars = [])]

theorem Ty.Inside.mono (h : t.Inside A n) (hnm : n ≤ m) : t.Inside A m := ⟨h.1.mono hnm, h.2⟩

theorem Scheme.Inside.mono (h : s.Inside A n) (hnm : n ≤ m) : s.Inside A m :=
  ⟨⟨fun u hu => (h.1.1 u hu).trans hnm, h.1.2⟩, h.2⟩

theorem Scheme.inside_univ (h : s.Within n) : s.Inside Set.univ n := ⟨h, fun _ _ => trivial⟩

end Inside

/-! ### Areas of a session -/

namespace Session

/-- The entries that the log reports, the oldest first. -/
def solved (S : Session) : List (Nat × Ty) := S.log.reverse.filterMap Event.binding?

structure Area (S : Session) (A : Set Nat) : Prop where
  valid : S.Valid
  fresh : ∀ u, S.supply < u → u ∈ A
  closed : ∀ u t, S.solution.get? u = some t → u ∈ A → ∀ v ∈ t.unknowns, v ∈ A

/-- A later session. What it has solved since is what its log reports, in that order, and is inside
the area. -/
structure Advances (A : Set Nat) (S S' : Session) : Prop where
  grows : S.Grows S'
  log : S.log <:+ S'.log
  bindings : ∃ bs, S'.solved = S.solved ++ bs ∧ S'.solution = S.solution.extend bs ∧
    S.solution.Fits bs ∧ ∀ b ∈ bs, b.1 ∈ A ∧ ∀ u ∈ b.2.unknowns, u ∈ A

variable {S S₁ S₂ S' : Session} {A : Set Nat} {ctx : Context} {t : Ty} {u v k : Nat}

theorem area_univ (hS : S.Valid) : S.Area Set.univ :=
  ⟨hS, fun _ _ => trivial, fun _ _ _ _ _ _ => trivial⟩

theorem Valid.get?_eq_none (hS : S.Valid) (hu : S.supply < u) : S.solution.get? u = none := by
  cases hg : S.solution.get? u with
  | none => rfl
  | some t => exact absurd (hS.within u t hg).1 (Nat.not_le.2 hu)

theorem apply_fresh (hS : S.Valid) (hu : S.supply < u) :
    S.solution.apply (.unknown u) = .unknown u :=
  Solution.apply_unsolved (hS.get?_eq_none hu)

theorem Area.mem_of_apply (h : S.Area A) (ht : ∀ u ∈ t.unknowns, u ∈ A)
    (hv : v ∈ (S.solution.apply t).unknowns) : v ∈ A := by
  obtain ⟨u, hu, hv⟩ := Ty.mem_unknowns_subst.1 hv
  change v ∈ (S.solution.apply (.unknown u)).unknowns at hv
  replace hu := ht u hu
  clear ht
  induction u using h.valid.acyclic.induct with
  | step u ih =>
    cases hg : S.solution.get? u with
    | none =>
      rw [Solution.apply_unsolved hg, Ty.unknowns, List.mem_singleton] at hv
      exact hv ▸ hu
    | some r =>
      rw [Solution.apply_solved h.valid.acyclic hg] at hv
      obtain ⟨w, hw, hv⟩ := Ty.mem_unknowns_subst.1 hv
      exact ih w ⟨r, hg, hw⟩ hv (h.closed u r hg hu w hw)

theorem Area.inside_apply (h : S.Area A) (ht : t.Inside A S.supply) :
    (S.solution.apply t).Inside A S.supply :=
  ⟨h.valid.within_apply ht.1, fun _ hv => h.mem_of_apply ht.2 hv⟩

theorem Advances.refl (hS : S.Valid) : S.Advances A S :=
  ⟨.refl hS, List.suffix_rfl, [], by simp, rfl, ⟨⟨by simp, .nil⟩, by simp⟩, by simp⟩

theorem Advances.trans (h₂ : S₁.Advances A S₂) (h₁ : S.Advances A S₁) : S.Advances A S₂ := by
  obtain ⟨bs, hsolved, hsolution, hfits, hbs⟩ := h₁.bindings
  obtain ⟨cs, hsolved', hsolution', hfits', hcs⟩ := h₂.bindings
  rw [hsolution] at hsolution' hfits'
  refine ⟨h₂.grows.trans h₁.grows, h₁.log.trans h₂.log, bs ++ cs, ?_, ?_, hfits.append hfits', ?_⟩
  · rw [hsolved', hsolved, List.append_assoc]
  · rw [hsolution', Solution.extend_append]
  · exact List.forall_mem_append.2 ⟨hbs, hcs⟩

theorem advances_supply (hS : S.Valid) (n : Nat) :
    S.Advances A { S with supply := S.supply + n } :=
  ⟨Infer.grows_supply hS n, List.suffix_rfl, [], by simp [solved], rfl,
    ⟨⟨by simp, .nil⟩, by simp⟩, by simp⟩

theorem advances_note (hS : S.Valid) {e : Event} (he : e.binding? = none) :
    S.Advances A { S with log := e :: S.log } :=
  ⟨Infer.grows_log hS (e :: S.log), List.suffix_cons e S.log, [], by simp [solved, he], rfl,
    ⟨⟨by simp, .nil⟩, by simp⟩, by simp⟩

/-- Resolved types are inside the area if the types are, and a run that unifies them stays there. -/
theorem Area.inside_unification {a b : Ty} (hA : S.Area A) (ha : a.Inside A S.supply)
    (hb : b.Inside A S.supply) :
    (∀ p ∈ (S.solution.unification a b).bindings,
      (Ty.unknown p.1).Inside A S.supply ∧ p.2.Inside A S.supply) ∧
      ∀ c ∈ (S.solution.unification a b).conflict, ∀ t ∈ c.types, t.Inside A S.supply :=
  Equations.forall_types (P := Ty.Inside A S.supply)
    Ty.inside_fn.1 Ty.inside_list.1 (fun u hs ht => Ty.inside_replace hs ht u)
    [(S.solution.apply a, S.solution.apply b)]
    (List.forall_mem_singleton.2 ⟨hA.inside_apply ha, hA.inside_apply hb⟩)

theorem Area.advances_unify {a b : Ty} (hA : S.Area A) (ha : a.Inside A S.supply)
    (hb : b.Inside A S.supply) :
    S.Advances A ((Infer.unify a b).run S).2 ∧
      ∀ c ∈ (S.solution.unification a b).conflict, ∀ t ∈ c.types, t.Inside A S.supply := by
  obtain ⟨hbindings, hconflict⟩ := hA.inside_unification ha hb
  refine ⟨?_, hconflict⟩
  rw [Infer.run_unify_eq]
  refine ⟨Infer.grows_unify hA.valid ha.1 hb.1 _, List.suffix_append _ _,
    (S.solution.unification a b).bindings, ?_, rfl,
    Solution.fits_unification hA.valid.acyclic a b, fun p hp => ?_⟩
  · simp only [solved, List.reverse_append, List.reverse_reverse, List.filterMap_append,
      List.filterMap_map]
    rfl
  · exact ⟨(Ty.inside_unknown.1 (hbindings p hp).1).2, (hbindings p hp).2.2⟩

theorem Advances.get?_eq (h : S.Advances A S') (hu : S'.solution.get? u = some t) :
    S.solution.get? u = some t ∨ u ∈ A ∧ ∀ v ∈ t.unknowns, v ∈ A := by
  obtain ⟨bs, -, hsolution, -, hbs⟩ := h.bindings
  rw [hsolution] at hu
  exact (Solution.get?_extend hu).imp id (hbs (u, t))

theorem Advances.area (h : S.Advances A S') (hA : S.Area A) : S'.Area A := by
  refine ⟨h.grows.valid, fun u hu => hA.fresh u (h.grows.supply.trans_lt hu), fun u t hu hmem => ?_⟩
  rcases h.get?_eq hu with hold | ⟨-, hnew⟩
  · exact hA.closed u t hold hmem
  · exact hnew

/-- What is solved after all reaches what was left unsolved before only inside the area. -/
theorem Advances.mem_of_solved (h : S.Advances A S') (hu : S.solution.get? u = none)
    (hu' : S'.solution.get? u ≠ none) : u ∈ A := by
  obtain ⟨t, ht⟩ := Option.ne_none_iff_exists'.1 hu'
  rcases h.get?_eq ht with hold | ⟨hmem, -⟩
  · rw [hu] at hold
    cases hold
  · exact hmem

theorem mem_solved : (u, t) ∈ S.solved ↔ .unification (.solve u t) ∈ S.log := by
  rw [solved, List.mem_filterMap]
  constructor
  · rintro ⟨e, he, hbinding⟩
    cases e with
    | unification step => cases step <;> cases hbinding; exact List.mem_reverse.1 he
    | generalized | inferred | tied | applied => cases hbinding
  · exact fun h => ⟨_, List.mem_reverse.2 h, rfl⟩

/-- The solution is what the log reports, recorded entry by entry. -/
structure Recorded (S : Session) : Prop where
  solution : S.solution = Solution.extend [] S.solved
  fits : Solution.Fits [] S.solved

theorem recorded_new : new.Recorded := ⟨rfl, ⟨by simp [solved, new], .nil⟩, by simp [solved, new]⟩

theorem Advances.recorded (h : S.Advances A S') (hS : S.Recorded) : S'.Recorded := by
  obtain ⟨bs, hsolved, hsolution, hfits, -⟩ := h.bindings
  rw [hS.solution] at hsolution hfits
  refine ⟨?_, ?_⟩
  · rw [hsolution, hsolved, Solution.extend_append]
  · rw [hsolved]
    exact hS.fits.append hfits

theorem Recorded.get?_eq_some (h : S.Recorded) :
    S.solution.get? u = some t ↔ (u, t) ∈ S.solved := by
  rw [h.solution]
  constructor
  · intro hu
    exact (Solution.get?_extend hu).resolve_left (by simp [Bindings.get?])
  · exact Solution.get?_extend_of_mem h.fits

theorem Grows.apply_apply (h : S.Grows S') (hS : S.Valid) (t : Ty) :
    S'.solution.apply (S.solution.apply t) = S'.solution.apply t :=
  Solution.apply_apply_of_extends hS.acyclic h.valid.acyclic h.solution t

/-! ### The unknowns that do not reach a given one -/

def clearOf (S : Session) (k : Nat) : Set Nat := {u | k ∉ (S.solution.apply (.unknown u)).unknowns}

theorem mem_apply_iff (S : Session) (t : Ty) (k : Nat) :
    k ∈ (S.solution.apply t).unknowns ↔ ∃ u ∈ t.unknowns, u ∉ S.clearOf k := by
  simp only [clearOf, Set.mem_ofPred_eq, not_not]
  exact Ty.mem_unknowns_subst

theorem not_mem_clearOf (hk : S.solution.get? k = none) : k ∉ S.clearOf k := by
  simp [clearOf, Solution.apply_unsolved hk, Ty.unknowns]

theorem area_clearOf (hS : S.Valid) (hk : k ≤ S.supply) : S.Area (S.clearOf k) := by
  refine ⟨hS, fun u hu => ?_, fun u t ht hu v hv hmem => hu ?_⟩
  · have hne : k ≠ u := by omega
    simpa [clearOf, apply_fresh hS hu, Ty.unknowns] using hne
  · rw [Solution.apply_solved hS.acyclic ht]
    exact Ty.mem_unknowns_subst.2 ⟨v, hv, hmem⟩

/-- The unknown was given out between the sessions, is not solved, and is out of reach from all that
were given out before. -/
structure Seals (S S' : Session) (k : Nat) : Prop where
  after : S.supply < k
  given : k ≤ S'.supply
  unsolved : S'.solution.get? k = none
  clear : ∀ u ≤ S.supply, u ∈ S'.clearOf k

theorem Seals.of_solution_eq (h : S.Seals S₁ k) (hsolution : S'.solution = S₁.solution)
    (hsupply : S'.supply = S₁.supply) : S.Seals S' k := by
  obtain ⟨hafter, hgiven, hunsolved, hclear⟩ := h
  simp only [clearOf, ← hsolution, ← hsupply] at hgiven hunsolved hclear
  exact ⟨hafter, hgiven, hunsolved, hclear⟩

/-- A run that goes on inside what does not reach the unknown neither solves nor reaches it. -/
theorem Seals.clearOf_mono (h : S.Seals S₁ k) (h₁ : S₁.Valid)
    (hadv : S₁.Advances (S₁.clearOf k) S') (hu : u ∈ S₁.clearOf k) : u ∈ S'.clearOf k := by
  intro hmem
  have harea := hadv.area (area_clearOf h₁ h.given)
  refine not_mem_clearOf h.unsolved (harea.mem_of_apply (fun v hv => ?_) hmem)
  exact List.mem_singleton.1 hv ▸ hu

theorem Seals.advances (h : S.Seals S₁ k) (h₁ : S₁.Valid)
    (hadv : S₁.Advances (S₁.clearOf k) S') : S.Seals S' k := by
  refine ⟨h.after, h.given.trans hadv.grows.supply, ?_, fun u hu => ?_⟩
  · by_contra hsolved
    exact not_mem_clearOf h.unsolved (hadv.mem_of_solved h.unsolved hsolved)
  · exact h.clearOf_mono h₁ hadv (h.clear u hu)

/-! ### The unknowns that a context reaches -/

/-- The unknowns to be given out, and those that stand for nothing but what the context depends on. -/
def dependents (S : Session) (ctx : Context) : Set Nat :=
  {u | S.supply < u ∨
    ∀ w ∈ (S.solution.apply (.unknown u)).unknowns, w ∈ ctx.freeUnknowns S.solution}

theorem area_dependents (hS : S.Valid) (ctx : Context) : S.Area (S.dependents ctx) := by
  refine ⟨hS, fun u hu => .inl hu, fun u t ht hu v hv => .inr fun w hw => ?_⟩
  rcases hu with hu | hu
  · exact absurd (hS.within u t ht).1 (Nat.not_le.2 hu)
  · refine hu w ?_
    rw [Solution.apply_solved hS.acyclic ht]
    exact Ty.mem_unknowns_subst.2 ⟨v, hv, hw⟩

theorem mem_freeUnknowns {s : Solution} :
    u ∈ ctx.freeUnknowns s ↔ ∃ b ∈ ctx, u ∈ (s.apply b.2.body).unknowns := by
  rw [Context.freeUnknowns, mem_ascending, List.mem_flatMap]

theorem inside_dependents {b : String × Scheme} (hb : b ∈ ctx) :
    ∀ u ∈ b.2.body.unknowns, u ∈ S.dependents ctx := by
  intro u hu
  refine .inr fun w hw => mem_freeUnknowns.2 ⟨b, hb, ?_⟩
  exact Ty.mem_unknowns_subst.2 ⟨u, hu, hw⟩

/-- What the context depended on, it still depends on once more is solved. -/
theorem mem_freeUnknowns_of_grows (hS : S.Valid) (h : S.Grows S')
    (hu : u ∈ ctx.freeUnknowns S.solution)
    (hk : k ∈ (S'.solution.apply (.unknown u)).unknowns) : k ∈ ctx.freeUnknowns S'.solution := by
  obtain ⟨b, hb, hu⟩ := mem_freeUnknowns.1 hu
  refine mem_freeUnknowns.2 ⟨b, hb, ?_⟩
  rw [← h.apply_apply hS]
  exact Ty.mem_unknowns_subst.2 ⟨u, hu, hk⟩

/-- An unknown given out since, or left in a type about the context, that the context does not depend
on is new, and nothing older reaches it. -/
theorem seals_of_advances (hS : S.Valid) (h : S.Advances (S.dependents ctx) S')
    (ht : t.Inside (S.dependents ctx) S'.supply) (hk : k ∈ (S'.solution.apply t).unknowns)
    (hkept : k ∉ ctx.freeUnknowns S'.solution) : S.Seals S' k := by
  have harea := h.area (area_dependents hS ctx)
  have hunsolved := (Solution.mem_unknowns_apply harea.valid.acyclic hk).1
  have hself : k ∈ (S'.solution.apply (.unknown k)).unknowns := by
    simp [Solution.apply_unsolved hunsolved, Ty.unknowns]
  have hold : S.solution.get? k = none := by
    cases hg : S.solution.get? k with
    | none => rfl
    | some r =>
      rw [h.grows.solution k r hg] at hunsolved
      cases hunsolved
  have hafter : S.supply < k := by
    rcases harea.mem_of_apply ht.2 hk with hk | hk
    · exact hk
    · refine absurd (mem_freeUnknowns_of_grows hS h.grows (hk k ?_) hself) hkept
      simp [Solution.apply_unsolved hold, Ty.unknowns]
  refine ⟨hafter, (harea.valid.within_apply ht.1).2 k hk, hunsolved, fun u hu hmem => hkept ?_⟩
  rw [← h.grows.apply_apply hS] at hmem
  obtain ⟨w, hw, hmem⟩ := Ty.mem_unknowns_subst.1 hmem
  change k ∈ (S'.solution.apply (.unknown w)).unknowns at hmem
  have hwn := (Solution.mem_unknowns_apply hS.acyclic hw).1
  have hle := (hS.within_apply (Ty.within_unknown.2 hu)).2 w hw
  have hsolved : S'.solution.get? w ≠ none := by
    intro hnone
    rw [Solution.apply_unsolved hnone, Ty.unknowns, List.mem_singleton] at hmem
    omega
  rcases h.mem_of_solved hwn hsolved with hlt | hdep
  · omega
  · refine mem_freeUnknowns_of_grows hS h.grows (hdep w ?_) hmem
    simp [Solution.apply_unsolved hwn, Ty.unknowns]

end Session
end LetPoly
