import LetPoly.Proofs.Unifier

/-! Recording what a run of unification has found. The types are resolved before they are unified,
so the bindings speak of unsolved unknowns only (`fits_unification`); recorded in order, each is a
first entry for its unknown and closes no cycle. -/

namespace LetPoly.Solution

variable {s : Solution} {u v : Nat} {t : Ty} {bs cs : List (Nat × Ty)} {θ : Nat → Ty}

/-- Bindings that can be recorded one after the other: triangular, and about unsolved unknowns. -/
structure Fits (s : Solution) (bs : List (Nat × Ty)) : Prop where
  triangular : Triangular bs
  unsolved : ∀ b ∈ bs, s.get? b.1 = none ∧ ∀ v ∈ b.2.unknowns, s.get? v = none

theorem Fits.head (h : s.Fits ((u, t) :: bs)) :
    s.get? u = none ∧ u ∉ t.unknowns ∧ ∀ v ∈ t.unknowns, s.get? v = none := by
  obtain ⟨hu, ht⟩ := h.unsolved (u, t) List.mem_cons_self
  exact ⟨hu, h.triangular.own (u, t) List.mem_cons_self, ht⟩

theorem Fits.tail (h : s.Fits ((u, t) :: bs)) : Fits (s.insert u t) bs := by
  obtain ⟨hfirst, hlater⟩ := List.pairwise_cons.1 h.triangular.later
  refine ⟨⟨fun b hb => h.triangular.own b (List.mem_cons_of_mem _ hb), hlater⟩, fun b hb => ?_⟩
  obtain ⟨hne, hnot⟩ := hfirst b hb
  obtain ⟨hkey, hty⟩ := h.unsolved b (List.mem_cons_of_mem _ hb)
  refine ⟨by rw [Bindings.get?_insert, if_neg hne.symm, hkey], fun v hv => ?_⟩
  have hvu : u ≠ v := fun e => hnot (e ▸ hv)
  rw [Bindings.get?_insert, if_neg hvu, hty v hv]

/-! ### One entry -/

theorem extends_insert (hu : s.get? u = none) : Extends (s.insert u t) s := by
  intro v r hv
  have hne : u ≠ v := by
    rintro rfl
    rw [hu] at hv
    cases hv
  rw [Bindings.get?_insert, if_neg hne, hv]

theorem mentions_insert {w : Nat} :
    Mentions (s.insert u t) v w ↔ (v = u ∧ w ∈ t.unknowns) ∨ (v ≠ u ∧ s.Mentions v w) := by
  by_cases hv : u = v
  · simp [Mentions, Bindings.get?_insert, hv]
  · simp [Mentions, Bindings.get?_insert, hv, Ne.symm hv]

/-- The new entry is below all old ones, and above what it mentions, which is unsolved. -/
theorem acyclic_insert (hs : s.Acyclic) (hut : u ∉ t.unknowns)
    (ht : ∀ v ∈ t.unknowns, s.get? v = none) : Acyclic (s.insert u t) := by
  refine acyclic_of_rank
    (fun v => if v = u then 1 else if s.get? v = none then 0 else s.rank v + 2) fun v w h => ?_
  rcases mentions_insert.1 h with ⟨rfl, hw⟩ | ⟨hv, hw⟩
  · have hne : w ≠ v := fun e => hut (e ▸ hw)
    simp [hne, ht w hw]
  · have hlt := rank_lt hs hw
    obtain ⟨r, hr, -⟩ := hw
    simp only [hv, hr, if_false, reduceCtorEq]
    split_ifs <;> omega

theorem compatible_insert (hu : s.get? u = none) :
    Compatible (s.insert u t) θ ↔ s.Compatible θ ∧ θ u = t.subst θ := by
  constructor
  · intro h
    exact ⟨h.of_extends (extends_insert hu), h u t (by rw [Bindings.get?_insert, if_pos rfl])⟩
  · rintro ⟨h, hut⟩ v r hv
    rw [Bindings.get?_insert] at hv
    split at hv
    · next e => cases hv; rw [← e, hut]
    · exact h v r hv

/-- Resolving with one entry more replaces the new unknown in what was resolved before. -/
theorem apply_insert (hs : s.Acyclic) (hu : s.get? u = none) (hut : u ∉ t.unknowns)
    (ht : ∀ v ∈ t.unknowns, s.get? v = none) (r : Ty) :
    apply (s.insert u t) r = (s.apply r).replace u t := by
  have hs' := acyclic_insert hs hut ht
  have unsolved : ∀ v ∈ t.unknowns, Bindings.get? (s.insert u t) v = none := by
    intro v hv
    have hne : u ≠ v := fun e => hut (e ▸ hv)
    rw [Bindings.get?_insert, if_neg hne, ht v hv]
  rw [apply, apply, Ty.replace, Ty.subst_subst]
  refine Ty.subst_congr fun v hv => ?_
  clear hv
  change apply (s.insert u t) (.unknown v) = (s.apply (.unknown v)).replace u t
  induction v using hs.induct with
  | step v ih =>
    by_cases hv : u = v
    · have hentry : Bindings.get? (s.insert u t) v = some t := by
        rw [Bindings.get?_insert, if_pos hv]
      rw [apply_solved hs' hentry, apply_eq_self unsolved, ← hv, apply_unsolved hu]
      exact (if_pos rfl).symm
    · have hkeep : Bindings.get? (s.insert u t) v = s.get? v := by
        rw [Bindings.get?_insert, if_neg hv]
      cases hg : s.get? v with
      | none =>
        rw [apply_unsolved hg, apply_unsolved (hkeep.trans hg)]
        exact (if_neg (Ne.symm hv)).symm
      | some q =>
        rw [apply_solved hs hg, apply_solved hs' (hkeep.trans hg)]
        rw [apply, apply, Ty.replace, Ty.subst_subst]
        exact Ty.subst_congr fun w hw => ih w ⟨q, hg, hw⟩

/-! ### A list of entries -/

theorem extend_nil (s : Solution) : s.extend [] = s := rfl

theorem extend_cons (s : Solution) (u : Nat) (t : Ty) (bs : List (Nat × Ty)) :
    s.extend ((u, t) :: bs) = extend (s.insert u t) bs := rfl

theorem extend_append (s : Solution) (bs cs : List (Nat × Ty)) :
    s.extend (bs ++ cs) = (s.extend bs).extend cs := List.foldl_append

theorem acyclic_extend (hs : s.Acyclic) (h : s.Fits bs) : (s.extend bs).Acyclic := by
  induction bs generalizing s with
  | nil => exact hs
  | cons b bs ih =>
    obtain ⟨u, t⟩ := b
    obtain ⟨-, hut, ht⟩ := h.head
    exact ih (acyclic_insert hs hut ht) h.tail

theorem extends_extend (h : s.Fits bs) : (s.extend bs).Extends s := by
  induction bs generalizing s with
  | nil => exact .refl s
  | cons b bs ih =>
    obtain ⟨u, t⟩ := b
    exact (ih h.tail).trans (extends_insert h.head.1)

theorem compatible_extend (h : s.Fits bs) :
    (s.extend bs).Compatible θ ↔ s.Compatible θ ∧ Meets θ bs := by
  induction bs generalizing s with
  | nil => simp [extend_nil, Meets]
  | cons b bs ih =>
    obtain ⟨u, t⟩ := b
    rw [extend_cons, ih h.tail, compatible_insert h.head.1, Meets, Meets, List.forall_mem_cons,
      and_assoc]

theorem get?_extend (h : (s.extend bs).get? u = some t) : s.get? u = some t ∨ (u, t) ∈ bs := by
  induction bs generalizing s with
  | nil => exact .inl h
  | cons b bs ih =>
    obtain ⟨v, r⟩ := b
    rcases ih h with h | h
    · rw [Bindings.get?_insert] at h
      split at h
      · next e => cases h; exact .inr (e ▸ List.mem_cons_self)
      · exact .inl h
    · exact .inr (List.mem_cons_of_mem _ h)

theorem get?_extend_of_mem {b : Nat × Ty} (h : s.Fits bs) (hb : b ∈ bs) :
    (s.extend bs).get? b.1 = some b.2 := by
  induction bs generalizing s with
  | nil => cases hb
  | cons c bs ih =>
    obtain ⟨u, t⟩ := c
    rcases List.mem_cons.1 hb with rfl | hb
    · exact extends_extend h.tail u t (by rw [Bindings.get?_insert, if_pos rfl])
    · exact ih h.tail hb

/-- Bindings that fit after others do not speak of what those have solved. -/
theorem Fits.append (h : s.Fits bs) (h' : (s.extend bs).Fits cs) : s.Fits (bs ++ cs) := by
  have solved : ∀ b ∈ bs, (s.extend bs).get? b.1 ≠ none := by
    intro b hb
    rw [get?_extend_of_mem h hb]
    exact Option.some_ne_none b.2
  have unsolved : ∀ v, (s.extend bs).get? v = none → s.get? v = none := by
    intro v hv
    cases hg : s.get? v with
    | none => rfl
    | some r =>
      rw [extends_extend h v r hg] at hv
      cases hv
  refine ⟨⟨?_, List.pairwise_append.2 ⟨h.triangular.later, h'.triangular.later, ?_⟩⟩, ?_⟩
  · exact List.forall_mem_append.2 ⟨h.triangular.own, h'.triangular.own⟩
  · intro b hb c hc
    obtain ⟨hkey, hty⟩ := h'.unsolved c hc
    exact ⟨fun e => solved b hb (e ▸ hkey), fun hmem => solved b hb (hty b.1 hmem)⟩
  · refine List.forall_mem_append.2 ⟨h.unsolved, fun c hc => ?_⟩
    obtain ⟨hkey, hty⟩ := h'.unsolved c hc
    exact ⟨unsolved c.1 hkey, fun v hv => unsolved v (hty v hv)⟩

theorem apply_extend (hs : s.Acyclic) (h : s.Fits bs) (r : Ty) :
    (s.extend bs).apply r = (s.apply r).replaceAll bs := by
  induction bs generalizing s with
  | nil => rfl
  | cons b bs ih =>
    obtain ⟨u, t⟩ := b
    obtain ⟨hu, hut, ht⟩ := h.head
    rw [extend_cons, ih (acyclic_insert hs hut ht) h.tail, apply_insert hs hu hut ht]
    rfl

theorem fits_unification (hs : s.Acyclic) (a b : Ty) : s.Fits (s.unification a b).bindings := by
  refine ⟨Equations.triangular_bindings _, fun p hp => ?_⟩
  have unsolved : ∀ v, v = p.1 ∨ v ∈ p.2.unknowns → s.get? v = none := by
    intro v hv
    have hmem := Equations.mem_unknowns_of_bindings _ hp hv
    simp only [Equations.unknowns, List.append_nil, List.mem_append] at hmem
    rcases hmem with hmem | hmem <;> exact (mem_unknowns_apply hs hmem).1
  exact ⟨unsolved _ (.inl rfl), fun v hv => unsolved v (.inr hv)⟩

end LetPoly.Solution
