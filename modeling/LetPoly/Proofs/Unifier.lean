import LetPoly.Proofs.Acyclic
import LetPoly.Ty.Unification

/-! What a run of unification finds. It ends without a conflict exactly on the equations that some
substitution solves, and then the unknowns it has solved say the same as the equations
(`meets_of_solved`, `solved_of_meets`). Its bindings are triangular and mention no unknown that the
equations do not. -/

namespace LetPoly

/-- The substitution makes both sides of every equation the same. -/
def Equations.Solved (θ : Nat → Ty) (eqs : Equations) : Prop :=
  ∀ e ∈ eqs, e.1.subst θ = e.2.subst θ

/-- The substitution puts every bound unknown to what its type becomes. -/
def Meets (θ : Nat → Ty) (bs : List (Nat × Ty)) : Prop := ∀ b ∈ bs, θ b.1 = b.2.subst θ

/-- No binding mentions its own unknown, nor an unknown bound before it. -/
structure Triangular (bs : List (Nat × Ty)) : Prop where
  own : ∀ b ∈ bs, b.1 ∉ b.2.unknowns
  later : bs.Pairwise fun b c => c.1 ≠ b.1 ∧ b.1 ∉ c.2.unknowns

namespace Ty

/-- Replaces the bound unknowns, the first binding first. -/
def replaceAll (bs : List (Nat × Ty)) (t : Ty) : Ty := bs.foldl (fun t b => t.replace b.1 b.2) t

theorem replaceAll_fn (bs : List (Nat × Ty)) (a r : Ty) :
    (fn a r).replaceAll bs = fn (a.replaceAll bs) (r.replaceAll bs) := by
  induction bs generalizing a r with
  | nil => rfl
  | cons b bs ih => exact ih _ _

theorem replaceAll_list (bs : List (Nat × Ty)) (e : Ty) :
    (list e).replaceAll bs = list (e.replaceAll bs) := by
  induction bs generalizing e with
  | nil => rfl
  | cons b bs ih => exact ih _

theorem replace_eq_self {t : Ty} {u : Nat} (hu : u ∉ t.unknowns) (s : Ty) : t.replace u s = t := by
  have hkeep : t.replace u s = t.subst unknown := subst_congr fun v hv => if_neg fun e => hu (by rwa [← e])
  rw [hkeep, subst_unknown]

theorem replace_subst {θ : Nat → Ty} {u : Nat} {t : Ty} (h : θ u = t.subst θ) (s : Ty) :
    (s.replace u t).subst θ = s.subst θ := by
  rw [replace, subst_subst]
  refine subst_congr fun v _ => ?_
  split
  · next hv => rw [hv, h]
  · rfl

/-- The image of an unknown is a proper part of the image of a type that mentions it. -/
theorem size_subst_lt {θ : Nat → Ty} {u : Nat} {t : Ty} (hu : u ∈ t.unknowns) (ht : t ≠ unknown u) :
    (θ u).size < (t.subst θ).size := by
  have le : ∀ t : Ty, u ∈ t.unknowns → (θ u).size ≤ (t.subst θ).size := by
    intro t hu
    induction t with
    | number | boolean | var => cases hu
    | unknown v => rw [unknowns, List.mem_singleton] at hu; rw [hu]; rfl
    | fn a r iha ihr =>
      simp only [subst, size]
      rcases List.mem_append.1 hu with hu | hu
      · have := iha hu; omega
      · have := ihr hu; omega
    | list e ih => simp only [subst, size]; have := ih hu; omega
  cases t with
  | number | boolean | var => cases hu
  | unknown v => rw [unknowns, List.mem_singleton] at hu; exact absurd (by rw [hu]) ht
  | fn a r =>
    simp only [subst, size]
    rcases List.mem_append.1 hu with hu | hu
    · have := le a hu; omega
    · have := le r hu; omega
  | list e => simp only [subst, size]; have := le e hu; omega

theorem subst_ne_of_occurs {θ : Nat → Ty} {u : Nat} {t : Ty} (hu : u ∈ t.unknowns)
    (ht : t ≠ unknown u) : θ u ≠ t.subst θ := by
  intro h
  have := size_subst_lt (θ := θ) hu ht
  rw [h] at this
  exact lt_irrefl _ this

/-- Two types that are no unknowns and do not come apart into components become equal only if they
are. -/
theorem eq_of_subst_eq {θ : Nat → Ty} {a b : Ty} (ho : a.orient? b = none)
    (hc : a.components? b = none) (h : a.subst θ = b.subst θ) : a = b := by
  cases a <;> cases b <;> simp_all [orient?, components?, subst]

end Ty

/-- The types that a conflict is about. -/
def Conflict.types : Conflict → List Ty
  | mismatch expected found => [expected, found]
  | occurs u t => [.unknown u, t]

namespace Equations

variable {θ : Nat → Ty} {a b t : Ty} {u : Nat} {rest eqs : Equations}

theorem solved_nil : Solved θ [] := by
  intro e he
  cases he

theorem solved_cons : Solved θ ((a, b) :: rest) ↔ a.subst θ = b.subst θ ∧ Solved θ rest := by
  simp [Solved]

theorem solved_append : Solved θ (eqs ++ rest : Equations) ↔ Solved θ eqs ∧ Solved θ rest := by
  simp only [Solved, List.mem_append, or_imp, forall_and]

theorem solved_replace (h : θ u = t.subst θ) : Solved θ (rest.replace u t) ↔ Solved θ rest := by
  simp only [Solved, replace, List.forall_mem_map, Ty.replace_subst h]

theorem replace_append :
    Equations.replace (eqs ++ rest) u t = eqs.replace u t ++ rest.replace u t :=
  List.map_append

/-! ### The run, one case of the first equation at a time -/

theorem unify_nil : unify [] = .done := by rw [unify]

theorem unify_equal (a : Ty) (rest : Equations) :
    unify ((a, a) :: rest) = (unify rest).after (.compare a a) := by
  rw [unify, if_pos rfl]

theorem unify_occurs (hne : a ≠ b) (ho : a.orient? b = some (u, t)) (hu : u ∈ t.unknowns) :
    unify ((a, b) :: rest) = (Unification.fail (.occurs u t)).after (.compare a b) := by
  rw [unify, if_neg hne]
  split
  · next h => rw [ho] at h; cases h; rw [dif_pos hu]
  · next h => rw [ho] at h; cases h

theorem unify_solve (hne : a ≠ b) (ho : a.orient? b = some (u, t)) (hu : u ∉ t.unknowns) :
    unify ((a, b) :: rest) =
      ((unify (rest.replace u t)).after (.solve u t)).after (.compare a b) := by
  rw [unify, if_neg hne]
  split
  · next h => rw [ho] at h; cases h; rw [dif_neg hu]
  · next h => rw [ho] at h; cases h

theorem unify_split (hne : a ≠ b) (ho : a.orient? b = none) (hc : a.components? b = some eqs) :
    unify ((a, b) :: rest) = (unify (eqs ++ rest)).after (.compare a b) := by
  rw [unify, if_neg hne]
  split
  · next h => rw [ho] at h; cases h
  · split
    · next h => rw [hc] at h; cases h; rfl
    · next h => rw [hc] at h; cases h

theorem unify_clash (hne : a ≠ b) (ho : a.orient? b = none) (hc : a.components? b = none) :
    unify ((a, b) :: rest) = (Unification.fail (.mismatch a b)).after (.compare a b) := by
  rw [unify, if_neg hne]
  split
  · next h => rw [ho] at h; cases h
  · split
    · next h => rw [hc] at h; cases h
    · rfl

/-- Induction along a run: what holds of the equations that are left holds of all of them. -/
theorem run_induction {P : Equations → Prop} (nil : P [])
    (equal : ∀ a rest, P rest → P ((a, a) :: rest))
    (occurs : ∀ a b rest u t, a ≠ b → a.orient? b = some (u, t) → u ∈ t.unknowns →
      P ((a, b) :: rest))
    (solve : ∀ a b rest u t, a ≠ b → a.orient? b = some (u, t) → u ∉ t.unknowns →
      P (Equations.replace rest u t) → P ((a, b) :: rest))
    (split : ∀ a b rest eqs, a ≠ b → a.orient? b = none → a.components? b = some eqs →
      P (eqs ++ rest) → P ((a, b) :: rest))
    (clash : ∀ a b rest, a ≠ b → a.orient? b = none → a.components? b = none → P ((a, b) :: rest))
    (eqs : Equations) : P eqs := by
  induction eqs using unify.induct with
  | case1 => exact nil
  | case2 a b rest ihEqual ihSolve ihSplit =>
    by_cases hne : a = b
    · exact hne ▸ equal a rest ihEqual
    cases ho : a.orient? b with
    | some p =>
      obtain ⟨u, t⟩ := p
      by_cases hu : u ∈ t.unknowns
      · exact occurs a b rest u t hne ho hu
      · exact solve a b rest u t hne ho hu (ihSolve u t ho hu)
    | none =>
      cases hc : a.components? b with
      | some eqs => exact split a b rest eqs hne ho hc (ihSplit eqs hc)
      | none => exact clash a b rest hne ho hc

end Equations

namespace Unification

/-- One run after another, unless the first one has met a conflict. -/
def andThen (r k : Unification) : Unification :=
  match r.conflict with
  | none => ⟨r.steps ++ k.steps, k.conflict⟩
  | some _ => r

variable (r : Unification) (a b t : Ty) (u : Nat) (step : Step)

@[simp] theorem bindings_done : done.bindings = [] := rfl

@[simp] theorem bindings_fail (c : Conflict) : (fail c).bindings = [] := rfl

@[simp] theorem conflict_after : (r.after step).conflict = r.conflict := rfl

@[simp] theorem bindings_after_compare : (r.after (.compare a b)).bindings = r.bindings := rfl

@[simp] theorem bindings_after_solve : (r.after (.solve u t)).bindings = (u, t) :: r.bindings := rfl

theorem after_andThen (k : Unification) : (r.after step).andThen k = (r.andThen k).after step := by
  unfold andThen
  rw [conflict_after]
  split <;> rfl

theorem andThen_of_ok {r : Unification} (h : r.conflict = none) (k : Unification) :
    r.andThen k = ⟨r.steps ++ k.steps, k.conflict⟩ := by rw [andThen, h]

theorem andThen_of_conflict {r : Unification} {c : Conflict} (h : r.conflict = some c)
    (k : Unification) : r.andThen k = r := by rw [andThen, h]

end Unification

namespace Equations

variable {θ : Nat → Ty} {eqs : Equations}

theorem subst_orient {a b t : Ty} {u : Nat} (ho : a.orient? b = some (u, t)) :
    a.subst θ = b.subst θ ↔ θ u = t.subst θ := by
  rcases Ty.orient?_eq_some ho with ⟨rfl, rfl⟩ | ⟨rfl, rfl⟩
  · rfl
  · exact eq_comm

theorem solved_components {a b : Ty} (hc : a.components? b = some eqs) :
    Solved θ eqs ↔ a.subst θ = b.subst θ := by
  rcases Ty.components?_eq_some hc with ⟨a₁, r₁, a₂, r₂, rfl, rfl, rfl⟩ | ⟨e₁, e₂, rfl, rfl, rfl⟩
  · simp [Solved, Ty.subst]
  · simp [Solved, Ty.subst]

/-- A substitution that solves the equations meets every binding, and rules out a conflict. -/
theorem meets_of_solved (eqs : Equations) (h : eqs.Solved θ) :
    eqs.unify.conflict = none ∧ Meets θ eqs.unify.bindings := by
  induction eqs using run_induction with
  | nil => rw [unify_nil]; exact ⟨rfl, by simp [Meets]⟩
  | equal a rest ih => rw [unify_equal]; exact ih (solved_cons.1 h).2
  | occurs a b rest u t hne ho hu =>
    have heq := (subst_orient ho).1 (solved_cons.1 h).1
    refine absurd heq (Ty.subst_ne_of_occurs hu ?_)
    rintro rfl
    rcases Ty.orient?_eq_some ho with ⟨rfl, rfl⟩ | ⟨rfl, rfl⟩ <;> exact hne rfl
  | solve a b rest u t hne ho hu ih =>
    have heq := (subst_orient ho).1 (solved_cons.1 h).1
    obtain ⟨hnone, hmeets⟩ := ih ((solved_replace heq).2 (solved_cons.1 h).2)
    rw [unify_solve hne ho hu]
    exact ⟨hnone, List.forall_mem_cons.2 ⟨heq, hmeets⟩⟩
  | split a b rest eqs hne ho hc ih =>
    rw [unify_split hne ho hc]
    exact ih (solved_append.2 ⟨(solved_components hc).2 (solved_cons.1 h).1, (solved_cons.1 h).2⟩)
  | clash a b rest hne ho hc => exact absurd (Ty.eq_of_subst_eq ho hc (solved_cons.1 h).1) hne

theorem solved_of_meets (eqs : Equations) (hnone : eqs.unify.conflict = none)
    (h : Meets θ eqs.unify.bindings) : eqs.Solved θ := by
  induction eqs using run_induction with
  | nil => exact solved_nil
  | equal a rest ih =>
    rw [unify_equal] at hnone h
    exact solved_cons.2 ⟨rfl, ih hnone h⟩
  | occurs a b rest u t hne ho hu => rw [unify_occurs hne ho hu] at hnone; cases hnone
  | solve a b rest u t hne ho hu ih =>
    rw [unify_solve hne ho hu] at hnone h
    obtain ⟨heq, hmeets⟩ := List.forall_mem_cons.1 h
    exact solved_cons.2 ⟨(subst_orient ho).2 heq, (solved_replace heq).1 (ih hnone hmeets)⟩
  | split a b rest eqs hne ho hc ih =>
    rw [unify_split hne ho hc] at hnone h
    obtain ⟨hparts, hrest⟩ := solved_append.1 (ih hnone h)
    exact solved_cons.2 ⟨(solved_components hc).1 hparts, hrest⟩
  | clash a b rest hne ho hc => rw [unify_clash hne ho hc] at hnone; cases hnone

/-! ### Runs on two lists of equations -/

def replaceAll (bs : List (Nat × Ty)) (eqs : Equations) : Equations :=
  eqs.map fun e => (e.1.replaceAll bs, e.2.replaceAll bs)

theorem replaceAll_nil (eqs : Equations) : eqs.replaceAll [] = eqs := List.map_id eqs

theorem replaceAll_cons (u : Nat) (t : Ty) (bs : List (Nat × Ty)) (eqs : Equations) :
    eqs.replaceAll ((u, t) :: bs) = (eqs.replace u t).replaceAll bs := by
  rw [replaceAll, replaceAll, replace, List.map_map]
  rfl

/-- The second list is unified under what the run on the first one has solved. -/
theorem unify_append (eqs rest : Equations) :
    unify (eqs ++ rest) = eqs.unify.andThen (rest.replaceAll eqs.unify.bindings).unify := by
  induction eqs using run_induction generalizing rest with
  | nil =>
    rw [unify_nil, Unification.bindings_done, replaceAll_nil]
    rfl
  | equal a eqs ih =>
    rw [List.cons_append, unify_equal, unify_equal, ih, Unification.after_andThen]
    rfl
  | occurs a b eqs u t hne ho hu =>
    rw [List.cons_append, unify_occurs hne ho hu, unify_occurs hne ho hu]
    rfl
  | solve a b eqs u t hne ho hu ih =>
    rw [List.cons_append, unify_solve hne ho hu, unify_solve hne ho hu, replace_append, ih,
      Unification.after_andThen, Unification.after_andThen, Unification.bindings_after_compare,
      Unification.bindings_after_solve, replaceAll_cons]
  | split a b eqs parts hne ho hc ih =>
    rw [List.cons_append, unify_split hne ho hc, unify_split hne ho hc, ← List.append_assoc, ih,
      Unification.after_andThen]
    rfl
  | clash a b eqs hne ho hc =>
    rw [List.cons_append, unify_clash hne ho hc, unify_clash hne ho hc]
    rfl

/-! ### Where the bindings come from -/

/-- What holds of all types of the equations, and passes to components and through replacing, holds
of all bindings, and of the types of a conflict. -/
theorem forall_types {P : Ty → Prop} (hfn : ∀ {a r}, P (.fn a r) → P a ∧ P r)
    (hlist : ∀ {e}, P (.list e) → P e) (hreplace : ∀ {s t} u, P s → P t → P (s.replace u t))
    (eqs : Equations) (h : ∀ e ∈ eqs, P e.1 ∧ P e.2) :
    (∀ p ∈ eqs.unify.bindings, P (.unknown p.1) ∧ P p.2) ∧
      ∀ c ∈ eqs.unify.conflict, ∀ t ∈ c.types, P t := by
  induction eqs using run_induction with
  | nil => rw [unify_nil]; exact ⟨by simp, by simp [Unification.done]⟩
  | equal a rest ih => rw [unify_equal]; exact ih (List.forall_mem_cons.1 h).2
  | occurs a b rest u t hne ho hu =>
    obtain ⟨⟨ha, hb⟩, -⟩ := List.forall_mem_cons.1 h
    rw [unify_occurs hne ho hu]
    refine ⟨by simp, ?_⟩
    rintro c ⟨⟩
    rcases Ty.orient?_eq_some ho with ⟨rfl, rfl⟩ | ⟨rfl, rfl⟩
    · exact List.forall_mem_cons.2 ⟨ha, List.forall_mem_singleton.2 hb⟩
    · exact List.forall_mem_cons.2 ⟨hb, List.forall_mem_singleton.2 ha⟩
  | solve a b rest u t hne ho hu ih =>
    obtain ⟨⟨ha, hb⟩, hrest⟩ := List.forall_mem_cons.1 h
    have hut : P (.unknown u) ∧ P t := by
      rcases Ty.orient?_eq_some ho with ⟨rfl, rfl⟩ | ⟨rfl, rfl⟩
      · exact ⟨ha, hb⟩
      · exact ⟨hb, ha⟩
    rw [unify_solve hne ho hu]
    obtain ⟨hbindings, hconflict⟩ := ih (List.forall_mem_map.2 fun e he =>
      ⟨hreplace u (hrest e he).1 hut.2, hreplace u (hrest e he).2 hut.2⟩)
    exact ⟨List.forall_mem_cons.2 ⟨hut, hbindings⟩, hconflict⟩
  | split a b rest parts hne ho hc ih =>
    obtain ⟨⟨ha, hb⟩, hrest⟩ := List.forall_mem_cons.1 h
    rw [unify_split hne ho hc]
    refine ih (List.forall_mem_append.2 ⟨?_, hrest⟩)
    rcases Ty.components?_eq_some hc with ⟨a₁, r₁, a₂, r₂, rfl, rfl, rfl⟩ | ⟨e₁, e₂, rfl, rfl, rfl⟩
    · simp only [List.forall_mem_cons]
      exact ⟨⟨(hfn ha).1, (hfn hb).1⟩, ⟨(hfn ha).2, (hfn hb).2⟩, by simp⟩
    · exact List.forall_mem_singleton.2 ⟨hlist ha, hlist hb⟩
  | clash a b rest hne ho hc =>
    obtain ⟨⟨ha, hb⟩, -⟩ := List.forall_mem_cons.1 h
    rw [unify_clash hne ho hc]
    refine ⟨by simp, ?_⟩
    rintro c ⟨⟩
    exact List.forall_mem_cons.2 ⟨ha, List.forall_mem_singleton.2 hb⟩

theorem mem_unknowns_orient {a b t : Ty} {u v : Nat} (ho : a.orient? b = some (u, t))
    (hv : v = u ∨ v ∈ t.unknowns) : v ∈ a.unknowns ∨ v ∈ b.unknowns := by
  rcases Ty.orient?_eq_some ho with ⟨rfl, rfl⟩ | ⟨rfl, rfl⟩
  · simpa [Ty.unknowns] using hv
  · simpa [Ty.unknowns] using hv.symm

theorem mem_unknowns_of_mem {e : Ty × Ty} {v : Nat} (he : e ∈ eqs)
    (hv : v ∈ e.1.unknowns ∨ v ∈ e.2.unknowns) : v ∈ eqs.unknowns := by
  induction eqs with
  | nil => cases he
  | cons f eqs ih =>
    obtain ⟨a, b⟩ := f
    rcases List.mem_cons.1 he with rfl | he
    · exact List.mem_append_left _ (List.mem_append.2 hv)
    · exact List.mem_append_right _ (ih he)

/-- A binding speaks of unknowns of the equations only. -/
theorem mem_unknowns_of_bindings (eqs : Equations) {v : Nat} {p : Nat × Ty}
    (hp : p ∈ eqs.unify.bindings) (hv : v = p.1 ∨ v ∈ p.2.unknowns) : v ∈ eqs.unknowns := by
  have hall := forall_types (P := fun t => ∀ v ∈ t.unknowns, v ∈ eqs.unknowns)
    (fun h => ⟨fun v hv => h v (List.mem_append_left _ hv),
      fun v hv => h v (List.mem_append_right _ hv)⟩)
    (fun h => h)
    (fun u hs ht v hv => by
      rcases Ty.mem_unknowns_replace.1 hv with ⟨-, hv⟩ | ⟨hv, -⟩
      · exact ht v hv
      · exact hs v hv)
    eqs fun e he => ⟨fun v hv => mem_unknowns_of_mem he (.inl hv),
      fun v hv => mem_unknowns_of_mem he (.inr hv)⟩
  obtain ⟨hkey, hty⟩ := hall.1 p hp
  rcases hv with rfl | hv
  · exact hkey _ (List.mem_singleton_self _)
  · exact hty v hv

theorem triangular_bindings (eqs : Equations) : Triangular eqs.unify.bindings := by
  induction eqs using run_induction with
  | nil => rw [unify_nil]; exact ⟨by simp, .nil⟩
  | equal a rest ih => rw [unify_equal]; exact ih
  | occurs a b rest u t hne ho hu => rw [unify_occurs hne ho hu]; exact ⟨by simp, .nil⟩
  | solve a b rest u t hne ho hu ih =>
    rw [unify_solve hne ho hu]
    refine ⟨List.forall_mem_cons.2 ⟨hu, ih.own⟩, .cons ?_ ih.later⟩
    -- `u` is replaced in what is left, so no later binding can speak of it
    have gone : u ∉ (rest.replace u t).unknowns := by
      intro hmem
      rcases mem_unknowns_replace hmem with ⟨-, hw⟩ | ⟨-, hw⟩
      · exact hu hw
      · exact hw rfl
    intro p hp
    exact ⟨fun e => gone (mem_unknowns_of_bindings _ hp (.inl e.symm)),
      fun e => gone (mem_unknowns_of_bindings _ hp (.inr e))⟩
  | split a b rest eqs hne ho hc ih => rw [unify_split hne ho hc]; exact ih
  | clash a b rest hne ho hc => rw [unify_clash hne ho hc]; exact ⟨by simp, .nil⟩

end Equations
end LetPoly
