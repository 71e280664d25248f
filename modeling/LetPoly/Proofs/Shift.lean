import LetPoly.Proofs.Recording
import LetPoly.Proofs.Typing

/-! Unknowns counted from another number on. Neither unification nor resolving compares unknowns for more
than being the same, so a run on shifted equations is the shifted run (`Equations.unify_shift`). A shifted
solution may lie on top of another one that has no entry for any of its unknowns: what it resolves, and what
is recorded in it, stays as it was but for the shift (`Solution.apply_atop`, `Solution.extend_atop`). -/

namespace LetPoly

namespace Ty

variable {n u v : Nat} {a b s t : Ty}

/-- The type with `n` added to every unknown. -/
def shift (n : Nat) (t : Ty) : Ty := t.subst fun u => .unknown (n + u)

@[simp] theorem shift_unknown : shift n (.unknown u) = .unknown (n + u) := rfl

@[simp] theorem shift_fn : shift n (.fn a b) = .fn (a.shift n) (b.shift n) := rfl

@[simp] theorem shift_list : shift n (.list t) = .list (t.shift n) := rfl

theorem mem_unknowns_shift : v ∈ (t.shift n).unknowns ↔ ∃ u ∈ t.unknowns, v = n + u := by
  simp [shift, mem_unknowns_subst, unknowns]

theorem add_mem_unknowns_shift : n + u ∈ (t.shift n).unknowns ↔ u ∈ t.unknowns := by
  simp [mem_unknowns_shift]

theorem shift_subst (n : Nat) (σ : Nat → Ty) (t : Ty) :
    (t.shift n).subst σ = t.subst fun u => σ (n + u) := by
  rw [shift, subst_subst]
  rfl

theorem subst_shift (n : Nat) (σ : Nat → Ty) (t : Ty) :
    (t.subst σ).shift n = t.subst fun u => (σ u).shift n := subst_subst ..

theorem vars_shift (n : Nat) (t : Ty) : (t.shift n).vars = t.vars := by
  induction t with
  | number | boolean | var | unknown => rfl
  | fn a r iha ihr => rw [shift_fn, vars, vars, iha, ihr]
  | list e ih => rw [shift_list, vars, vars, ih]

theorem shift_injective (n : Nat) : Function.Injective (shift n) := by
  have hback : ∀ t : Ty, ((t.shift n).subst fun u => unknown (u - n)) = t := by
    intro t
    simp only [shift_subst, Nat.add_sub_cancel_left]
    exact subst_unknown t
  exact Function.LeftInverse.injective hback

theorem replace_shift (n u : Nat) (s t : Ty) :
    (s.replace u t).shift n = (s.shift n).replace (n + u) (t.shift n) := by
  rw [replace, replace, subst_shift, shift_subst]
  refine subst_congr fun v _ => ?_
  by_cases hv : v = u <;> simp [hv]

theorem orient?_shift (n : Nat) (a b : Ty) :
    (a.shift n).orient? (b.shift n) = (a.orient? b).map fun p => (n + p.1, p.2.shift n) := by
  cases a <;> cases b <;> rfl

end Ty

/-! ### Runs of unification -/

def Conflict.shift (n : Nat) : Conflict → Conflict
  | mismatch expected found => mismatch (expected.shift n) (found.shift n)
  | occurs u t => occurs (n + u) (t.shift n)

def Step.shift (n : Nat) : Step → Step
  | compare left right => compare (left.shift n) (right.shift n)
  | solve u t => solve (n + u) (t.shift n)

def Unification.shift (n : Nat) (r : Unification) : Unification :=
  ⟨r.steps.map (Step.shift n), r.conflict.map (Conflict.shift n)⟩

def Solution.shift (n : Nat) (s : Solution) : Solution := s.map fun b => (n + b.1, b.2.shift n)

theorem Unification.bindings_shift (n : Nat) (r : Unification) :
    (r.shift n).bindings = Solution.shift n r.bindings := by
  rw [bindings, bindings, Solution.shift, shift, List.filterMap_map, List.map_filterMap]
  refine List.filterMap_congr fun step _ => ?_
  cases step <;> rfl

namespace Equations

variable {a b : Ty} {eqs rest : Equations}

def shift (n : Nat) (eqs : Equations) : Equations := eqs.map fun e => (e.1.shift n, e.2.shift n)

theorem shift_cons (n : Nat) :
    shift n ((a, b) :: rest) = (a.shift n, b.shift n) :: rest.shift n := rfl

theorem shift_append (n : Nat) : shift n (eqs ++ rest) = eqs.shift n ++ rest.shift n := List.map_append

theorem replace_shift (n u : Nat) (t : Ty) (eqs : Equations) :
    (eqs.replace u t).shift n = (eqs.shift n).replace (n + u) (t.shift n) := by
  simp only [shift, replace, List.map_map]
  exact List.map_congr_left fun e _ => Prod.ext (Ty.replace_shift n u e.1 t) (Ty.replace_shift n u e.2 t)

theorem components?_shift (n : Nat) (a b : Ty) :
    (a.shift n).components? (b.shift n) = (a.components? b).map (shift n) := by
  cases a <;> cases b <;> rfl

theorem unify_shift (n : Nat) (eqs : Equations) : (eqs.shift n).unify = eqs.unify.shift n := by
  induction eqs using run_induction with
  | nil => rw [shift, List.map_nil, unify_nil]; rfl
  | equal a rest ih => rw [shift_cons, unify_equal, unify_equal, ih]; rfl
  | occurs a b rest u t hne ho hu =>
    have ho' : (a.shift n).orient? (b.shift n) = some (n + u, t.shift n) := by
      rw [Ty.orient?_shift, ho]; rfl
    rw [shift_cons, unify_occurs hne ho hu, unify_occurs ((Ty.shift_injective n).ne hne) ho'
      (Ty.add_mem_unknowns_shift.2 hu)]
    rfl
  | solve a b rest u t hne ho hu ih =>
    have ho' : (a.shift n).orient? (b.shift n) = some (n + u, t.shift n) := by
      rw [Ty.orient?_shift, ho]; rfl
    rw [shift_cons, unify_solve hne ho hu, unify_solve ((Ty.shift_injective n).ne hne) ho'
      (mt Ty.add_mem_unknowns_shift.1 hu), ← replace_shift, ih]
    rfl
  | split a b rest parts hne ho hc ih =>
    have ho' : (a.shift n).orient? (b.shift n) = none := by rw [Ty.orient?_shift, ho]; rfl
    have hc' : (a.shift n).components? (b.shift n) = some (parts.shift n) := by
      rw [components?_shift, hc]; rfl
    rw [shift_cons, unify_split hne ho hc, unify_split ((Ty.shift_injective n).ne hne) ho' hc',
      ← shift_append, ih]
    rfl
  | clash a b rest hne ho hc =>
    have ho' : (a.shift n).orient? (b.shift n) = none := by rw [Ty.orient?_shift, ho]; rfl
    have hc' : (a.shift n).components? (b.shift n) = none := by rw [components?_shift, hc]; rfl
    rw [shift_cons, unify_clash hne ho hc, unify_clash ((Ty.shift_injective n).ne hne) ho' hc']
    rfl

end Equations

/-! ### A shifted solution on top of another one -/

namespace Solution

variable {s P : Solution} {n u : Nat} {t : Ty}

/-- The entries of `s` with `n` added to all unknowns, before those of `P`. -/
def atop (n : Nat) (s P : Solution) : Solution := s.shift n ++ P

theorem get?_atop (h : P.get? (n + u) = none) : (atop n s P).get? (n + u) = (s.get? u).map (Ty.shift n) := by
  rw [atop, Bindings.get?_append, h, Option.or_none]
  induction s with
  | nil => rfl
  | cons b s ih =>
    obtain ⟨v, t⟩ := b
    by_cases hv : v = u
    · simp [shift, Bindings.get?, hv]
    · simpa [shift, Bindings.get?, hv] using ih

theorem insert_atop (h : P.get? (n + u) = none) (s : Solution) (t : Ty) :
    (atop n s P).insert (n + u) (t.shift n) = atop n (s.insert u t) P := by
  have hbelow : P.erase (n + u) = P :=
    List.filter_eq_self.2 fun b hb => decide_eq_true ((Bindings.get?_eq_none_iff P _).1 h b hb)
  have hshift : (s.shift n).erase (n + u) = shift n (s.erase u) := by
    rw [shift, shift, Bindings.erase, Bindings.erase, List.filter_map]
    congr 1
    exact List.filter_congr fun b _ => by simp
  rw [Bindings.insert, atop, Bindings.erase, List.filter_append]
  change _ :: ((s.shift n).erase (n + u) ++ P.erase (n + u)) = _
  rw [hbelow, hshift]
  rfl

theorem extend_atop {bs : List (Nat × Ty)} (h : ∀ b ∈ bs, P.get? (n + b.1) = none) (s : Solution) :
    (atop n s P).extend (shift n bs) = atop n (s.extend bs) P := by
  induction bs generalizing s with
  | nil => rfl
  | cons b bs ih =>
    obtain ⟨hb, hbs⟩ := List.forall_mem_cons.1 h
    change extend ((atop n s P).insert (n + b.1) (b.2.shift n)) (shift n bs) = _
    rw [insert_atop hb, ih hbs]
    rfl

/-- Following entries from an unknown of the upper solution never leads out of it. -/
theorem image_atop {A : Set Nat} (hP : ∀ u ∈ A, P.get? (n + u) = none)
    (hs : ∀ u t, s.get? u = some t → u ∈ A → ∀ v ∈ t.unknowns, v ∈ A) (m : Nat) (hu : u ∈ A) :
    (atop n s P).image m (n + u) = (s.image m u).shift n := by
  induction m generalizing u with
  | zero => rfl
  | succ m ih =>
    simp only [image, get?_atop (hP u hu)]
    cases hg : s.get? u with
    | none => rfl
    | some t =>
      simp only [Option.map_some]
      rw [Ty.shift_subst, Ty.subst_shift]
      exact Ty.subst_congr fun v hv => ih (hs u t hg hu v hv)

theorem apply_atop {A : Set Nat} (hacyclic : s.Acyclic) (hP : ∀ u ∈ A, P.get? (n + u) = none)
    (hs : ∀ u t, s.get? u = some t → u ∈ A → ∀ v ∈ t.unknowns, v ∈ A) (ht : ∀ u ∈ t.unknowns, u ∈ A) :
    (atop n s P).apply (t.shift n) = (s.apply t).shift n := by
  rw [apply, apply, Ty.shift_subst, Ty.subst_shift]
  refine Ty.subst_congr fun u hu => ?_
  -- the entries below only add to the steps that may be taken
  have hle : s.length ≤ (atop n s P).length := by simp [atop, shift]
  have hrank := s.rank_le_length u
  rw [image_atop hP hs _ (ht u hu), image_eq_of_rank_le hacyclic (hrank.trans hle) hrank]

end Solution
end LetPoly
