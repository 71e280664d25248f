import Mathlib.Logic.Function.Basic
import LetPoly.Proofs.Typing

/-! Expressions put for the free names of an expression, all at once. A binder that would capture a free
name of what is put in its scope gets another name (`mem_freeVars_put`). An expression keeps its types if
what is put has the types of the name that it is put for (`typed_put_iff`). -/

namespace LetPoly

namespace Expr

/-- The first of `x`, `x'`, `x''` and so on that is none of `names`, if `k` are enough to look at. -/
def avoid (names : List String) : Nat → String → String
  | 0, x => x
  | k + 1, x => if x ∈ names then avoid names k (x ++ "'") else x

theorem avoid_of_not_mem {names : List String} {x : String} (hx : x ∉ names) (k : Nat) :
    avoid names k x = x := by
  cases k with
  | zero => rfl
  | succ k => exact if_neg hx

/-- A name that is passed over is shorter than the next one, so that there are no more of these than of
names that are as long as the first. -/
theorem avoid_not_mem {names longer : List String} {k : Nat} {x : String} (hk : longer.length ≤ k)
    (h : ∀ name ∈ names, x.length ≤ name.length → name ∈ longer) : avoid names k x ∉ names := by
  induction k generalizing x longer with
  | zero =>
    intro hx
    have hmem := h x hx le_rfl
    rw [List.length_eq_zero_iff.1 (Nat.le_zero.1 hk)] at hmem
    cases hmem
  | succ k ih =>
    rw [avoid]
    split
    · next hx =>
      have hrest : (longer.erase x).length ≤ k := by
        rw [List.length_erase_of_mem (h x hx le_rfl)]
        omega
      refine ih hrest fun name hname hle => ?_
      rw [String.length_append] at hle
      have hlt : x.length < name.length := hle
      have hne : name ≠ x := fun e => hlt.ne' (by rw [e])
      exact (List.mem_erase_of_ne hne).2 (h name hname hlt.le)
    · assumption

/-- The free names of what is put in the scope of the binder `x`, where `names` are free. -/
def incoming (σ : String → Expr) (x : String) (names : List String) : List String :=
  (names.filter (· ≠ x)).flatMap fun y => (σ y).freeVars

/-- The name of the binder `x` then: its own, if that captures nothing. -/
def rebind (σ : String → Expr) (x : String) (names : List String) : String :=
  avoid (incoming σ x names) (incoming σ x names).length x

/-- What is put in the scope of the binder `x`, where `names` are free. -/
def under (σ : String → Expr) (x : String) (names : List String) : String → Expr :=
  Function.update σ x (.var (rebind σ x names))

mutual

/-- Puts `σ x` for every free name `x`. -/
def put (σ : String → Expr) : Expr → Expr
  | number n => number n
  | boolean b => boolean b
  | var x => σ x
  | lam x body => lam (rebind σ x body.freeVars) (body.put (under σ x body.freeVars))
  | app f a => app (f.put σ) (a.put σ)
  | ite c t e => ite (c.put σ) (t.put σ) (e.put σ)
  | letIn true x bound body =>
    let names := bound.freeVars ++ body.freeVars
    letIn true (rebind σ x names) (bound.put (under σ x names)) (body.put (under σ x names))
  | letIn false x bound body =>
    letIn false (rebind σ x body.freeVars) (bound.put σ) (body.put (under σ x body.freeVars))
  | list items => list (putAll σ items)
  | prim op => prim op
  | closure id x body env self => closure id x body env self

def putAll (σ : String → Expr) : List Expr → List Expr
  | [] => []
  | e :: es => e.put σ :: putAll σ es

end

/-- Puts `v` for the free occurrences of `x`. -/
def replaceFree (e : Expr) (x : String) (v : Expr) : Expr := e.put (Function.update .var x v)

variable {σ : String → Expr} {e : Expr} {names : List String} {x y : String}

theorem putAll_eq_map (σ : String → Expr) (es : List Expr) : putAll σ es = es.map (put σ) := by
  induction es with
  | nil => rfl
  | cons e es ih => rw [putAll, ih, List.map_cons]

theorem mem_incoming : y ∈ incoming σ x names ↔ ∃ z ∈ names, z ≠ x ∧ y ∈ (σ z).freeVars := by
  simp [incoming, and_assoc]

theorem under_self (σ : String → Expr) (x : String) (names : List String) :
    under σ x names x = .var (rebind σ x names) :=
  Function.update_self ..

theorem under_of_ne (h : y ≠ x) : under σ x names y = σ y := Function.update_of_ne h ..

/-- The binder of a scope captures nothing of what is put there. -/
theorem rebind_not_mem_incoming (σ : String → Expr) (x : String) (names : List String) :
    rebind σ x names ∉ incoming σ x names :=
  avoid_not_mem le_rfl fun _ hname _ => hname

/-- What is free in such a scope, and is not its binder, comes from what is put there. -/
theorem mem_filter_rebind {inner : List String}
    (h : y ∈ inner ↔ ∃ z ∈ names, y ∈ (under σ x names z).freeVars) :
    y ∈ inner.filter (· ≠ rebind σ x names) ↔ ∃ z ∈ names.filter (· ≠ x), y ∈ (σ z).freeVars := by
  rw [List.mem_filter, decide_eq_true_eq, h]
  constructor
  · rintro ⟨⟨z, hz, hy⟩, hne⟩
    have hzx : z ≠ x := by
      rintro rfl
      rw [under_self] at hy
      exact hne (List.mem_singleton.1 hy)
    rw [under_of_ne hzx] at hy
    exact ⟨z, List.mem_filter.2 ⟨hz, decide_eq_true hzx⟩, hy⟩
  · rintro ⟨z, hz, hy⟩
    obtain ⟨hz, hzx⟩ := List.mem_filter.1 hz
    have hzx := of_decide_eq_true hzx
    refine ⟨⟨z, hz, by rwa [under_of_ne hzx]⟩, ?_⟩
    rintro rfl
    exact rebind_not_mem_incoming σ x names (mem_incoming.2 ⟨z, hz, hzx, hy⟩)

/-- What is put for a free name comes with its own free names, and nothing else becomes free. -/
theorem mem_freeVars_put :
    y ∈ (e.put σ).freeVars ↔ ∃ x ∈ e.freeVars, y ∈ (σ x).freeVars := by
  induction e using Expr.induct generalizing σ with
  | number | boolean | prim | closure => simp [put, freeVars]
  | var x => simp [put, freeVars]
  | lam x body ih => exact mem_filter_rebind ih
  | app f a ihf iha => simp only [put, freeVars, List.mem_append, ihf, iha, or_and_right, exists_or]
  | ite c t e ihc iht ihe =>
    simp only [put, freeVars, List.mem_append, ihc, iht, ihe, or_and_right, exists_or]
  | letIn recursive x bound body ih ihbody =>
    cases recursive with
    | true =>
      refine mem_filter_rebind ?_
      simp only [List.mem_append, ih, ihbody, or_and_right, exists_or]
    | false =>
      simp only [put, freeVars, List.mem_append, or_and_right, exists_or]
      exact or_congr ih (mem_filter_rebind ihbody)
  | list items ih =>
    simp only [put, freeVars, putAll_eq_map, mem_freeVarsAll, List.mem_map]
    constructor
    · rintro ⟨_, ⟨e, he, rfl⟩, hy⟩
      obtain ⟨z, hz, hy⟩ := (ih e he).1 hy
      exact ⟨z, ⟨e, he, hz⟩, hy⟩
    · rintro ⟨z, ⟨e, he, hz⟩, hy⟩
      exact ⟨_, ⟨e, he, rfl⟩, (ih e he).2 ⟨z, hz, hy⟩⟩

theorem rebind_eq_self (h : ∀ y ∈ names.filter (· ≠ x), σ y = .var y) : rebind σ x names = x := by
  refine avoid_of_not_mem (fun hx => ?_) _
  obtain ⟨y, hy, hne, hx⟩ := mem_incoming.1 hx
  rw [h y (List.mem_filter.2 ⟨hy, decide_eq_true hne⟩)] at hx
  exact hne (List.mem_singleton.1 hx).symm

theorem under_eq_var (h : ∀ y ∈ names.filter (· ≠ x), σ y = .var y) :
    ∀ y ∈ names, under σ x names y = .var y := by
  intro y hy
  by_cases hne : y = x
  · rw [hne, under_self, rebind_eq_self h]
  · rw [under_of_ne hne, h y (List.mem_filter.2 ⟨hy, decide_eq_true hne⟩)]

/-- Nothing is renamed that does not have to be. -/
theorem put_eq_self (h : ∀ y ∈ e.freeVars, σ y = .var y) : e.put σ = e := by
  induction e using Expr.induct generalizing σ with
  | number | boolean | prim | closure => rfl
  | var x => exact h x (List.mem_singleton_self x)
  | lam x body ih => rw [put, rebind_eq_self h, ih (under_eq_var h)]
  | app f a ihf iha =>
    obtain ⟨hf, ha⟩ := List.forall_mem_append.1 h
    rw [put, ihf hf, iha ha]
  | ite c t e ihc iht ihe =>
    obtain ⟨h, he⟩ := List.forall_mem_append.1 h
    obtain ⟨hc, ht⟩ := List.forall_mem_append.1 h
    rw [put, ihc hc, iht ht, ihe he]
  | letIn recursive x bound body ih ihbody =>
    cases recursive with
    | true =>
      obtain ⟨hbound, hbody⟩ := List.forall_mem_append.1 (under_eq_var h)
      rw [put, rebind_eq_self h, ih hbound, ihbody hbody]
    | false =>
      obtain ⟨hbound, hbody⟩ := List.forall_mem_append.1 h
      rw [put, rebind_eq_self hbody, ih hbound, ihbody (under_eq_var hbody)]
  | list items ih =>
    have hitems : ∀ e ∈ items, e.put σ = id e := fun e he =>
      ih e he fun y hy => h y (mem_freeVarsAll.2 ⟨e, he, hy⟩)
    rw [put, putAll_eq_map, List.map_congr_left hitems, List.map_id]

theorem mem_freeVars_replaceFree {v : Expr} :
    y ∈ (e.replaceFree x v).freeVars ↔ y ∈ e.freeVars ∧ y ≠ x ∨ x ∈ e.freeVars ∧ y ∈ v.freeVars := by
  rw [replaceFree, mem_freeVars_put]
  constructor
  · rintro ⟨z, hz, hy⟩
    by_cases hzx : z = x
    · rw [hzx, Function.update_self] at hy
      exact .inr ⟨hzx ▸ hz, hy⟩
    · rw [Function.update_of_ne hzx] at hy
      obtain rfl := List.mem_singleton.1 hy
      exact .inl ⟨hz, hzx⟩
  · rintro (⟨hy, hyx⟩ | ⟨hx, hy⟩)
    · exact ⟨y, hy, by simp [Function.update_of_ne hyx, freeVars]⟩
    · exact ⟨x, hx, by rwa [Function.update_self]⟩

theorem replaceFree_of_not_mem (hx : x ∉ e.freeVars) (v : Expr) : e.replaceFree x v = e := by
  refine put_eq_self fun y hy => ?_
  have hne : y ≠ x := fun h => hx (h ▸ hy)
  rw [Function.update_of_ne hne]

end Expr

section Typing
open LetPoly.Expr

variable {Γ Δ : Context} {σ : String → Expr} {names : List String} {x : String} {e : Expr} {t : Ty}

/-- What is put for these names has the types that they have in `Δ`. -/
def Represents (Γ : Context) (σ : String → Expr) (Δ : Context) (names : List String) : Prop :=
  ∀ y ∈ names, ∀ t, Typed Γ (σ y) t ↔ Typed Δ (.var y) t

theorem Represents.under (h : Represents Γ σ Δ (names.filter (· ≠ x))) (s : Scheme) :
    Represents (Γ.insert (rebind σ x names) s) (under σ x names) (Δ.insert x s) names := by
  intro y hy t
  by_cases hne : y = x
  · rw [hne, under_self, typed_var_insert, typed_var_insert]
  · have hfresh : rebind σ x names ∉ (σ y).freeVars := fun hmem =>
      rebind_not_mem_incoming σ x names (mem_incoming.2 ⟨y, hy, hne, hmem⟩)
    rw [under_of_ne hne, typed_insert_iff hfresh, typed_var_insert_of_ne hne]
    exact h y (List.mem_filter.2 ⟨hy, decide_eq_true hne⟩) t

theorem represents_append {names' : List String} :
    Represents Γ σ Δ (names ++ names') ↔ Represents Γ σ Δ names ∧ Represents Γ σ Δ names' :=
  List.forall_mem_append

theorem typed_put_iff (h : Represents Γ σ Δ e.freeVars) : Typed Γ (e.put σ) t ↔ Typed Δ e t := by
  induction e using Expr.induct generalizing Γ Δ σ t with
  | number n => rw [put, typed_number_iff, typed_number_iff]
  | boolean b => rw [put, typed_boolean_iff, typed_boolean_iff]
  | var x => exact h x (List.mem_singleton_self x) t
  | lam x body ih =>
    rw [put, typed_lam_iff, typed_lam_iff]
    exact exists_congr fun a => exists_congr fun r => and_congr_right fun _ => ih (h.under _)
  | app f e ihf ihe =>
    obtain ⟨hf, he⟩ := represents_append.1 h
    rw [put, typed_app_iff, typed_app_iff]
    exact exists_congr fun a => and_congr (ihf hf) (ihe he)
  | ite c e₁ e₂ ihc ih₁ ih₂ =>
    obtain ⟨h, h₂⟩ := represents_append.1 h
    obtain ⟨hc, h₁⟩ := represents_append.1 h
    rw [put, typed_ite_iff, typed_ite_iff]
    exact and_congr (ihc hc) (and_congr (ih₁ h₁) (ih₂ h₂))
  | letIn recursive x e body ihe ihbody =>
    cases recursive with
    | true =>
      have hinner := fun a => represents_append.1 (h.under (.ofTy a))
      rw [put, typed_letRec_iff, typed_letRec_iff]
      exact exists_congr fun a => and_congr (ihe (hinner a).1) (ihbody (hinner a).2)
    | false =>
      obtain ⟨he, hbody⟩ := represents_append.1 h
      rw [put, typed_let_iff, typed_let_iff]
      exact exists_congr fun s => and_congr (forall_congr' fun ρ => ihe he) (ihbody (hbody.under s))
  | list items ih =>
    have hitems : ∀ e ∈ items, Represents Γ σ Δ e.freeVars := fun e he y hy =>
      h y (mem_freeVarsAll.2 ⟨e, he, hy⟩)
    rw [put, putAll_eq_map, typed_list_iff, typed_list_iff]
    refine exists_congr fun a => and_congr_right fun _ => ?_
    rw [List.forall_mem_map]
    exact forall₂_congr fun e he => ih e he (hitems e he)
  | prim | closure => constructor <;> rintro ⟨⟩

/-- An expression whose types are the instances of a scheme may be put for a name with that scheme. -/
theorem typed_replaceFree_iff {v : Expr} {s : Scheme}
    (hv : ∀ t, Typed Γ v t ↔ ∃ ρ, t = s.inst .unknown ρ) :
    Typed Γ (e.replaceFree x v) t ↔ Typed (Γ.insert x s) e t := by
  refine typed_put_iff fun y _ t => ?_
  by_cases hne : y = x
  · rw [hne, Function.update_self, typed_var_insert, hv]
  · rw [Function.update_of_ne hne, typed_var_insert_of_ne hne]

end Typing
end LetPoly
