import LetPoly.Ty.Solution

/-! Most general unifiers, one equation at a time. The recursion ends because solving an unknown
removes it from the equations that are left (`count_solve_lt`), and taking a pair of arrows or lists
apart makes them smaller (`measure_components`). -/

namespace LetPoly

/-- Why two types cannot be made equal. -/
inductive Conflict where
  | mismatch (expected found : Ty)
  | occurs (unknown : Nat) (ty : Ty)
deriving DecidableEq, Repr

namespace Conflict

def message : Conflict → String
  | mismatch e f => "type mismatch: expected " ++ e.render ++ ", found " ++ f.render
  | occurs u t =>
    "occurs check failed: cannot construct infinite type u" ++ toString u ++ " = " ++ t.render

end Conflict

/-- What unification does, as it does it. -/
inductive Step where
  | compare (left right : Ty)
  | solve (unknown : Nat) (ty : Ty)
deriving DecidableEq, Repr

def Step.binding? : Step → Option (Nat × Ty)
  | compare _ _ => none
  | solve u t => some (u, t)

/-- A run of unification: its steps in order, and the conflict that stopped it. -/
structure Unification where
  steps : List Step
  conflict : Option Conflict
deriving DecidableEq, Repr

namespace Unification

def done : Unification := ⟨[], none⟩

def fail (c : Conflict) : Unification := ⟨[], some c⟩

def after (step : Step) (r : Unification) : Unification := { r with steps := step :: r.steps }

/-- The unknowns solved, in order. -/
def bindings (r : Unification) : List (Nat × Ty) := r.steps.filterMap Step.binding?

end Unification

/-- Types to be made equal, from left to right. -/
abbrev Equations := List (Ty × Ty)

namespace Equations

def unknowns : Equations → List Nat
  | [] => []
  | (a, b) :: eqs => a.unknowns ++ b.unknowns ++ unknowns eqs

def count (eqs : Equations) : Nat := (ascending eqs.unknowns).length

def size : Equations → Nat
  | [] => 0
  | (a, b) :: eqs => a.size + b.size + size eqs

def replace (eqs : Equations) (u : Nat) (t : Ty) : Equations :=
  eqs.map fun e => (e.1.replace u t, e.2.replace u t)

theorem mem_unknowns_replace {eqs : Equations} {u v : Nat} {t : Ty}
    (h : v ∈ (eqs.replace u t).unknowns) :
    (u ∈ eqs.unknowns ∧ v ∈ t.unknowns) ∨ (v ∈ eqs.unknowns ∧ v ≠ u) := by
  induction eqs with
  | nil => simp [replace, unknowns] at h
  | cons e eqs ih =>
    simp only [replace, List.map_cons, unknowns, List.mem_append, Ty.mem_unknowns_replace] at h
    simp only [unknowns, List.mem_append]
    rcases h with ((h | h) | (h | h)) | h
    · exact .inl ⟨.inl (.inl h.1), h.2⟩
    · exact .inr ⟨.inl (.inl h.1), h.2⟩
    · exact .inl ⟨.inl (.inr h.1), h.2⟩
    · exact .inr ⟨.inl (.inr h.1), h.2⟩
    · rcases ih h with h | h
      · exact .inl ⟨.inr h.1, h.2⟩
      · exact .inr ⟨.inr h.1, h.2⟩

end Equations

theorem length_le_of_subset {xs : List Nat} (ys : List Nat) (hx : xs.Pairwise (· < ·))
    (h : ∀ x ∈ xs, x ∈ ys) : xs.length ≤ ys.length := by
  induction xs generalizing ys with
  | nil => simp
  | cons x xs ih =>
    obtain ⟨hlt, hx⟩ := List.pairwise_cons.1 hx
    have hmem := h x (by simp)
    have := ih (ys.erase x) hx fun y hy => by
      have hne : y ≠ x := fun e => Nat.lt_irrefl x (e ▸ hlt y hy)
      exact (List.mem_erase_of_ne hne).2 (h y (by simp [hy]))
    have := List.length_erase_of_mem hmem
    have := List.length_pos_of_mem hmem
    simp only [List.length_cons]
    omega

theorem count_le {eqs eqs' : Equations} (h : ∀ v ∈ eqs'.unknowns, v ∈ eqs.unknowns) :
    eqs'.count ≤ eqs.count :=
  length_le_of_subset _ (pairwise_ascending _) fun v hv =>
    mem_ascending.2 (h v (mem_ascending.1 hv))

theorem count_lt {eqs eqs' : Equations} {u : Nat} (h : ∀ v ∈ eqs'.unknowns, v ∈ eqs.unknowns)
    (hu : u ∈ eqs.unknowns) (hu' : u ∉ eqs'.unknowns) : eqs'.count < eqs.count := by
  have hmem := mem_ascending.2 hu
  have := length_le_of_subset ((ascending eqs.unknowns).erase u)
    (pairwise_ascending eqs'.unknowns) fun v hv => by
      have hv := mem_ascending.1 hv
      have hne : v ≠ u := fun e => hu' (e ▸ hv)
      exact (List.mem_erase_of_ne hne).2 (mem_ascending.2 (h v hv))
  have := List.length_erase_of_mem hmem
  have := List.length_pos_of_mem hmem
  simp only [Equations.count]
  omega

/-- The unknown that a pair solves, the left one first, and what it is to stand for. -/
def Ty.orient? : Ty → Ty → Option (Nat × Ty)
  | .unknown u, t => some (u, t)
  | t, .unknown u => some (u, t)
  | _, _ => none

/-- The equations between the components of two types of one shape. -/
def Ty.components? : Ty → Ty → Option Equations
  | .fn a r, .fn a' r' => some [(a, a'), (r, r')]
  | .list e, .list e' => some [(e, e')]
  | _, _ => none

theorem Ty.orient?_eq_some {a b t : Ty} {u : Nat} (h : a.orient? b = some (u, t)) :
    (a = .unknown u ∧ b = t) ∨ (b = .unknown u ∧ a = t) := by
  unfold orient? at h
  split at h <;> simp_all

theorem Ty.orient?_eq_none {a b : Ty} :
    a.orient? b = none ↔ (∀ u, a ≠ .unknown u) ∧ ∀ u, b ≠ .unknown u := by
  cases a <;> cases b <;> simp [orient?]

theorem Ty.components?_eq_some {a b : Ty} {eqs : Equations} (h : a.components? b = some eqs) :
    (∃ a₁ r₁ a₂ r₂, a = .fn a₁ r₁ ∧ b = .fn a₂ r₂ ∧ eqs = [(a₁, a₂), (r₁, r₂)]) ∨
      ∃ e₁ e₂, a = .list e₁ ∧ b = .list e₂ ∧ eqs = [(e₁, e₂)] := by
  unfold components? at h
  split at h
  · exact .inl ⟨_, _, _, _, rfl, rfl, (Option.some.inj h).symm⟩
  · exact .inr ⟨_, _, rfl, rfl, (Option.some.inj h).symm⟩
  · cases h

theorem count_solve_lt {a b t : Ty} {u : Nat} {rest : Equations} (h : a.orient? b = some (u, t))
    (hu : u ∉ t.unknowns) : (Equations.replace rest u t).count < Equations.count ((a, b) :: rest) := by
  have hmem : u ∈ Equations.unknowns ((a, b) :: rest) ∧
      ∀ v ∈ t.unknowns, v ∈ Equations.unknowns ((a, b) :: rest) := by
    rcases Ty.orient?_eq_some h with ⟨rfl, rfl⟩ | ⟨rfl, rfl⟩ <;>
      simp +contextual [Equations.unknowns, Ty.unknowns]
  refine count_lt (u := u) (fun v hv => ?_) hmem.1 fun hv => ?_
  · rcases Equations.mem_unknowns_replace hv with hv | hv
    · exact hmem.2 v hv.2
    · exact by simp [Equations.unknowns, hv.1]
  · rcases Equations.mem_unknowns_replace hv with hv | hv
    · exact hu hv.2
    · exact hv.2 rfl

theorem measure_components {a b : Ty} {eqs rest : Equations} (h : a.components? b = some eqs) :
    (eqs ++ rest : Equations).count ≤ Equations.count ((a, b) :: rest) ∧
      (eqs ++ rest : Equations).size < Equations.size ((a, b) :: rest) := by
  rcases Ty.components?_eq_some h with ⟨a₁, r₁, a₂, r₂, rfl, rfl, rfl⟩ | ⟨e₁, e₂, rfl, rfl, rfl⟩
  · refine ⟨count_le fun v hv => ?_, by simp [Equations.size, Ty.size]; omega⟩
    simp only [List.cons_append, List.nil_append, Equations.unknowns, Ty.unknowns,
      List.mem_append] at hv ⊢
    grind
  · exact ⟨count_le fun v hv => hv, by simp [Equations.size, Ty.size]; omega⟩

theorem lex_of_le_of_lt {a a' b b' : Nat} (ha : a' ≤ a) (hb : b' < b) :
    Prod.Lex (· < ·) (· < ·) (a', b') (a, b) := by
  rcases Nat.lt_or_eq_of_le ha with ha | rfl
  · exact .left _ _ ha
  · exact .right _ hb

/-- Makes the equations true from left to right. What an unknown is solved to replaces it in the
equations still to come. -/
def Equations.unify : Equations → Unification
  | [] => .done
  | (a, b) :: rest =>
    Unification.after (.compare a b) <|
      if a = b then unify rest
      else
        match _h : a.orient? b with
        | some (u, t) =>
          if _hu : u ∈ t.unknowns then .fail (.occurs u t)
          else (unify (Equations.replace rest u t)).after (.solve u t)
        | none =>
          match _hc : a.components? b with
          | some eqs => unify (eqs ++ rest)
          | none => .fail (.mismatch a b)
termination_by eqs => (eqs.count, eqs.size)
decreasing_by
  · exact lex_of_le_of_lt (count_le fun v hv => by simp [unknowns, hv])
      (by simp only [size]; have := a.size_pos; omega)
  · exact .left _ _ (count_solve_lt _h _hu)
  · exact lex_of_le_of_lt (measure_components _hc).1 (measure_components _hc).2

/-- Makes two types equal. -/
def Ty.unify (a b : Ty) : Unification := Equations.unify [(a, b)]

namespace Solution

/-- The run that makes two types equal as far as they are not solved yet. -/
def unification (s : Solution) (a b : Ty) : Unification := (s.apply a).unify (s.apply b)

/-- Makes two types equal. What was solved before a conflict stays solved. -/
def unify (s : Solution) (a b : Ty) : Except Conflict Unit × Solution :=
  let r := s.unification a b
  (match r.conflict with
    | none => .ok ()
    | some c => .error c, s.extend r.bindings)

/-- Records what one unknown stands for, unless that mentions it. -/
def solve (s : Solution) (u : Nat) (t : Ty) : Except Conflict Unit × Solution :=
  if u ∈ t.unknowns then (.error (.occurs u t), s) else (.ok (), s.insert u t)

end Solution
end LetPoly
