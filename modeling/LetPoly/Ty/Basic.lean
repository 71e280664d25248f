/-! Types of the language: an `unknown` waits to be solved by unification, a `var` is bound by a
scheme. `subst_congr` and `mem_unknowns_subst` are how the rest of the library reads substitution. -/

namespace LetPoly

/-- A list of numbers as a set: ascending, each once. -/
def insertAscending (n : Nat) : List Nat → List Nat
  | [] => [n]
  | m :: ms => if n < m then n :: m :: ms else if n = m then m :: ms else m :: insertAscending n ms

def ascending (ns : List Nat) : List Nat := ns.foldr insertAscending []

theorem mem_insertAscending {x n : Nat} {ms : List Nat} :
    x ∈ insertAscending n ms ↔ x = n ∨ x ∈ ms := by
  induction ms with
  | nil => simp [insertAscending]
  | cons m ms ih =>
    unfold insertAscending
    split
    · simp
    · split
      · simp_all
      · simp only [List.mem_cons, ih]
        exact or_left_comm

theorem mem_ascending {x : Nat} {ns : List Nat} : x ∈ ascending ns ↔ x ∈ ns := by
  induction ns with
  | nil => simp [ascending]
  | cons n ns ih =>
    change x ∈ insertAscending n (ascending ns) ↔ _
    rw [mem_insertAscending, ih, List.mem_cons]

theorem pairwise_insertAscending {n : Nat} {ms : List Nat} (h : ms.Pairwise (· < ·)) :
    (insertAscending n ms).Pairwise (· < ·) := by
  induction ms with
  | nil => simp [insertAscending]
  | cons m ms ih =>
    obtain ⟨hm, hms⟩ := List.pairwise_cons.1 h
    unfold insertAscending
    split
    · refine List.pairwise_cons.2 ⟨fun x hx => ?_, h⟩
      rcases List.mem_cons.1 hx with rfl | hx
      · assumption
      · exact Nat.lt_trans (by assumption) (hm x hx)
    · split
      · exact h
      · refine List.pairwise_cons.2 ⟨fun x hx => ?_, ih hms⟩
        rcases mem_insertAscending.1 hx with rfl | hx
        · omega
        · exact hm x hx

theorem pairwise_ascending (ns : List Nat) : (ascending ns).Pairwise (· < ·) := by
  induction ns with
  | nil => simp [ascending]
  | cons n ns ih => exact pairwise_insertAscending ih

inductive Ty where
  | number
  | boolean
  | fn (argument result : Ty)
  | list (element : Ty)
  | var (name : String)
  | unknown (id : Nat)
deriving DecidableEq, Repr, Inhabited

namespace Ty

/-- Puts `σ u` for every unknown `u`. -/
def subst (σ : Nat → Ty) : Ty → Ty
  | number => number
  | boolean => boolean
  | fn a r => fn (a.subst σ) (r.subst σ)
  | list e => list (e.subst σ)
  | var name => var name
  | unknown u => σ u

/-- Puts `t` for one unknown. -/
def replace (s : Ty) (u : Nat) (t : Ty) : Ty := s.subst fun v => if v = u then t else unknown v

/-- Puts `t` for a named variable. -/
def substVar (s : Ty) (name : String) (t : Ty) : Ty :=
  match s with
  | number => number
  | boolean => boolean
  | fn a r => fn (a.substVar name t) (r.substVar name t)
  | list e => list (e.substVar name t)
  | var v => if v = name then t else var v
  | unknown u => unknown u

/-- The unknowns from left to right, each as often as it occurs. -/
def unknowns : Ty → List Nat
  | number | boolean | var _ => []
  | fn a r => a.unknowns ++ r.unknowns
  | list e => e.unknowns
  | unknown u => [u]

def freeUnknowns (t : Ty) : List Nat := ascending t.unknowns

def size : Ty → Nat
  | number | boolean | var _ | unknown _ => 1
  | fn a r => 1 + a.size + r.size
  | list e => 1 + e.size

def isFn : Ty → Bool
  | fn _ _ => true
  | _ => false

/-- Arrows lean to the right, so only an arrow in argument position needs parentheses. -/
def render : Ty → String
  | number => "Number"
  | boolean => "Boolean"
  | fn a r => (if a.isFn then "(" ++ a.render ++ ")" else a.render) ++ " -> " ++ r.render
  | list e => "[" ++ e.render ++ "]"
  | var name => name
  | unknown u => "u" ++ toString u

instance : ToString Ty := ⟨render⟩

theorem size_pos (t : Ty) : 0 < t.size := by cases t <;> simp only [size] <;> omega

theorem subst_congr {σ τ : Nat → Ty} {t : Ty} (h : ∀ u ∈ t.unknowns, σ u = τ u) :
    t.subst σ = t.subst τ := by
  induction t with
  | number | boolean | var => rfl
  | fn a r iha ihr =>
    simp only [unknowns, List.mem_append] at h
    simp [subst, iha fun u hu => h u (.inl hu), ihr fun u hu => h u (.inr hu)]
  | list e ih => simp [subst, ih h]
  | unknown u => exact h u (by simp [unknowns])

theorem subst_unknown (t : Ty) : t.subst unknown = t := by
  induction t with
  | number | boolean | var | unknown => rfl
  | fn a r iha ihr => simp [subst, iha, ihr]
  | list e ih => simp [subst, ih]

theorem subst_subst (σ τ : Nat → Ty) (t : Ty) :
    (t.subst σ).subst τ = t.subst fun u => (σ u).subst τ := by
  induction t with
  | number | boolean | var | unknown => rfl
  | fn a r iha ihr => simp [subst, iha, ihr]
  | list e ih => simp [subst, ih]

theorem mem_unknowns_subst {σ : Nat → Ty} {t : Ty} {v : Nat} :
    v ∈ (t.subst σ).unknowns ↔ ∃ u ∈ t.unknowns, v ∈ (σ u).unknowns := by
  induction t with
  | number | boolean | var => simp [subst, unknowns]
  | fn a r iha ihr => simp [subst, unknowns, iha, ihr, or_and_right, exists_or]
  | list e ih => simpa [subst, unknowns] using ih
  | unknown u => simp [subst, unknowns]

theorem mem_unknowns_replace {u v : Nat} {s t : Ty} :
    v ∈ (s.replace u t).unknowns ↔ (u ∈ s.unknowns ∧ v ∈ t.unknowns) ∨ (v ∈ s.unknowns ∧ v ≠ u) := by
  rw [replace, mem_unknowns_subst]
  constructor
  · rintro ⟨w, hw, hv⟩
    split at hv
    · next h => exact .inl ⟨h ▸ hw, hv⟩
    · next h =>
      simp only [unknowns, List.mem_singleton] at hv
      exact .inr ⟨hv ▸ hw, hv ▸ h⟩
  · rintro (⟨hu, hv⟩ | ⟨hv, hne⟩)
    · exact ⟨u, hu, by simpa using hv⟩
    · exact ⟨v, hv, by simp [hne, unknowns]⟩

end Ty
end LetPoly
