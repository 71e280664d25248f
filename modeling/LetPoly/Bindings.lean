/-! Finite maps as lists with one entry for each key, newest first. `get?_insert` is the law by which
the rest of the library reads them. -/

namespace LetPoly

abbrev Bindings (κ α : Type) := List (κ × α)

namespace Bindings

variable {κ α : Type} [DecidableEq κ]

def get? : Bindings κ α → κ → Option α
  | [], _ => none
  | (k, a) :: m, key => if k = key then some a else get? m key

def contains (m : Bindings κ α) (key : κ) : Bool := (m.get? key).isSome

def erase (m : Bindings κ α) (key : κ) : Bindings κ α := m.filter fun b => b.1 ≠ key

/-- The new entry takes the place of an older one with the same key. -/
def insert (m : Bindings κ α) (key : κ) (a : α) : Bindings κ α := (key, a) :: m.erase key

/-- Of two entries with the same key the later one counts. -/
def ofList (entries : List (κ × α)) : Bindings κ α :=
  entries.foldl (fun m b => m.insert b.1 b.2) []

theorem get?_append (m m' : Bindings κ α) (key : κ) :
    get? (m ++ m') key = (m.get? key).or (m'.get? key) := by
  induction m with
  | nil => rfl
  | cons b m ih =>
    obtain ⟨k, a⟩ := b
    by_cases hk : k = key <;> simp [get?, hk, ih]

theorem get?_erase (m : Bindings κ α) (k key : κ) :
    (m.erase k).get? key = if k = key then none else m.get? key := by
  induction m with
  | nil => simp [erase, get?]
  | cons b m ih =>
    obtain ⟨j, a⟩ := b
    simp only [erase, List.filter_cons] at ih ⊢
    by_cases hj : j = k <;> by_cases hk : k = key <;> simp_all [get?]

theorem get?_insert (m : Bindings κ α) (k key : κ) (a : α) :
    (m.insert k a).get? key = if k = key then some a else m.get? key := by
  by_cases hk : k = key <;> simp [insert, get?, get?_erase, hk]

theorem get?_eq_none_iff (m : Bindings κ α) (key : κ) :
    m.get? key = none ↔ ∀ b ∈ m, b.1 ≠ key := by
  induction m with
  | nil => simp [get?]
  | cons b m ih => by_cases hb : b.1 = key <;> simp_all [get?]

theorem mem_of_get? {m : Bindings κ α} {key : κ} {a : α} (h : m.get? key = some a) :
    (key, a) ∈ m := by
  induction m with
  | nil => simp [get?] at h
  | cons b m ih =>
    obtain ⟨j, c⟩ := b
    by_cases hj : j = key
    · simp_all [get?]
    · simp only [get?, if_neg hj] at h
      exact List.mem_cons_of_mem _ (ih h)

theorem keys_insert_nodup {m : Bindings κ α} (h : (m.map Prod.fst).Nodup) (key : κ) (a : α) :
    ((m.insert key a).map Prod.fst).Nodup := by
  simp only [insert, List.map_cons, List.nodup_cons]
  refine ⟨by simp [erase], ?_⟩
  exact (List.filter_sublist.map Prod.fst).nodup h

end Bindings

/-- What a name stands for. -/
abbrev Scope (α : Type) := Bindings String α

end LetPoly
