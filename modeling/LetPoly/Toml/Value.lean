import LetPoly.Bindings

/-! Values of TOML, and how a table grows: by a header, or by a dotted key. A table that one way has
closed cannot be entered the other way. -/

namespace LetPoly.Toml

/-- How a table came to be. -/
inductive Origin where
  /-- By a header of its own. -/
  | header
  /-- By the header of a table inside it. -/
  | implied
  /-- By a dotted key. -/
  | dotted
  /-- Written as a value, and so complete. -/
  | inline
deriving DecidableEq, Repr

inductive Value where
  | string (text : String)
  | integer (n : Int)
  | float
  | boolean (b : Bool)
  | dateTime
  | array (items : List Value)
  | table (origin : Origin) (entries : List (String × Value))
  /-- An array that grows by headers, its earlier tables from the newest to the oldest. -/
  | tables (last : List (String × Value)) (earlier : List (List (String × Value)))

abbrev Table := Scope Value

namespace Value

/-- The items of either kind of array. -/
def items? : Value → Option (List Value)
  | array items => some items
  | tables last earlier => some ((last :: earlier).reverse.map (table .header))
  | _ => none

def entries? : Value → Option Table
  | table _ entries => some entries
  | _ => none

end Value

namespace Table

/-- Changes the table at a path. A header makes the tables missing on its way implied ones, and enters
all but inline ones; a dotted key makes dotted ones, and enters no table with a header. Both enter the
last table of an array of tables. -/
def within (dotted : Bool) (change : Origin → Table → Option Table) :
    List String → Origin → Table → Option Table
  | [], origin, t => change origin t
  | name :: path, _, t =>
    match t.get? name with
    | none => do
      let made := if dotted then Origin.dotted else .implied
      return t.insert name (.table made (← within dotted change path made []))
    | some (.table origin entries) => do
      guard (origin ≠ .inline ∧ ¬(dotted ∧ origin = .header))
      return t.insert name (.table origin (← within dotted change path origin entries))
    | some (.tables last earlier) => do
      return t.insert name (.tables (← within dotted change path .header last) earlier)
    | some _ => none

/-- A new entry, at a dotted key if the path is not empty. The table that it enters then has to be one
that dotted keys made. -/
def assign (path : List String) (name : String) (v : Value) (t : Table) : Option Table :=
  within true (fun origin entries => do
    guard ((path = [] ∨ origin = .dotted) ∧ !entries.contains name)
    return entries.insert name v) path .header t

/-- What a header in single brackets does to the table it names. -/
def openTable (name : String) (t : Table) : Option Table :=
  match t.get? name with
  | none => some (t.insert name (.table .header []))
  | some (.table .implied entries) => some (t.insert name (.table .header entries))
  | some _ => none

/-- What a header in double brackets does: the array of that name gets one more table. -/
def openElement (name : String) (t : Table) : Option Table :=
  match t.get? name with
  | none => some (t.insert name (.tables [] []))
  | some (.tables last earlier) => some (t.insert name (.tables [] (last :: earlier)))
  | some _ => none

end Table
end LetPoly.Toml
