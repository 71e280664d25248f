/-! Rules of a grammar: each reads a piece off the front of a text, or fails and reads nothing. -/

namespace LetPoly.Toml

abbrev Rule := StateT (List Char) Option

namespace Rule

variable {α : Type}

def char (p : Char → Bool) : Rule Char := fun
  | c :: rest => if p c then some (c, rest) else none
  | [] => none

/-- The characters up to the first one that is not of the class, which may be none at all. -/
def span (p : Char → Bool) : Rule (List Char) := modifyGet fun cs => (cs.takeWhile p, cs.dropWhile p)

def exactly (text : String) : Rule Unit := text.toList.forM fun c => discard (char (· == c))

def endOfText : Rule Unit := do guard (← get).isEmpty

def times : Nat → Rule α → Rule (List α)
  | 0, _ => return []
  | n + 1, r => return (← r) :: (← times n r)

def upTo : Nat → Rule α → Rule (List α)
  | 0, _ => return []
  | n + 1, r => do
    match ← optional r with
    | some a => return a :: (← upTo n r)
    | none => return []

/-- As many pieces as follow one another, for a rule that reads something whenever it does not fail. -/
def many (r : Rule α) : Rule (List α) := do upTo (← get).length r

/-- Pieces with a comma between two of them. -/
def commaSeparated (r : Rule α) : Rule (List α) := do
  match ← optional r with
  | some a => return a :: (← many (exactly "," *> r))
  | none => return []

end Rule
end LetPoly.Toml
