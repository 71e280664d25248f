import LetPoly.Toml.Text

/-! Dates and times of TOML, which are only checked. -/

namespace LetPoly.Toml

open Rule

def isLeapYear (year : Nat) : Bool := year % 4 == 0 && (year % 100 != 0 || year % 400 == 0)

def daysIn (year month : Nat) : Nat :=
  match month with
  | 2 => if isLeapYear year then 29 else 28
  | 4 | 6 | 9 | 11 => 30
  | _ => 31

/-- A number of so many digits, from `low` to `high`. -/
def fixed (width low high : Nat) : Rule Nat := do
  let n := ofDigits 10 (← times width (char Char.isDigit))
  guard (low ≤ n ∧ n ≤ high)
  return n

def date : Rule Unit := do
  let year ← fixed 4 0 9999
  exactly "-"
  let month ← fixed 2 1 12
  exactly "-"
  discard (fixed 2 1 (daysIn year month))

def hourMinute : Rule Unit := do
  discard (fixed 2 0 23)
  exactly ":"
  discard (fixed 2 0 59)

/-- The second may be a leap second. -/
def time : Rule Unit := do
  hourMinute
  exactly ":"
  discard (fixed 2 0 60)
  discard (optional (exactly "." *> char Char.isDigit *> span Char.isDigit))

def offset : Rule Unit :=
  discard (char fun c => c == 'Z' || c == 'z') <|> char (fun c => c == '+' || c == '-') *> hourMinute

def dateTime : Rule Unit :=
  date *> discard (optional (char (fun c => c == 'T' || c == 't' || c == ' ') *> time *>
    optional offset)) <|> time

end LetPoly.Toml
