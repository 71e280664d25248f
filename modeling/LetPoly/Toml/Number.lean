import LetPoly.Toml.Text

/-! Numbers of TOML. Integers have 64 bits; a float is only checked. -/

namespace LetPoly.Toml

open Rule

/-- Digits, with an underscore here and there between two of them. -/
def digits (p : Char → Bool) : Rule (List Char) := do
  let d ← char p
  return d :: (← many (char p <|> exactly "_" *> char p))

/-- Whether there is a minus sign. -/
def sign : Rule Bool := do return (← optional (char fun c => c == '+' || c == '-')) == some '-'

/-- The digits of a decimal number without leading zeros. -/
def decimalDigits : Rule (List Char) := exactly "0" *> pure ['0'] <|> digits Char.isDigit

def inBase (mark : String) (base : Nat) (p : Char → Bool) : Rule Int := do
  exactly mark
  return ofDigits base (← digits p)

def decimal : Rule Int := do
  let negative ← sign
  let n : Int := ofDigits 10 (← decimalDigits)
  return if negative then -n else n

def integer : Rule Int := do
  let n ← inBase "0x" 16 isHexDigit <|> inBase "0o" 8 (fun c => '0' ≤ c && c ≤ '7') <|>
    inBase "0b" 2 (fun c => c == '0' || c == '1') <|> decimal
  guard (-(Int.pow 2 63) ≤ n ∧ n < Int.pow 2 63)
  return n

/-! ### Floats -/

/-- The least number that is too large for a double: halfway from the largest double to the next power
of two. -/
def tooLarge : Nat := (Nat.pow 2 54 - 1) * Nat.pow 2 970

/-- Whether `m * 10 ^ e` is too large for a double. A number far away from the bound is told by its
width, so that no huge power is computed. -/
def overflows (m : Nat) (e : Int) : Bool :=
  let width := (Nat.toDigits 10 m).length + e
  if m = 0 ∨ width < 309 then false
  else if 310 < width then true
  else if 0 ≤ e then tooLarge ≤ m * Nat.pow 10 e.toNat
  else tooLarge * Nat.pow 10 (-e).toNat ≤ m

def fraction : Rule (List Char) := exactly "." *> digits Char.isDigit

def exponent : Rule Int := do
  discard (char fun c => c == 'e' || c == 'E')
  let negative ← sign
  let n : Int := ofDigits 10 (← digits Char.isDigit)
  return if negative then -n else n

/-- A decimal number with a fraction or an exponent. Of those too large only negative ones are
allowed. -/
def decimalFloat : Rule Unit := do
  let negative ← sign
  let whole ← decimalDigits
  let fractional ← optional fraction
  let scale ← optional exponent
  guard (fractional.isSome || scale.isSome)
  let fractional := fractional.getD []
  guard (negative || !overflows (ofDigits 10 (whole ++ fractional)) (scale.getD 0 - fractional.length))

def specialFloat : Rule Unit := sign *> (exactly "inf" <|> exactly "nan")

def float : Rule Unit := decimalFloat <|> specialFloat

end LetPoly.Toml
