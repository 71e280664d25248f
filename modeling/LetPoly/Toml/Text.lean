import LetPoly.Toml.Rule

/-! What a line of TOML is made of besides values: blanks, comments, strings and keys. -/

namespace LetPoly.Toml

open Rule

def isBlank (c : Char) : Bool := c == ' ' || c == '\t'

/-- Every character but the control characters; of those the tab is one too. -/
def isText (c : Char) : Bool := c == '\t' || (' ' ≤ c && c != '\x7f')

def blanks : Rule Unit := discard (span isBlank)

def newline : Rule Unit := exactly "\n" <|> exactly "\r\n"

def comment : Rule Unit := exactly "#" *> discard (span isText)

/-- What may stand between the last part of a line and the next line. -/
def lineEnd : Rule Unit := do
  blanks
  discard (optional comment)
  newline <|> endOfText

/-- What may stand around the items of an array. -/
def filler : Rule Unit :=
  discard (many (discard (char isBlank) <|> optional comment *> newline))

/-! ### Strings -/

def isHexDigit (c : Char) : Bool := c.isDigit || ('a' ≤ c && c ≤ 'f') || ('A' ≤ c && c ≤ 'F')

def digitValue (c : Char) : Nat :=
  if c.isDigit then c.toNat - 0x30 else if c ≤ 'F' then c.toNat - 0x37 else c.toNat - 0x57

def ofDigits (base : Nat) (digits : List Char) : Nat :=
  digits.foldl (fun n c => n * base + digitValue c) 0

/-- The character with the number that so many digits say. -/
def scalar (digits : Nat) : Rule Char := do
  let n := ofDigits 16 (← times digits (char isHexDigit))
  if n.isValidChar then return Char.ofNat n else failure

def escape : Rule Char := do
  exactly "\\"
  match ← char isText with
  | 'b' => return '\x08'
  | 't' => return '\t'
  | 'n' => return '\n'
  | 'f' => return '\x0c'
  | 'r' => return '\r'
  | '\x22' => return '\x22'
  | '\x5c' => return '\x5c'
  | 'u' => scalar 4
  | 'U' => scalar 8
  | _ => failure

def isPlain (c : Char) : Bool := isText c && c != '\x22' && c != '\x5c'

def isLiteral (c : Char) : Bool := isText c && c != '\x27'

def basicString : Rule String := do
  exactly "\""
  let cs ← many (char isPlain <|> escape)
  exactly "\""
  return String.ofList cs

def literalString : Rule String := do
  exactly "'"
  let cs ← span isLiteral
  exactly "'"
  return String.ofList cs

/-- A string of several lines. One or two quotes in a row are text. Three end it, and of up to five
those before the last three are text. A newline right at the start is not part of it. -/
def multiline (quote : Char) (piece : Rule (List Char)) : Rule String := do
  let quotes := span (· == quote)
  discard (times 3 (char (· == quote)))
  discard (optional newline)
  let inner : Rule (List Char) := do
    let run ← quotes
    if run.length = 1 ∨ run.length = 2 then return run else failure
  let pieces ← many (piece <|> newline *> pure ['\n'] <|> inner)
  let last ← quotes
  guard (3 ≤ last.length ∧ last.length ≤ 5)
  return String.ofList (pieces.flatten ++ last.drop 3)

/-- A backslash at the end of a line takes the blanks and newlines after it away. -/
def continuation : Rule Unit := do
  exactly "\\"
  blanks
  newline
  discard (many (discard (char isBlank) <|> newline))

def multilineBasic : Rule String :=
  multiline '\x22' (List.singleton <$> (char isPlain <|> escape) <|> continuation *> pure [])

def multilineLiteral : Rule String := multiline '\x27' (List.singleton <$> char isLiteral)

def string : Rule String := multilineBasic <|> basicString <|> multilineLiteral <|> literalString

/-! ### Keys -/

structure Key where
  path : List String
  name : String

/-- A key has fewer parts than this, and values are nested less deep. -/
def nestingLimit : Nat := 80

def isBare (c : Char) : Bool :=
  c.isDigit || ('a' ≤ c && c ≤ 'z') || ('A' ≤ c && c ≤ 'Z') || c == '-' || c == '_'

def bareKey : Rule String := do
  let cs ← span isBare
  guard (!cs.isEmpty)
  return String.ofList cs

def key : Rule Key := do
  let part := blanks *> (basicString <|> literalString <|> bareKey) <* blanks
  let first ← part
  let rest ← many (exactly "." *> part)
  guard (rest.length + 1 < nestingLimit)
  match rest.reverse with
  | [] => return ⟨[], first⟩
  | name :: path => return ⟨first :: path.reverse, name⟩

end LetPoly.Toml
