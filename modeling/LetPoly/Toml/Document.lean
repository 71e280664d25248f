import LetPoly.Toml.DateTime
import LetPoly.Toml.Number
import LetPoly.Toml.Value

/-! TOML documents: the text is read as a list of statements, which fill the table of the document one
after the other. -/

namespace LetPoly.Toml

open Rule

def plainValue : Rule Value :=
  Value.string <$> string <|> exactly "true" *> pure (.boolean true) <|>
    exactly "false" *> pure (.boolean false) <|> dateTime *> pure .dateTime <|> float *> pure .float <|>
    Value.integer <$> integer

def array (item : Rule Value) : Rule Value := do
  exactly "["
  let items ← commaSeparated (filler *> item <* filler)
  if !items.isEmpty then discard (optional (exactly ","))
  filler
  exactly "]"
  return .array items

def entry (item : Rule Value) : Rule (Key × Value) := do
  let k ← key
  exactly "="
  blanks
  return (k, ← item)

def inlineTable (item : Rule Value) : Rule Value := do
  exactly "\x7b"
  let entries ← commaSeparated (entry item <* blanks)
  blanks
  exactly "\x7d"
  let table : Table ← (entries.foldlM (fun t (k, v) => Table.assign k.path k.name v t) [] : Option Table)
  return .table .inline table

/-- A value with at most so many arrays and inline tables in one another. -/
def valueWithin : Nat → Rule Value
  | 0 => plainValue
  | depth + 1 => plainValue <|> array (valueWithin depth) <|> inlineTable (valueWithin depth)

def value : Rule Value := valueWithin (nestingLimit - 1)

inductive Statement where
  | entry (key : Key) (v : Value)
  | table (key : Key)
  | element (key : Key)

def statement : Rule Statement :=
  Statement.element <$> (exactly "[[" *> key <* exactly "]]") <|>
    Statement.table <$> (exactly "[" *> key <* exactly "]") <|>
    (fun (k, v) => Statement.entry k v) <$> entry value

/-- One line, or several for a value that goes over them. It may be empty. -/
def line : Rule (Option Statement) :=
  some <$> statement <* lineEnd <|> comment *> (newline <|> endOfText) *> pure none <|>
    newline *> pure none

/-- A mark of the byte order in front is not part of the text. -/
def statements : Rule (List Statement) := do
  discard (optional (exactly "\ufeff"))
  blanks
  let lines ← many (line <* blanks)
  endOfText
  return lines.filterMap id

/-- A table under construction, and the path of the header last seen. -/
structure Draft where
  root : Table
  header : List String

namespace Draft

def add (d : Draft) : Statement → Option Draft
  | .entry k v => do
    let root ← Table.within false (fun _ t => t.assign k.path k.name v) d.header .header d.root
    return { d with root }
  | .table k => do
    let root ← Table.within false (fun _ t => t.openTable k.name) k.path .header d.root
    return ⟨root, k.path ++ [k.name]⟩
  | .element k => do
    let root ← Table.within false (fun _ t => t.openElement k.name) k.path .header d.root
    return ⟨root, k.path ++ [k.name]⟩

end Draft

/-- The table that a document says, if it is one. -/
def parse? (text : String) : Option Table := do
  let (lines, _) ← statements.run text.toList
  let d ← lines.foldlM Draft.add ⟨[], []⟩
  return d.root

end LetPoly.Toml
