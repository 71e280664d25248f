import LetPoly.Config.Basic
import LetPoly.Toml.Document

/-! Configurations in TOML. Every setting may be absent; none may be unknown. -/

namespace LetPoly

inductive ConfigError where
  /-- There is no such file, or it is not in UTF-8. -/
  | unreadable
  | invalid
deriving DecidableEq, Repr

namespace Config

open Toml (Table Value)

def boolean? : Value → Option Bool
  | .boolean b => some b
  | _ => none

/-- A level by its name: a string, or the only key of a table, with nothing in its value. -/
def level? : Value → Option Level
  | .string name => Level.ofName? name
  | .table _ [(name, .table _ [])] => Level.ofName? name
  | .table _ [(name, .array [])] => Level.ofName? name
  | _ => none

def natural? : Value → Option Nat
  | .integer n => if 0 ≤ n then some n.toNat else none
  | _ => none

/-- The setting in a section that has only one: a table has it under its key, an array has it in front.
The outer `none` says that this is not such a section. -/
def single? (name : String) (v : Value) : Option (Option Value) :=
  match v.items?, v.entries? with
  | some items, _ => some items.head?
  | none, some entries => if entries.all fun b => b.1 = name then some (entries.get? name) else none
  | none, none => none

/-- Reads a setting that may be absent. -/
def setting {α : Type} (read : Value → Option α) (absent : α) : Option Value → Option α
  | none => some absent
  | some v => read v

/-- Reads a setting in a section of its own, where both may be absent. -/
def sectionSetting {α : Type} (name : String) (read : Value → Option α) (absent : α) :
    Option Value → Option α :=
  setting (fun s => do setting read absent (← single? name s)) absent

def ofTable? (t : Table) : Option Config := do
  guard (t.all fun b => b.1 ∈ ["typecheck", "log", "eval"])
  return {
    typecheck := ← setting boolean? default.typecheck (t.get? "typecheck")
    level := ← sectionSetting "level" level? default.level (t.get? "log")
    maxDepth := ← sectionSetting "max_depth" (fun v => some <$> natural? v) default.maxDepth
      (t.get? "eval") }

def ofToml? (text : String) : Option Config := do ofTable? (← Toml.parse? text)

/-- The configuration in a text, or why there is none. -/
def parse (text : String) : Except ConfigError Config :=
  match ofToml? text with
  | some config => .ok config
  | none => .error .invalid

/-- The configuration in a file with these bytes; without them there is no such file. -/
def load (bytes : Option ByteArray) : Except ConfigError Config :=
  match bytes >>= String.fromUTF8? with
  | some text => parse text
  | none => .error .unreadable

end Config
end LetPoly
