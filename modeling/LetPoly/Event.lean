import LetPoly.Expr.Render
import LetPoly.Ty.Scheme
import LetPoly.Ty.Unification

/-! What inference and evaluation report while they work, and how important it is. -/

namespace LetPoly

/-- From the most to the least important. -/
inductive Level where
  | error | warn | info | debug | trace
deriving DecidableEq, Repr, Inhabited

namespace Level

def all : List Level := [error, warn, info, debug, trace]

def name : Level → String
  | error => "error"
  | warn => "warn"
  | info => "info"
  | debug => "debug"
  | trace => "trace"

def label : Level → String
  | error => "ERROR"
  | warn => "WARN"
  | info => "INFO"
  | debug => "DEBUG"
  | trace => "TRACE"

def ofName? (name : String) : Option Level := all.find? fun l => l.name = name

/-- How much a log at this level leaves in: `trace` most of all. -/
def verbosity : Level → Nat
  | error => 0
  | warn => 1
  | info => 2
  | debug => 3
  | trace => 4

end Level

inductive Event where
  | unification (step : Step)
  | generalized (binder : String) (scheme : Scheme)
  | inferred (ty : Ty)
  | tied (binder : String)
  | applied (binder : String) (argument : Expr)

namespace Event

def level : Event → Level
  | unification (.compare ..) | applied .. => .trace
  | unification (.solve ..) | generalized .. | inferred _ | tied _ => .debug

def message : Event → String
  | unification (.compare a b) => "unify " ++ a.render ++ " ~ " ++ b.render
  | unification (.solve u t) => "solved u" ++ toString u ++ " |-> " ++ t.render
  | generalized binder scheme => "generalized " ++ binder ++ " : " ++ scheme.render
  | inferred t => "inferred " ++ t.render
  | tied binder => "tying recursive closure " ++ binder
  | applied binder argument => "apply \\" ++ binder ++ " to " ++ argument.render

def line (e : Event) : String := e.level.label ++ " " ++ e.message

end Event

/-- Events, newest first. -/
abbrev Log := List Event

/-- The lines of a log at one level, oldest first. -/
def Log.lines (log : Log) (level : Level) : List String :=
  (log.reverse.filter fun e => e.level.verbosity ≤ level.verbosity).map Event.line

end LetPoly
