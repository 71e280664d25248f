import LetPoly.Event

/-! The arguments of the command line. They are read from left to right, and the first one that is not
understood ends it. -/

namespace LetPoly.CommandLine

structure Options where
  sample : Option String := none
  config : Option String := none
  level : Option Level := none
  maxDepth : Option Nat := none
  noTypecheck : Bool := false
  list : Bool := false
  solution : Bool := false
deriving DecidableEq, Repr

inductive Request where
  | run (o : Options)
  | help
  | version
deriving DecidableEq, Repr

/-- What an argument looks like. -/
inductive Argument where
  | plain (text : String)
  | short (letter : Char)
  | long (name : String) (value : Option String)
  /-- After it every argument is a plain one. -/
  | separator

def Argument.ofText (text : String) : Argument :=
  match text.toList with
  | ['-', '-'] => separator
  | '-' :: '-' :: cs =>
    long (String.ofList (cs.takeWhile (· != '='))) <|
      match cs.dropWhile (· != '=') with
      | _ :: value => some (String.ofList value)
      | [] => none
  | '-' :: letter :: _ => short letter
  | _ => plain text

/-- The options that have a value. -/
inductive Setting where
  | config | level | maxDepth

def Setting.ofName? : String → Option Setting
  | "config" => some config
  | "log-level" => some level
  | "max-depth" => some maxDepth
  | _ => none

/-- A number of 64 bits, with or without a plus sign. -/
def word? (text : String) : Option Nat :=
  let digits := match text.toList with
    | '+' :: cs => cs
    | cs => cs
  if digits.isEmpty || !digits.all Char.isDigit then none
  else
    let n := digits.foldl (fun n c => n * 10 + (c.toNat - 0x30)) 0
    if n < Nat.pow 2 64 then some n else none

namespace Options

def setSample (o : Options) (name : String) : Option Options :=
  if o.sample.isSome then none else some { o with sample := some name }

/-- No option may be given twice. -/
def set (o : Options) (value : String) : Setting → Option Options
  | .config =>
    if o.config.isSome || value.isEmpty then none else some { o with config := some value }
  | .level => do
    guard o.level.isNone
    return { o with level := some (← Level.ofName? value) }
  | .maxDepth => do
    guard o.maxDepth.isNone
    return { o with maxDepth := some (← word? value) }

def enable (o : Options) : String → Option Options
  | "no-typecheck" => if o.noTypecheck then none else some { o with noTypecheck := true }
  | "list" => if o.list then none else some { o with list := true }
  | "solution" => if o.solution then none else some { o with solution := true }
  | _ => none

end Options

/-- Reads the arguments after the ones that gave `o`. Help and version do not wait for the rest. -/
def parseFrom : Options → List String → Option Request
  | o, [] => some (.run o)
  | o, arg :: rest =>
    match Argument.ofText arg with
    | .separator => .run <$> rest.foldlM Options.setSample o
    | .plain text => do parseFrom (← o.setSample text) rest
    | .short 'h' | .long "help" none => some .help
    | .short 'V' | .long "version" none => some .version
    | .short _ => none
    | .long name value =>
      match Setting.ofName? name, value with
      | some setting, some value => do parseFrom (← o.set value setting) rest
      | some setting, none =>
        match rest with
        | [] => none
        | next :: rest =>
          match Argument.ofText next with
          | .plain value => do parseFrom (← o.set value setting) rest
          | _ => none
      | none, some _ => none
      | none, none => do parseFrom (← o.enable name) rest

def parse (args : List String) : Option Request := parseFrom {} args

end LetPoly.CommandLine
