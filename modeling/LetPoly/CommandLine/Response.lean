import LetPoly.CommandLine.Options
import LetPoly.Config.Load
import LetPoly.Program
import LetPoly.Samples

/-! What the command line answers: the samples asked for are checked and run, and the log goes along. -/

namespace LetPoly.CommandLine

structure Response where
  exitCode : Nat
  output : List String
  diagnostics : List String
deriving DecidableEq, Repr

def programName : String := "weasel"

def versionLine : String := programName ++ " 0.1.0"

def usage : List String :=
  ["Type check and evaluate the bundled example programs",
   "",
   "Usage: " ++ programName ++ " [OPTIONS] [SAMPLE]",
   "",
   "Arguments:",
   "  [SAMPLE]  Sample to run. Runs every sample when omitted",
   "",
   "Options:",
   "      --config <CONFIG>        TOML configuration file",
   "      --log-level <LOG_LEVEL>  [possible values: error, warn, info, debug, trace]",
   "      --no-typecheck           Evaluate without type checking first",
   "      --max-depth <MAX_DEPTH>  Maximum number of nested applications during evaluation",
   "      --list                   List the available samples and exit",
   "      --solution               Print the unification solution after type checking",
   "  -h, --help                   Print help",
   "  -V, --version                Print version"]

def misused : Response := ⟨2, [], ["error: the arguments are not understood, try --help"]⟩

def failed (message : String) : Response := ⟨1, [], ["Error: " ++ message]⟩

/-- What the options say wins over the configuration. -/
def Options.override (o : Options) (config : Config) : Config where
  typecheck := config.typecheck && !o.noTypecheck
  level := o.level.getD config.level
  maxDepth := o.maxDepth <|> config.maxDepth

def Options.config? (o : Options) (file : Option ByteArray) : Except ConfigError Config :=
  match o.config with
  | none => .ok (o.override .default)
  | some _ => o.override <$> Config.load file

/-- Spaces fill a short text up to the width of a column. -/
def column (width : Nat) (text : String) : String :=
  text ++ String.ofList (List.replicate (width - text.length) ' ')

def listing : List String := Samples.all.map fun s => column 16 s.name ++ " " ++ s.source

/-- The lines of the solution that inference finds, if it finds a type. -/
def solutionLines (e : Expr) : List String × Log :=
  let (r, s) := (infer .initial e).run Session.new
  match r with
  | .ok _ => (s.solution.entries.map fun b => "  u" ++ toString b.1 ++ " |-> " ++ b.2.render, s.log)
  | .error _ => ([], s.log)

def outcomeLines (o : Outcome) : List String :=
  (o.ty.map fun t => "  : " ++ t.render).toList ++ ["  = " ++ o.value.render]

def resultLines : Except Failure Outcome → List String
  | .ok o => outcomeLines o
  | .error e => ["  " ++ e.message]

/-- The report on a sample. A program that does not finish has no result. -/
def report (config : Config) (showSolution : Bool) (s : Sample) : List String × Log :=
  let (solution, earlier) :=
    if showSolution && config.typecheck then solutionLines s.program else ([], [])
  let (result, log) := match Program.run config s.program with
    | some (r, log) => (resultLines r, log)
    | none => ([], [])
  ((s.name ++ ": " ++ s.source) :: solution ++ result, log ++ earlier)

def reports (config : Config) (showSolution : Bool) (samples : List Sample) : Response :=
  let parts := samples.map (report config showSolution)
  ⟨0, parts.flatMap Prod.fst, parts.flatMap fun p => Log.lines p.2 config.level⟩

/-- The answer to a request, where `file` has the bytes of the configuration file, if it can be read. -/
def Request.respond (file : Option ByteArray) : Request → Response
  | .help => ⟨0, usage, []⟩
  | .version => ⟨0, [versionLine], []⟩
  | .run o =>
    match o.config? file with
    | .error _ => failed ("loading " ++ o.config.getD "")
    | .ok config =>
      if o.list then ⟨0, listing, []⟩
      else
        match o.sample with
        | none => reports config o.solution Samples.all
        | some name =>
          match Samples.find? name with
          | some s => reports config o.solution [s]
          | none => failed ("unknown sample '" ++ name ++ "', try --list")

end LetPoly.CommandLine
