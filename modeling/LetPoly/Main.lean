import LetPoly.CommandLine.Response

/-! The program on the command line. -/

namespace LetPoly.CommandLine

/-- The bytes of a file, if it can be read. -/
def readFile? (path : String) : IO (Option ByteArray) := do
  try
    return some (← IO.FS.readBinFile path)
  catch _ =>
    return none

/-- The answer to the arguments, with the configuration file that they name. -/
def answer (args : List String) : IO Response := do
  match parse args with
  | none => return misused
  | some (.run o) =>
    match o.config with
    | some path => return (Request.run o).respond (← readFile? path)
    | none => return (Request.run o).respond none
  | some r => return r.respond none

def Response.print (r : Response) : IO Unit := do
  r.output.forM IO.println
  r.diagnostics.forM IO.eprintln

end LetPoly.CommandLine

def main (args : List String) : IO UInt32 := do
  let r ← LetPoly.CommandLine.answer args
  r.print
  return r.exitCode.toUInt32
