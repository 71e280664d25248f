import LetPoly.Config.Basic
import LetPoly.Evaluation.Interpreter
import LetPoly.Inference

/-! Running a program: its type is inferred first, if the configuration asks for it, and only a program
that has one is evaluated. -/

namespace LetPoly

structure Outcome where
  /-- The type, if it was inferred. -/
  ty : Option Ty
  value : Expr

inductive Failure where
  | type (e : TypeError)
  | eval (e : EvalError)

def Failure.message : Failure → String
  | type e => e.message
  | eval e => e.message

namespace Program

/-- The type that the configuration asks for, with what inference reported. -/
def check (config : Config) (e : Expr) : Except TypeError (Option Ty) × Log :=
  if config.typecheck then
    match (infer .initial e).run Session.new with
    | (.ok t, s) => (.ok (some t), .inferred t :: s.log)
    | (.error err, s) => (.error err, s.log)
  else (.ok none, [])

/-- The interpreter in which a program starts. -/
def interpreter (config : Config) : Interpreter := .new config.maxDepth Env.builtinCount

/-- What becomes of a program, with what was reported on the way; `none` if it does not finish. -/
def run (config : Config) (e : Expr) : Option (Except Failure Outcome × Log) :=
  match check config e with
  | (.error err, log) => some (.error (.type err), log)
  | (.ok ty, log) =>
    ((interpreter config).run .initial e).map fun (r, i) =>
      ((r.mapError Failure.eval).map fun v => ⟨ty, v⟩, i.log ++ log)

end Program
end LetPoly
