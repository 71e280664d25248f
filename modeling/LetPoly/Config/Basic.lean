import LetPoly.Event

/-! What can be set about a run. -/

namespace LetPoly

structure Config where
  typecheck : Bool := true
  level : Level := .info
  /-- How deep applications may be nested; any depth if absent. -/
  maxDepth : Option Nat := none
deriving DecidableEq, Repr, Inhabited

namespace Config

def default : Config := {}

end Config
end LetPoly
