/-!
# Failures of a command

A command that cannot finish ends with a message, and possibly with the cause behind it.
-/

namespace Sentential

/-- Why a command ended early. -/
structure Failure where
  message : String
  cause : Option String
deriving DecidableEq

namespace Failure

def plain (message : String) : Failure where
  message := message
  cause := none

/-- A failure on one line, the cause behind a colon. -/
def inline (f : Failure) : String :=
  match f.cause with
  | none => f.message
  | some cause => s!"{f.message}: {cause}"

/-- A failure as reported at the end of a run, the cause in a paragraph of its own. -/
def report (f : Failure) : String :=
  match f.cause with
  | none => s!"Error: {f.message}\n"
  | some cause => s!"Error: {f.message}\n\nCaused by:\n    {cause}\n"

end Failure

end Sentential
