import Sentential.Export
import Sentential.Failure

/-!
# What a run prints

A run prints lines on its output and on its error output, and may end with a failure, which is
reported last. It succeeds exactly if there is none.
-/

namespace Sentential.CommandLine

/-- The lines a run has printed and how it ended. -/
structure Report where
  output : List String
  complaints : List String
  failure : Option Failure
deriving DecidableEq

namespace Report

def success (output : List String) : Report where
  output := output
  complaints := []
  failure := none

def refusal (failure : Failure) : Report where
  output := []
  complaints := []
  failure := some failure

def exitCode (r : Report) : Nat :=
  if r.failure.isSome then 1 else 0

def outputText (r : Report) : String :=
  Export.unlines r.output

def errorText (r : Report) : String :=
  Export.unlines r.complaints ++ (r.failure.map Failure.report).getD ""

end Report

end Sentential.CommandLine
