import Sentential.Disk
import Sentential.Failure

/-!
# Where a run may keep its document

Before anything else a run checks the path of its document: it must not be empty, and the
directory it names, if any, has to exist.
-/

namespace Sentential.Config

/-- Why a path cannot name a document. -/
inductive Objection where
  | emptyPath
  | missingDirectory (path : String)
deriving DecidableEq

def Objection.message : Objection → String
  | .emptyPath => "Snapshot path must not be empty"
  | .missingDirectory path => s!"Snapshot directory does not exist: {path}"

/-- Checks the path of a document on a disk. -/
def check (d : Disk) (path : String) : Except Objection Unit :=
  if path = "" then .error .emptyPath
  else
    match Path.parent? path with
    | none | some "" => .ok ()
    | some parent => if d.isDirectory parent then .ok () else .error (.missingDirectory parent)

end Sentential.Config
