import Mathlib.Data.List.Induction
import Sentential.Proofs.Controller.Run
import Sentential.Proofs.Session.Entries

/-!
# Derivations that are saved at once

Every save, whatever its occasion, hands all entries of the session to the storage. With autosave no
entry is added between two saves, except from the document that was saved last. So once a key press
has recorded a derivation, and as long as the storage gives back what it was given, its document has
every entry of the session. What a key press itself yields does not depend on the storage.
-/

namespace Sentential

namespace MemoryStorage

variable {s s' : MemoryStorage}

/-- A memory without scripted answers and without a standing failure. -/
structure Quiet (s : MemoryStorage) : Prop where
  failure : s.failure = none
  saveScript : s.saveScript = []
  loadScript : s.loadScript = []

theorem Quiet.load_eq (h : s.Quiet) :
    Storage.load s = ((s.document.map Answer.done).getD .cancelled, s) := by
  change s.load = _
  cases hdocument : s.document <;> simp [load, h.loadScript, h.failure, hdocument]

end MemoryStorage

namespace Controller

variable {σ : Type} [Storage σ]

/-- The document that a move hands to the storage. -/
def saved? (c : Controller σ) : Move → Option Document
  | .press stamp key =>
    (c.session.pressKey stamp key).bind fun p =>
      if c.autosave && p.1.isRecorded then some p.2.persist.document else none
  | .clear => some c.session.clear.document
  | .serve .save => some c.session.persist.document
  | _ => none

/-- What a move reports about a completed derivation. -/
def report? (c : Controller σ) : Move → Option Completion
  | .press stamp key => (c.pressKey stamp key).bind fun p => p.1.completion
  | _ => none

/-- What is observed at the moves of a run, in their order. -/
def trace {α : Type} (observe : Controller σ → Move → Option α) (c : Controller σ) :
    List Move → List α
  | [] => []
  | m :: rest => (observe c m).toList ++ trace observe (c.move m) rest

/-- The documents that a run hands to the storage. -/
def saves (c : Controller σ) (moves : List Move) : List Document :=
  c.trace saved? moves

/-- What a run reports about completed derivations. -/
def reports (c : Controller σ) (moves : List Move) : List Completion :=
  c.trace report? moves

/-- Throughout a run the storage loads the document that has been saved last. -/
def GivesBack (c : Controller σ) (moves : List Move) : Prop :=
  ∀ before, before <+: moves → ∀ d, (c.saves before).getLast? = some d →
    (Storage.load (c.run before).storage).1 = .done d

variable {c : Controller σ} {moves : List Move}

theorem GivesBack.of_concat {m : Move} (h : c.GivesBack (moves ++ [m])) : c.GivesBack moves :=
  fun before hbefore => h before (hbefore.trans (List.prefix_append moves [m]))

/-! ### One move -/

end Controller

end Sentential
