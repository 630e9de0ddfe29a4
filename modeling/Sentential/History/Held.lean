import Sentential.Calendar.Moment
import Sentential.History.Stored

/-!
# Snapshots in memory

A snapshot in memory holds the times of its entries as moments. Its text is that of the timestamps which
are written of them, and the timestamps that are read become moments again.
-/

namespace Sentential

open Calendar (Timestamp Moment)

/-- An entry with another kind of time. -/
def Entry.mapTime {σ τ : Type} (f : σ → τ) (e : Entry σ) : Entry τ where
  id := e.id
  steps := e.steps
  timestamp := f e.timestamp
  finalWord := e.finalWord

namespace Snapshot

def mapTimes {σ τ : Type} (f : σ → τ) (s : Snapshot σ) : Snapshot τ where
  steps := s.steps
  saved := s.saved.map (·.mapTime f)
  isCompleted := s.isCompleted
  grammarId := s.grammarId

/-- The text that a snapshot in memory is written as. -/
def heldText (s : Snapshot Moment) : String :=
  (s.mapTimes Moment.toTimestamp).text

def ofHeldText? (text : String) : Option (Snapshot Moment) :=
  (ofText? text).map (·.mapTimes Timestamp.toMoment)

end Snapshot

end Sentential
