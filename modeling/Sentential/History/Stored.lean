import Sentential.Calendar.Reader
import Sentential.History
import Sentential.Json.Printer
import Sentential.Json.Reader
import Sentential.Json.Record

/-!
# Stored histories

The JSON form of steps, entries and snapshots. A step without an ordinal is written without
the field, and reading accepts it absent or null. A snapshot may leave out its entries and
whether it is completed, but not set them to null.
-/

namespace Sentential

open Calendar (Timestamp)

def Step.toJson (s : Step) : Json :=
  .ofFields [("result", some (.ofChars s.form)),
    ("ruleIndex", s.ordinal.map fun n => .ofNat n.toNat)]

def Step.ofJson? (v : Json) : Option Step :=
  match v.record? ["result", "ruleIndex"] 1 with
  | some [result, ruleIndex] => do
    return ⟨← Json.required Json.chars? result, ← Json.optional Json.word? ruleIndex⟩
  | _ => none

def timestampOfJson? (v : Json) : Option Timestamp := do
  Timestamp.ofChars? (← v.chars?)

def Entry.toJson (e : Entry) : Json :=
  .ofFields [("id", some (.ofString e.id)), ("steps", some (.array (e.steps.map Step.toJson))),
    ("timestamp", some (.ofChars e.timestamp.chars)), ("finalWord", some (.ofChars e.finalWord))]

def Entry.ofJson? (v : Json) : Option Entry :=
  match v.record? ["id", "steps", "timestamp", "finalWord"] 4 with
  | some [id, steps, timestamp, finalWord] => do
    return ⟨← Json.required Json.string? id, ← Json.required (Json.list? Step.ofJson?) steps,
      ← Json.required timestampOfJson? timestamp, ← Json.required Json.chars? finalWord⟩
  | _ => none

namespace Snapshot

def toJson (s : Snapshot) : Json :=
  .ofFields [("derivationSteps", some (.array (s.steps.map Step.toJson))),
    ("savedDerivations", some (.array (s.saved.map Entry.toJson))),
    ("isCompleted", some (.bool s.isCompleted)), ("grammarId", some (.ofString s.grammarId))]

def ofJson? (v : Json) : Option Snapshot :=
  match v.record? ["derivationSteps", "savedDerivations", "isCompleted", "grammarId"] 4 with
  | some [steps, saved, isCompleted, grammarId] => do
    return ⟨← Json.required (Json.list? Step.ofJson?) steps,
      ← Json.withDefault [] (Json.list? Entry.ofJson?) saved,
      ← Json.withDefault false Json.bool? isCompleted,
      ← Json.required Json.string? grammarId⟩
  | _ => none

/-- The text of a snapshot, on one line. -/
def text (s : Snapshot) : String :=
  s.toJson.print .compact

def ofText? (text : String) : Option Snapshot :=
  (Json.ofText? text).bind ofJson?

end Snapshot

end Sentential
