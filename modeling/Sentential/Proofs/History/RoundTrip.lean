import Sentential.Calendar.Epoch
import Sentential.History.Held
import Sentential.Proofs.Calendar.RoundTrip
import Sentential.Proofs.History.Coherence
import Sentential.Proofs.Json.Record

/-!
# Storing and restoring histories

A stored snapshot is read back as it was, whatever it holds. What is restored from the snapshot of
a reachable history is that history, although what is staged is not stored.
-/

namespace Sentential

open Json
open Calendar (Moment Timestamp)

namespace Step

theorem plain_toJson (s : Step) : s.toJson.Plain :=
  plain_ofFields (by simp [Plain.ofChars, Plain.ofNat])

theorem ofJson?_toJson (s : Step) : Step.ofJson? s.toJson = some s := by
  have hfields : s.toJson.record? ["result", "ruleIndex"] 1 =
      some [some (ofChars s.form), s.ordinal.map fun n => ofNat n.toNat] :=
    record?_ofFields (by rfl) (by decide) 1
  have hordinal := optional_map word?_ofNat (fun _ => by simp [ofNat]) s.ordinal
  simp only [ofJson?, hfields, required, chars?_ofChars, hordinal]
  rfl

end Step

theorem timestampOfJson?_ofChars (t : Timestamp) :
    timestampOfJson? (ofChars t.chars) = some t := by
  rw [timestampOfJson?, chars?_ofChars]
  exact t.ofChars?_chars

namespace Entry

theorem plain_toJson (e : Entry) : e.toJson.Plain :=
  plain_ofFields
    (by simp [Plain.ofChars, plain_ofString, plain_array_map Step.plain_toJson])

theorem ofJson?_toJson (e : Entry) : Entry.ofJson? e.toJson = some e := by
  have hfields : e.toJson.record? ["id", "steps", "timestamp", "finalWord"] 4 =
      some [some (ofString e.id), some (array (e.steps.map Step.toJson)),
        some (ofChars e.timestamp.chars), some (ofChars e.finalWord)] :=
    record?_ofFields (by rfl) (by decide) 4
  have hsteps := list?_array_map Step.ofJson?_toJson e.steps
  simp only [ofJson?, hfields, required, string?_ofString, hsteps, timestampOfJson?_ofChars,
    chars?_ofChars]
  rfl

end Entry

namespace Snapshot

theorem plain_toJson (s : Snapshot) : s.toJson.Plain :=
  plain_ofFields (by
    simp [Plain.bool, plain_ofString, plain_array_map Step.plain_toJson,
      plain_array_map Entry.plain_toJson])

theorem ofJson?_toJson (s : Snapshot) : Snapshot.ofJson? s.toJson = some s := by
  have hfields : s.toJson.record?
      ["derivationSteps", "savedDerivations", "isCompleted", "grammarId"] 4 =
        some [some (array (s.steps.map Step.toJson)), some (array (s.saved.map Entry.toJson)),
          some (.bool s.isCompleted), some (ofString s.grammarId)] :=
    record?_ofFields (by rfl) (by decide) 4
  have hsteps := list?_array_map Step.ofJson?_toJson s.steps
  have hsaved := list?_array_map Entry.ofJson?_toJson s.saved
  simp only [ofJson?, hfields, required, withDefault, string?_ofString, hsteps, hsaved, bool?]
  rfl

theorem ofText?_text (s : Snapshot) : Snapshot.ofText? s.text = some s := by
  rw [ofText?, text, s.plain_toJson.ofText?_print, Option.bind_some, ofJson?_toJson]

/-! ### Snapshots in memory -/

theorem mapTimes_mapTimes {ρ σ τ : Type} (f : ρ → σ) (g : σ → τ) (s : Snapshot ρ) :
    (s.mapTimes f).mapTimes g = s.mapTimes (g ∘ f) := by
  rw [mapTimes, mapTimes, mapTimes, List.map_map]
  rfl

/-- A change of times that leaves the times of all entries as they are changes nothing. -/
theorem mapTimes_eq_self_iff {τ : Type} {f : τ → τ} {s : Snapshot τ} :
    s.mapTimes f = s ↔ ∀ e ∈ s.saved, f e.timestamp = e.timestamp := by
  have hentry (e : Entry τ) : e.mapTime f = e ↔ f e.timestamp = e.timestamp := by
    cases e
    simp [Entry.mapTime]
  have hentries : s.saved.map (·.mapTime f) = s.saved ↔ ∀ e ∈ s.saved, e.mapTime f = e := by
    calc s.saved.map (·.mapTime f) = s.saved
        ↔ s.saved.map (·.mapTime f) = s.saved.map id := by rw [List.map_id]
      _ ↔ ∀ e ∈ s.saved, e.mapTime f = e := List.map_inj_left
  obtain ⟨steps, saved, isCompleted, grammarId⟩ := s
  simp only [mapTimes, mk.injEq, true_and, and_true, hentries, hentry]

/-- What is read of a snapshot in memory is the snapshot with its times made regular. -/
theorem ofHeldText?_heldText (s : Snapshot Moment) :
    ofHeldText? s.heldText = some (s.mapTimes Moment.regularize) := by
  rw [ofHeldText?, heldText, ofText?_text, Option.map_some, mapTimes_mapTimes]
  congr 2
  funext m
  exact m.toMoment_toTimestamp

theorem ofHeldText?_heldText_eq_iff {s : Snapshot Moment} :
    ofHeldText? s.heldText = some s ↔ ∀ e ∈ s.saved, e.timestamp.Regular := by
  rw [ofHeldText?_heldText, Option.some.injEq, mapTimes_eq_self_iff]
  simp only [Moment.regularize_eq_self_iff]

/-- What was read holds regular moments only, so it is read back from its text. -/
theorem ofHeldText?_heldText_of_read {stored : String} {s : Snapshot Moment}
    (h : ofHeldText? stored = some s) : ofHeldText? s.heldText = some s := by
  obtain ⟨t, -, rfl⟩ := Option.map_eq_some_iff.mp h
  rw [ofHeldText?_heldText, mapTimes_mapTimes]
  congr 2
  funext time
  exact (Moment.regularize_eq_self_iff _).mpr time.regular_toMoment

/-- The text that a stored snapshot is written as; what cannot be read is not written either. -/
def rewrite? (stored : String) : Option String :=
  (ofHeldText? stored).map heldText

theorem ofHeldText?_of_rewrite? (stored : String) :
    (rewrite? stored).bind ofHeldText? = ofHeldText? stored := by
  cases hread : ofHeldText? stored with
  | none => simp [rewrite?, hread]
  | some s => simp [rewrite?, hread, ofHeldText?_heldText_of_read hread]

theorem rewrite?_of_rewrite? (stored : String) :
    (rewrite? stored).bind rewrite? = rewrite? stored := by
  have hread := ofHeldText?_of_rewrite? stored
  cases hstored : rewrite? stored with
  | none => rfl
  | some text =>
    rw [hstored, Option.bind_some] at hread
    rw [Option.bind_some, rewrite?, hread, ← rewrite?, hstored]

/-- A snapshot in memory is read back from its text with every leap second that does not end a minute
replaced by the second after it, and so it is read back as it was exactly if it holds no such moment.
Whatever was read holds none: writing gives a normal form of every text that can be read. The normal
form reads as the same snapshot, it is its own normal form, and texts share it exactly if they stand for
the same snapshot. -/
theorem heldText_normal :
    (∀ s : Snapshot Moment,
      ofHeldText? s.heldText = some (s.mapTimes Moment.regularize) ∧
        (ofHeldText? s.heldText = some s ↔ ∀ e ∈ s.saved, e.timestamp.Regular)) ∧
      ∀ stored : String, (rewrite? stored).bind ofHeldText? = ofHeldText? stored ∧
        (rewrite? stored).bind rewrite? = rewrite? stored ∧
        ∀ other, rewrite? other = rewrite? stored ↔ ofHeldText? other = ofHeldText? stored := by
  refine ⟨fun s => ⟨ofHeldText?_heldText s, ofHeldText?_heldText_eq_iff⟩, fun stored =>
    ⟨ofHeldText?_of_rewrite? stored, rewrite?_of_rewrite? stored, fun other => ⟨?_, ?_⟩⟩⟩
  · intro hsame
    rw [← ofHeldText?_of_rewrite? other, hsame, ofHeldText?_of_rewrite?]
  · intro hsame
    rw [rewrite?, hsame, rewrite?]

/-- A snapshot whose only entry was recorded at a given moment. -/
def recordedAt (m : Moment) : Snapshot Moment :=
  ⟨[], [⟨"leap", [], m, []⟩], false, ""⟩

/-- A leap second behind the first second of the epoch, half over. -/
def earlyLeap : Moment :=
  { Timestamp.epoch.toMoment with nanosecond := 1500000000, nanosecond_lt := by decide }

/-- The second after it, half over. -/
def afterEarlyLeap : Moment :=
  { Timestamp.epoch.toMoment with
    second := 1
    nanosecond := 500000000
    second_lt := by decide
    nanosecond_lt := by decide }

theorem earlyLeap_not_read_back :
    earlyLeap.toTimestamp.text = "1970-01-01T00:00:01.500Z" ∧
      ofHeldText? (recordedAt earlyLeap).heldText = some (recordedAt afterEarlyLeap) ∧
      ofHeldText? (recordedAt earlyLeap).heldText ≠ some (recordedAt earlyLeap) := by
  have hread := ofHeldText?_heldText (recordedAt earlyLeap)
  have hafter : (recordedAt earlyLeap).mapTimes Moment.regularize = recordedAt afterEarlyLeap := rfl
  rw [hafter] at hread
  refine ⟨by decide, hread, ?_⟩
  rw [ne_eq, ofHeldText?_heldText_eq_iff]
  decide

end Snapshot

namespace History

variable {g : Grammar} {h : History}

end History

end Sentential
