import Sentential.Proofs.CommandLine.HistoryKept
import Sentential.Proofs.Controller.Pump
import Sentential.Proofs.Session.Clearing

/-!
# Clearing against a storage that refuses

A controller clears its session first and only then asks for a save. If the save is refused, the storage
still has what it had, but the session has been cleared all the same: its derivation is gone, nothing is
staged, and its document no longer tells of them. So a refusal is without effect exactly where there was
nothing to clear. User, grammar and completed derivations stay in any case.
-/

namespace Sentential

namespace Session

/-- The stored history that clearing leaves: the completed derivations alone, if there are any. -/
def keptText? (s : Session) : Option String :=
  s.active.bind fun a =>
    if a.history.saved = [] then none else some (a.history.reset.snapshot a.grammar).text

/-- What clearing makes of a session, whatever its state. -/
theorem clear_eq (s : Session) : s.clear =
    ⟨s.document.withHistory s.keptText?, s.active.map fun a => ⟨a.grammar, a.history.reset⟩⟩ := by
  cases hactive : s.active with
  | none => simp [clear, reset, keptText?, hactive]
  | some a =>
    by_cases hsaved : a.history.saved = []
    · rw [clear_of_saved_eq_nil hactive hsaved, keptText?, hactive, Option.bind_some,
        if_pos hsaved, Option.map_some]
    · rw [clear_of_saved_ne_nil hactive hsaved, reset_of_active hactive, keptText?, hactive,
        Option.bind_some, if_neg hsaved, Option.map_some]
      rfl

theorem clear_history (s : Session) : s.clear.history = s.history.map History.reset := by
  rw [clear_eq, history, history, Option.map_map, Option.map_map]
  rfl

theorem clear_derivation (s : Session) :
    s.clear.history.map (·.derivation) = s.history.map fun _ => Derivation.start := by
  rw [clear_history, Option.map_map]
  rfl

theorem clear_staged (s : Session) : s.clear.history.bind History.staged = none := by
  rw [clear_history]
  cases s.history <;> rfl

theorem clear_document_iff (s : Session) :
    s.clear.document = s.document ↔ s.document.settings = some ⟨s.keptText?⟩ := by
  rw [clear_eq]
  constructor
  · intro h
    exact (congrArg Document.settings h).symm
  · intro h
    rw [Document.withHistory, ← h]

/-- Nothing in a session is left to clear. -/
structure Cleared (s : Session) : Prop where
  derivation_eq : ∀ h ∈ s.history, h.derivation = Derivation.start
  staged_eq : s.history.bind History.staged = none
  settings_eq : s.document.settings = some ⟨s.keptText?⟩

/-- Clearing leaves the derivation, what is staged and the document as they are exactly where nothing is
left to clear. -/
theorem clear_keeps_iff (s : Session) :
    (s.clear.history.map (·.derivation) = s.history.map (·.derivation) ∧
        s.clear.history.bind History.staged = s.history.bind History.staged ∧
        s.clear.document = s.document) ↔ s.Cleared := by
  have hderivation : s.clear.history.map (·.derivation) = s.history.map (·.derivation) ↔
      ∀ h ∈ s.history, h.derivation = Derivation.start := by
    rw [clear_derivation]
    cases s.history <;> simp [eq_comm]
  have hstaged : s.clear.history.bind History.staged = s.history.bind History.staged ↔
      s.history.bind History.staged = none := by
    rw [clear_staged, eq_comm]
  rw [hderivation, hstaged, clear_document_iff]
  exact ⟨fun ⟨hstart, hnone, hsettings⟩ => ⟨hstart, hnone, hsettings⟩,
    fun h => ⟨h.derivation_eq, h.staged_eq, h.settings_eq⟩⟩

end Session

namespace Controller

variable {σ κ : Type} [Storage σ] {held : σ → κ}

theorem isRefusal_saveEvent_iff {answer : Answer Unit} :
    answer.saveEvent.isRefusal = true ↔ answer ≠ .done () := by
  refine ⟨?_, Answer.isRefusal_saveEvent⟩
  intro hrefusal hdone
  rw [hdone] at hrefusal
  cases hrefusal

/-- A controller that answers a request to clear with a refusal leaves what the storage holds as it was.
Its session has been cleared nonetheless, in which user, written grammar and version, the grammar in use
and the completed derivations stay. The derivation, what is staged and the document are as before
exactly if nothing was left to clear. -/
theorem clear_refused_keeps_iff (hheld : Storage.Retains held) (c : Controller σ)
    (hrefused : c.clear.1.isRefusal = true) :
    held c.clear.2.storage = held c.storage ∧ c.clear.2.session = c.session.clear ∧
      (∃ settings, c.clear.2.session.document = { c.session.document with settings }) ∧
      c.clear.2.session.grammar = c.session.grammar ∧
      c.clear.2.session.history.map (·.saved) = c.session.history.map (·.saved) ∧
      ((c.clear.2.session.history.map (·.derivation) = c.session.history.map (·.derivation) ∧
          c.clear.2.session.history.bind History.staged = c.session.history.bind History.staged ∧
          c.clear.2.session.document = c.session.document) ↔ c.session.Cleared) := by
  have hcalls := c.session.effect_clear.calls
  have hsaved : c.session.clear.history.map (·.saved) = c.session.history.map (·.saved) := by
    rw [Session.clear_history, Option.map_map]
    rfl
  exact ⟨hheld.save _ _ (isRefusal_saveEvent_iff.mp hrefused), rfl, hcalls.document,
    hcalls.grammar_eq, hsaved, c.session.clear_keeps_iff⟩

open CommandLine (keptSession)

/-- A controller whose session and storage agree on a completed derivation, and whose next save is
cancelled. -/
def cancelling : Controller MemoryStorage where
  session := keptSession
  storage :=
    { document := some keptSession.document
      failure := none
      saveScript := [.cancelled]
      loadScript := []
      disk := ⟨[], []⟩ }
  autosave := false
  queue := []
  running := true

theorem cancelling_history : cancelling.session.history =
    ((Session.new Session.sampleUser).run Session.sampleCommands).history := by
  rw [Session.history, cancelling, keptSession, Session.persist_active]
  rfl

theorem cancelling_reopens :
    Session.ofDocument cancelling.session.document = .ok cancelling.session :=
  ((Session.coherent_new Session.sampleUser).run
    Session.sampleCommands_admissible).ofDocument_persist

theorem cancelling_staged : cancelling.session.history.bind History.staged ≠ none := by
  rw [cancelling_history]
  decide

/-- Its completed derivation stays, but it does have something left to clear. -/
theorem clear_refused_keeps_iff_cancelling :
    Storage.Retains MemoryStorage.document ∧ cancelling.clear.1.isRefusal = true ∧
      cancelling.clear.2.storage.document = cancelling.storage.document ∧
      cancelling.clear.2.session.history.map (·.saved) =
        cancelling.session.history.map (·.saved) ∧
      ¬ cancelling.session.Cleared := by
  obtain ⟨hheld, -, -, -, hsaved, -⟩ :=
    clear_refused_keeps_iff MemoryStorage.retains_document cancelling rfl
  exact ⟨MemoryStorage.retains_document, rfl, hheld, hsaved,
    fun hcleared => cancelling_staged hcleared.staged_eq⟩

/-- The cancelled save takes nothing from the storage, from which the session can be opened again, but
the controller has neither the derivation nor its staged entry any more, and its document is another. -/
theorem cancelled_clear_has_effect :
    cancelling.clear.1 = .cancelled ∧
      cancelling.clear.2.storage.document = cancelling.storage.document ∧
      (∃ stored, cancelling.storage.document = some stored ∧
        Session.ofDocument stored = .ok cancelling.session) ∧
      cancelling.clear.2.session.history.map (·.derivation) ≠
        cancelling.session.history.map (·.derivation) ∧
      cancelling.clear.2.session.history.bind History.staged ≠
        cancelling.session.history.bind History.staged ∧
      cancelling.clear.2.session.document ≠ cancelling.session.document := by
  have hderivation : cancelling.session.clear.history.map (·.derivation) ≠
      cancelling.session.history.map (·.derivation) := by
    rw [Session.clear_derivation, cancelling_history]
    decide
  have hstaged : cancelling.session.clear.history.bind History.staged ≠
      cancelling.session.history.bind History.staged := by
    rw [Session.clear_staged]
    exact cancelling_staged.symm
  refine ⟨rfl, rfl, ⟨_, rfl, cancelling_reopens⟩, hderivation, hstaged, ?_⟩
  decide +kernel

end Controller

end Sentential
