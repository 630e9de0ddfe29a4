import Sentential.Proofs.Session.Consistency

/-!
# Clearing a session

Clearing starts over and keeps the completed derivations, in the session and in its document alike:
opening the document gives the cleared session again. This does not depend on fingerprints. A grammar
whose fingerprint is that of other rules may leave a derivation in use that does not replay, but the
derivation and what is staged are exactly what clearing throws away.
-/

namespace Sentential

namespace Session

variable {s next final : Session} {g : Grammar} {a : Active}

/-- What a session keeps even if fingerprints do not tell rules apart, which is enough to make it
coherent by resetting it. -/
structure Resettable (s : Session) : Prop where
  loads : s.document.loadGrammar = .ok s.grammar
  buildable : ∀ a ∈ s.active, a.grammar.Buildable
  grammarId_eq : ∀ a ∈ s.active, a.history.grammarId = a.grammar.id
  chains_nodup : ∀ a ∈ s.active, (a.history.saved.map (·.steps)).Nodup

theorem Coherent.resettable (hc : s.Coherent) : s.Resettable where
  loads := hc.loads
  buildable := hc.buildable
  grammarId_eq a ha := (hc.history_coherent a ha).grammarId_eq
  chains_nodup a ha := (hc.history_coherent a ha).chains_nodup

theorem resettable_of_active {d : Document} {h : History} (hloads : d.loadGrammar = .ok (some g))
    (hg : g.Buildable) (hid : h.grammarId = g.id) (hn : (h.saved.map (·.steps)).Nodup) :
    (⟨d, some ⟨g, h⟩⟩ : Session).Resettable where
  loads := hloads
  buildable := by
    intro a ha
    obtain rfl := Option.some.inj ha
    exact hg
  grammarId_eq := by
    intro a ha
    obtain rfl := Option.some.inj ha
    exact hid
  chains_nodup := by
    intro a ha
    obtain rfl := Option.some.inj ha
    exact hn

theorem Resettable.of_calls (hr : s.Resettable) (h : s.Calls next) : next.Resettable := by
  obtain ⟨settings, hdocument⟩ := h.document
  have hloads : next.document.loadGrammar = .ok next.grammar := by
    rw [h.grammar_eq, ← hr.loads, hdocument]
    rfl
  rcases h.active with hsame | ⟨a, c, hactive, hnext⟩
  · exact ⟨hloads, hsame ▸ hr.buildable, hsame ▸ hr.grammarId_eq, hsame ▸ hr.chains_nodup⟩
  · obtain ⟨hid, hn⟩ := a.history.call_keeps (g := a.grammar) c (hr.chains_nodup a hactive)
    obtain ⟨d, active⟩ := next
    obtain rfl : active = _ := hnext
    exact resettable_of_active hloads (hr.buildable a hactive)
      (hid.trans (hr.grammarId_eq a hactive)) hn

/-- Taking a grammar into use needs no assumption on fingerprints here: if the history goes on, it is
because it has the fingerprint of the new grammar. -/
theorem Resettable.setGrammar (hr : s.Resettable) (hg : g.Buildable) :
    (s.setGrammar g).Resettable := by
  have hloads := loadGrammar_withGrammar hg s.document
  rcases setGrammar_cases g s with ⟨a, hactive, hid, hset⟩ | ⟨-, hset⟩
  · rw [hset]
    exact resettable_of_active hloads hg hid (hr.chains_nodup a hactive)
  · rw [hset]
    exact resettable_of_active hloads hg rfl List.nodup_nil

theorem Resettable.perform (hr : s.Resettable) {c : Command}
    (hbuildable : ∀ g ∈ c.grammar?, g.Buildable) : (s.perform c).Resettable := by
  cases hgrammar : c.grammar? with
  | none => exact hr.of_calls (s.calls_perform hgrammar)
  | some g =>
    cases c with
    | setGrammar g' => exact hr.setGrammar (hbuildable g' rfl)
    | _ => cases hgrammar

theorem Resettable.run (hr : s.Resettable) {commands : List Command}
    (hbuildable : ∀ c ∈ commands, ∀ g ∈ c.grammar?, g.Buildable) :
    (s.run commands).Resettable := by
  induction commands generalizing s with
  | nil => exact hr
  | cons c rest ih =>
    refine ih (hr.perform (hbuildable c List.mem_cons_self)) ?_
    intro c' hc'
    exact hbuildable c' (List.mem_cons_of_mem c hc')

theorem reset_of_active (hactive : s.active = some a) :
    s.reset = s.withActive a.grammar a.history.reset := by
  rw [reset, hactive]

theorem Resettable.coherent_reset (hr : s.Resettable) (hactive : s.active = some a) :
    s.reset.Coherent := by
  have hg := hr.buildable a hactive
  have hloads : s.document.loadGrammar = .ok (some a.grammar) := by
    rw [hr.loads, grammar, hactive]
    rfl
  rw [reset_of_active hactive]
  exact coherent_of_active hloads hg (History.coherent_reset hg.wellFormed
    (hr.grammarId_eq a hactive) (hr.chains_nodup a hactive))

theorem clear_of_saved_eq_nil (hactive : s.active = some a) (hsaved : a.history.saved = []) :
    s.clear = ⟨s.document.withHistory none, some ⟨a.grammar, a.history.reset⟩⟩ := by
  have hreset : a.history.reset.saved = [] := hsaved
  simp only [clear, reset_of_active hactive, withActive, hreset, ↓reduceIte]

theorem clear_of_saved_ne_nil (hactive : s.active = some a) (hsaved : a.history.saved ≠ []) :
    s.clear = s.reset.persist := by
  have hreset : a.history.reset.saved ≠ [] := hsaved
  simp only [clear, reset_of_active hactive, withActive, hreset, ↓reduceIte]

theorem clear_active (hactive : s.active = some a) :
    s.clear.active = some ⟨a.grammar, a.history.reset⟩ := by
  by_cases hsaved : a.history.saved = []
  · rw [clear_of_saved_eq_nil hactive hsaved]
  · rw [clear_of_saved_ne_nil hactive hsaved, persist_active, reset_of_active hactive]
    rfl

theorem historyText_clear (hactive : s.active = some a) :
    s.clear.document.historyText = if a.history.saved = [] then none
      else some (a.history.reset.snapshot a.grammar).text := by
  split
  next hsaved =>
    rw [clear_of_saved_eq_nil hactive hsaved]
    rfl
  next hsaved =>
    rw [clear_of_saved_ne_nil hactive hsaved, reset_of_active hactive]
    rfl

/-- With nothing saved, the history that clearing leaves is the one a document without a history
opens with. -/
theorem Resettable.reset_eq_new (hr : s.Resettable) (hactive : s.active = some a)
    (hsaved : a.history.saved = []) : a.history.reset = History.new a.grammar := by
  rw [History.reset, hsaved, hr.grammarId_eq a hactive, History.new]

/-- The snapshot of a history that has been reset has its entries, but no step of its derivation. -/
theorem Resettable.snapshot_reset (hr : s.Resettable) (hactive : s.active = some a) :
    a.history.reset.snapshot a.grammar =
      ⟨[Step.initial], a.history.saved, false, a.grammar.id⟩ := by
  have hprogress := History.progress_start (hr.buildable a hactive).wellFormed
  rw [History.snapshot, ← hr.grammarId_eq a hactive]
  simp [History.reset, History.progress, hprogress]

/-- Opening the document of a session that has been cleared gives the session again. -/
theorem Resettable.ofDocument_clear (hr : s.Resettable) (hactive : s.active = some a) :
    ofDocument s.clear.document = .ok s.clear := by
  by_cases hsaved : a.history.saved = []
  · have hloads : (s.document.withHistory none).loadGrammar = .ok (some a.grammar) := by
      rw [loadGrammar_withHistory, hr.loads, grammar, hactive]
      rfl
    have hnone : (s.document.withHistory none).history = none := rfl
    rw [clear_of_saved_eq_nil hactive hsaved, hr.reset_eq_new hactive hsaved, ofDocument, hloads]
    simp only [hnone, History.restore]
  · rw [clear_of_saved_ne_nil hactive hsaved]
    exact (hr.coherent_reset hactive).ofDocument_persist

/-- A run may take any buildable grammars into use, and begin with any document that can be opened.
When the session is cleared then, its entries stay, its derivation is the start symbol with nothing
staged, and its document opens as this very session. The document has a stored history exactly if
there are entries, and that history has these entries and nothing else. -/
theorem clear_keeps_entries {commands : List Command} (hs : s.Started)
    (hbuildable : ∀ c ∈ commands, ∀ g ∈ c.grammar?, g.Buildable)
    (hfinal : s.run commands = final) (hactive : final.active = some a) :
    ∃ h, final.clear.active = some ⟨a.grammar, h⟩ ∧ h.saved = a.history.saved ∧
      h.derivation = Derivation.start ∧ h.staged = none ∧
      ofDocument final.clear.document = .ok final.clear ∧
      (final.clear.document.historyText = none ↔ h.saved = []) ∧
      ∀ text ∈ final.clear.document.historyText, Snapshot.ofText? text =
        some ⟨[Step.initial], a.history.saved, false, a.grammar.id⟩ := by
  subst hfinal
  have hr := hs.coherent.resettable.run hbuildable
  refine ⟨a.history.reset, clear_active hactive, rfl, rfl, rfl, hr.ofDocument_clear hactive, ?_⟩
  rw [historyText_clear hactive]
  split
  next hsaved => exact ⟨iff_of_true rfl hsaved, nofun⟩
  next hsaved =>
    refine ⟨iff_of_false (by simp) hsaved, ?_⟩
    intro text htext
    obtain rfl := Option.some.inj htext
    rw [Snapshot.ofText?_text, hr.snapshot_reset hactive]

/-- The run that ends with a staged word is cleared: the word is still there, but no longer staged. -/
theorem clear_keeps_entries_sample :
    (new sampleUser).Started ∧ (∀ c ∈ sampleCommands, ∀ g ∈ c.grammar?, g.Buildable) ∧
      ∃ final a h, (new sampleUser).run sampleCommands = final ∧ final.active = some a ∧
        a.history.stagedId = some "first" ∧ final.clear.active = some ⟨a.grammar, h⟩ ∧
        h.saved = a.history.saved ∧ h.saved ≠ [] ∧ h.derivation = Derivation.start ∧
        h.staged = none ∧ final.clear.document.historyText ≠ none ∧
        ofDocument final.clear.document = .ok final.clear := by
  have hstaged : ((new sampleUser).run sampleCommands).history.bind (·.stagedId) =
      some "first" := rfl
  have hentries : ((new sampleUser).run sampleCommands).history.map (·.saved) ≠ some [] := by
    decide +kernel
  obtain ⟨h, hh, hfirst⟩ := Option.bind_eq_some_iff.mp hstaged
  obtain ⟨a, hactive, rfl⟩ := Option.map_eq_some_iff.mp hh
  have hsaved : a.history.saved ≠ [] := by
    intro hnil
    rw [hh, Option.map_some, hnil] at hentries
    exact hentries rfl
  obtain ⟨h, hcleared, hkept, hstart, hnone, hopen, htext, -⟩ := clear_keeps_entries
    (.new sampleUser) sampleCommands_admissible.buildable rfl hactive
  exact ⟨.new sampleUser, sampleCommands_admissible.buildable, _, a, h, rfl, hactive, hfirst,
    hcleared, hkept, hkept ▸ hsaved, hstart, hnone, fun habsent => hsaved (hkept ▸ htext.mp habsent),
    hopen⟩

end Session

end Sentential
