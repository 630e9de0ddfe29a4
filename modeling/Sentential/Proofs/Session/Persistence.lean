import Sentential.Proofs.Document.RoundTrip
import Sentential.Proofs.History.RoundTrip
import Sentential.Proofs.History.SameRules
import Sentential.Proofs.Session.Run

/-!
# Persisting and reopening sessions

Throughout a run the document describes the grammar in use, and the history is coherent for it. So
a session that has been persisted can be read back: its document is accepted as text, and opening
it gives the same grammar and the same history again. A grammar that is taken into use may keep the
history of the one before it, because fingerprints tell the grammars of a run apart by their rules.
-/

namespace Sentential

namespace Session

variable {s next : Session}

/-- The invariant of sessions: the document describes the grammar in use, and the history in use
is coherent for it. -/
structure Coherent (s : Session) : Prop where
  loads : s.document.loadGrammar = .ok s.grammar
  buildable : ∀ a ∈ s.active, a.grammar.Buildable
  history_coherent : ∀ a ∈ s.active, a.history.Coherent a.grammar

theorem coherent_of_active {d : Document} {g : Grammar} {h : History}
    (hloads : d.loadGrammar = .ok (some g)) (hg : g.Buildable) (hc : h.Coherent g) :
    (⟨d, some ⟨g, h⟩⟩ : Session).Coherent where
  loads := hloads
  buildable := by
    rintro a ⟨⟩
    exact hg
  history_coherent := by
    rintro a ⟨⟩
    exact hc

theorem coherent_new (u : User) : (new u).Coherent where
  loads := rfl
  buildable := by simp [new]
  history_coherent := by simp [new]

theorem document_of_ofDocument {d : Document} (h : ofDocument d = .ok s) : s.document = d := by
  unfold ofDocument at h
  split at h
  next => cases h
  next =>
    obtain rfl := Except.ok.inj h
    rfl
  next =>
    obtain rfl := Except.ok.inj h
    rfl

theorem exists_ofDocument {d : Document} {g : Option Grammar} (h : d.loadGrammar = .ok g) :
    ∃ s, ofDocument d = .ok s ∧ s.grammar = g := by
  rw [ofDocument, h]
  cases g with
  | none => exact ⟨_, rfl, rfl⟩
  | some g => exact ⟨_, rfl, rfl⟩

/-- What a document describes has been authored anew, so it is buildable. -/
theorem buildable_of_loadGrammar {d : Document} {g : Grammar}
    (h : d.loadGrammar = .ok (some g)) : g.Buildable := by
  unfold Document.loadGrammar at h
  split at h
  next => cases h
  next written _ =>
    split at h
    next g' hwritten =>
      obtain rfl : g' = g := Option.some.inj (Except.ok.inj h)
      exact GrammarSection.buildable_of_toGrammar hwritten
    next => cases h

theorem coherent_of_ofDocument {d : Document} (h : ofDocument d = .ok s) : s.Coherent := by
  unfold ofDocument at h
  split at h
  next => cases h
  next hloads =>
    obtain rfl := Except.ok.inj h
    exact ⟨hloads, by simp, by simp⟩
  next g hloads =>
    obtain rfl := Except.ok.inj h
    have hg := buildable_of_loadGrammar hloads
    exact coherent_of_active hloads hg (History.coherent_restore hg.wellFormed _)

/-- A call keeps a session coherent, because it keeps the history coherent. -/
theorem Coherent.of_calls (hc : s.Coherent) (h : s.Calls next) : next.Coherent := by
  obtain ⟨settings, hdocument⟩ := h.document
  have hloads : next.document.loadGrammar = .ok next.grammar := by
    rw [h.grammar_eq, ← hc.loads, hdocument]
    rfl
  rcases h.active with hsame | ⟨a, c, hactive, hnext⟩
  · exact ⟨hloads, hsame ▸ hc.buildable, hsame ▸ hc.history_coherent⟩
  · have hg := hc.buildable a hactive
    refine ⟨hloads, ?_, ?_⟩
    · intro a' ha'
      obtain rfl := Option.some.inj (hnext.symm.trans ha')
      exact hg
    · intro a' ha'
      obtain rfl := Option.some.inj (hnext.symm.trans ha')
      exact (hc.history_coherent a hactive).call hg.wellFormed c

/-- Taking a grammar into use either keeps the history, if it belongs to the fingerprint of the new
grammar, or starts a new one and drops the stored text. -/
theorem setGrammar_cases (g : Grammar) (s : Session) :
    (∃ a, s.active = some a ∧ a.history.grammarId = g.id ∧
        s.setGrammar g = ⟨s.document.withGrammar g, some ⟨g, a.history⟩⟩) ∨
      (∀ a ∈ s.active, a.history.grammarId ≠ g.id) ∧
        s.setGrammar g =
          ⟨(s.document.withGrammar g).withHistory none, some ⟨g, History.new g⟩⟩ := by
  unfold setGrammar
  cases hactive : s.active with
  | none => exact .inr ⟨by simp, rfl⟩
  | some a =>
    by_cases hid : a.history.grammarId = g.id
    · exact .inl ⟨a, rfl, hid, if_pos hid⟩
    · exact .inr ⟨by rintro a' ⟨⟩; exact hid, if_neg hid⟩

theorem loadGrammar_withGrammar {g : Grammar} (hg : g.Buildable) (d : Document) :
    (d.withGrammar g).loadGrammar = .ok (some g) := by
  simp only [Document.loadGrammar, Document.withGrammar, GrammarSection.toGrammar_ofGrammar hg]

theorem loadGrammar_setGrammar {g : Grammar} (hg : g.Buildable) (s : Session) :
    (s.setGrammar g).document.loadGrammar = .ok (some g) := by
  have hloads := loadGrammar_withGrammar hg s.document
  rcases setGrammar_cases g s with ⟨a, -, -, hset⟩ | ⟨-, hset⟩
  · rwa [hset]
  · rwa [hset]

/-- A buildable grammar can be taken into use if its fingerprint is that of the grammar before only
when the rules are the same. -/
theorem Coherent.setGrammar (hc : s.Coherent) {g : Grammar} (hg : g.Buildable)
    (hseparated : ∀ g' ∈ s.grammar, g'.id = g.id → g'.rules = g.rules) :
    (s.setGrammar g).Coherent := by
  have hloads := loadGrammar_withGrammar hg s.document
  rcases setGrammar_cases g s with ⟨a, hactive, hid, hset⟩ | ⟨-, hset⟩
  · -- The history goes on, since with the fingerprint the rules are the same.
    have hold := hc.history_coherent a hactive
    have hrules : a.grammar.rules = g.rules :=
      hseparated a.grammar (by simp [grammar, hactive]) (hold.grammarId_eq.symm.trans hid)
    rw [hset]
    exact coherent_of_active hloads hg
      (hold.of_rules_eq (hc.buildable a hactive).wellFormed hg.wellFormed hrules)
  · rw [hset]
    exact coherent_of_active hloads hg (History.coherent_new hg.wellFormed)

theorem Coherent.perform (hc : s.Coherent) {c : Command} {rest : List Command}
    (ha : s.Admissible (c :: rest)) : (s.perform c).Coherent := by
  cases hgrammar : c.grammar? with
  | none => exact hc.of_calls (s.calls_perform hgrammar)
  | some g =>
    cases c with
    | setGrammar g' =>
      obtain rfl : g' = g := Option.some.inj hgrammar
      refine hc.setGrammar (ha.buildable _ List.mem_cons_self g' hgrammar) ?_
      intro old hold
      refine ha.separated old ?_ g' ?_
      · exact List.mem_append_left _ (Option.mem_toList.mpr hold)
      · exact List.mem_append_right _ (by simp [Command.grammar?])
    | _ => cases hgrammar

theorem Coherent.run (hc : s.Coherent) {commands : List Command} (ha : s.Admissible commands) :
    (s.run commands).Coherent := by
  induction commands generalizing s with
  | nil => exact hc
  | cons c rest ih => exact ih (hc.perform ha) ha.tail

theorem perform_document (s : Session) (c : Command) :
    (s.perform c).document.user = s.document.user ∧
      (s.perform c).document.version = s.document.version := by
  cases hgrammar : c.grammar? with
  | none =>
    obtain ⟨settings, hdocument⟩ := (s.calls_perform hgrammar).document
    rw [hdocument]
    exact ⟨rfl, rfl⟩
  | some g =>
    cases c with
    | setGrammar g' =>
      rw [Session.perform]
      rcases setGrammar_cases g' s with ⟨a, -, -, hset⟩ | ⟨-, hset⟩ <;> rw [hset] <;>
        exact ⟨rfl, rfl⟩
    | _ => cases hgrammar

theorem run_document (s : Session) (commands : List Command) :
    (s.run commands).document.user = s.document.user ∧
      (s.run commands).document.version = s.document.version := by
  induction commands generalizing s with
  | nil => exact ⟨rfl, rfl⟩
  | cons c rest ih =>
    obtain ⟨huser, hversion⟩ := s.perform_document c
    obtain ⟨hrestUser, hrestVersion⟩ := ih (s.perform c)
    exact ⟨hrestUser.trans huser, hrestVersion.trans hversion⟩

/-- A run leaves a sound document sound if what it describes can still be read. -/
theorem document_sound_run (commands : List Command) {g : Option Grammar} (hs : s.document.Sound)
    (hloads : (s.run commands).document.loadGrammar = .ok g) :
    (s.run commands).document.Sound := by
  obtain ⟨huser, hversion⟩ := s.run_document commands
  exact ⟨hversion ▸ hs.supported, huser ▸ hs.user_check, _, hloads⟩

/-- A sound document stays sound when a session on it takes a buildable grammar into use and is
persisted, and it then describes this grammar. -/
theorem sound_setGrammar_persist {g : Grammar} (hs : s.document.Sound) (hg : g.Buildable) :
    (s.setGrammar g).persist.document.Sound ∧
      (s.setGrammar g).persist.document.loadGrammar = .ok (some g) := by
  obtain ⟨settings, hdocument⟩ := (s.setGrammar g).calls_persist.document
  have hloads : (s.setGrammar g).persist.document.loadGrammar = .ok (some g) := by
    rw [hdocument]
    exact loadGrammar_setGrammar hg s
  exact ⟨document_sound_run [.setGrammar g, .persist] hs hloads, hloads⟩

theorem Initial.coherent (h : s.Initial) : s.Coherent := by
  cases h with
  | new _ => exact coherent_new _
  | opened _ hopen => exact coherent_of_ofDocument hopen

theorem Initial.document_sound (h : s.Initial) : s.document.Sound := by
  cases h with
  | new hinput =>
    have hversion : Document.isSupported Document.currentVersion = true := by decide
    exact ⟨hversion, User.check_of_ofInput hinput, none, rfl⟩
  | opened hread hopen =>
    rw [document_of_ofDocument hopen]
    exact Document.sound_of_ofText hread

theorem loadGrammar_withHistory (text : Option String) (d : Document) :
    (d.withHistory text).loadGrammar = d.loadGrammar := rfl

theorem history_withHistory (text : String) (d : Document) :
    (d.withHistory (some text)).history = Snapshot.ofText? text := rfl

theorem Coherent.ofDocument_persist (hc : s.Coherent) :
    ofDocument s.persist.document = .ok s.persist := by
  obtain ⟨d, active⟩ := s
  cases active with
  | none =>
    have hloads : d.loadGrammar = .ok none := hc.loads
    simp only [persist, ofDocument, hloads]
  | some a =>
    have hloads : (d.withHistory (some (a.history.snapshot a.grammar).text)).loadGrammar =
        .ok (some a.grammar) := (loadGrammar_withHistory _ d).trans hc.loads
    have hread : (d.withHistory (some (a.history.snapshot a.grammar).text)).history =
        some (a.history.snapshot a.grammar) :=
      (history_withHistory _ d).trans (a.history.snapshot a.grammar).ofText?_text
    have hrestore := (hc.history_coherent a rfl).restore_snapshot
    simp only [persist, ofDocument, hloads, hread, hrestore]

/-- What a session writes when it is persisted can be read back, and opening it gives the same
session again: its user, its grammar, its derivation, its entries in their order, and what is
staged. -/
theorem reopen_persisted {s final : Session} {commands : List Command} (hs : s.Initial)
    (ha : s.Admissible commands) (hfinal : (s.run commands).persist = final) :
    Document.ofText final.document.text = .ok final.document ∧
      ofDocument final.document = .ok final := by
  have hc : (s.run commands).Coherent := hs.coherent.run ha
  have hpersisted : final.Coherent := hfinal ▸ hc.of_calls (s.run commands).calls_persist
  have hsound : final.document.Sound := by
    obtain ⟨huser, hversion⟩ := s.run_document (commands ++ [.persist])
    have hrun : s.run (commands ++ [.persist]) = final := by
      rw [run, List.foldl_append]
      exact hfinal
    rw [hrun] at huser hversion
    exact ⟨hversion ▸ hs.document_sound.supported, huser ▸ hs.document_sound.user_check, _,
      hpersisted.loads⟩
  exact ⟨hsound.ofText_text, hfinal ▸ hc.ofDocument_persist⟩

def sampleUser : User := ⟨"Иванов", "Иван", "Иванович", "ИВТ-21"⟩

/-- Commands that begin with a part of the small grammar and complete a derivation of all of it. -/
def sampleCommands : List Command :=
  let stamp : Stamp := ⟨"first", Calendar.Timestamp.epoch⟩
  [.setGrammar { Grammar.sample with rules := Grammar.sample.rules.take 3 }, .apply stamp 1,
    .setGrammar Grammar.sample, .apply stamp 1, .pressKey stamp '2', .apply stamp 3,
    .pressKey stamp '3', .remove "other"]

theorem sampleCommands_admissible : (new sampleUser).Admissible sampleCommands where
  buildable := by decide
  separated := by decide +kernel

theorem reopen_persisted_sample :
    (new sampleUser).Initial ∧ (new sampleUser).Admissible sampleCommands ∧
      ∃ final, ((new sampleUser).run sampleCommands).persist = final ∧
        final.history.bind (·.stagedId) = some "first" ∧
        Document.ofText final.document.text = .ok final.document ∧
        ofDocument final.document = .ok final := by
  have hinput : User.ofInput " Иванов" "Иван" "Иванович " "ИВТ-21" = .ok sampleUser := by rfl
  have hstaged : ((new sampleUser).run sampleCommands).persist.history.bind (·.stagedId) =
      some "first" := by
    rw [history, persist_active]
    rfl
  exact ⟨.new hinput, sampleCommands_admissible, _, rfl, hstaged,
    reopen_persisted (.new hinput) sampleCommands_admissible rfl⟩

end Session

end Sentential
