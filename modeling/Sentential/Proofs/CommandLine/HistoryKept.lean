import Sentential.Proofs.CommandLine.GrammarRun
import Sentential.Proofs.Session.Consistency

/-!
# What becomes of the history when a grammar is saved

A run of `grammar` takes the history through its document twice: it is restored when the document is
opened, and what the new grammar leaves of it is written and restored again. So the saved document
opens to the history that it had before if the rules are still the same, however they were authored,
and to a new one if they are not.
-/

namespace Sentential

namespace CommandLine

variable {s s' : FileStorage} {session : Session} {g : Grammar}

/-- Unless fingerprints confuse the grammar with the one before, the session that takes it into use is
the one that opens from where it has been saved. -/
theorem openSession_setGrammar (hopen : openSession s = .ok session) (hg : g.Buildable)
    (hseparated : ∀ old ∈ session.grammar, old.id = g.id → old.rules = g.rules)
    (hsave : saveSession (session.setGrammar g).persist s = .ok s') :
    openSession s' = .ok (session.setGrammar g).persist := by
  have hinitial := initial_of_openSession hopen
  obtain ⟨disk, hwrite, rfl⟩ := saveSession_eq_ok_iff.mp hsave
  obtain ⟨hsound, -⟩ := Session.sound_setGrammar_persist hinitial.document_sound hg
  exact openSession_eq_ok_iff.mpr ⟨_, _, Disk.readText_of_writeText hwrite, hsound.ofText_text,
    (hinitial.coherent.setGrammar hg hseparated).ofDocument_persist⟩

/-- Where a document opens and the arguments yield a grammar, the run of `grammar` succeeds. -/
theorem exists_run_of_author {args : List String} {d : Disk} {path : String} {window : Nat}
    {a : GrammarArguments} (input : ByteArray) (stamps : Nat → Nat → Stamp)
    (hargs : readArguments args = .ok ⟨path, window, .grammar a⟩)
    (hopen : openSession ⟨d, path⟩ = .ok session)
    (hauthor : (a.author session.grammar window).2 = .ok g) :
    ∃ report d', run args input stamps d = .ok (report, d') ∧ report.exitCode = 0 := by
  obtain ⟨report, s', hrun, -, hresult⟩ := runGrammar_of_openSession hopen a window
  rw [hauthor] at hresult
  refine ⟨report, s'.disk, ?_, hresult.1⟩
  simp only [run, hargs, Except.map, Invocation.run, check_of_openSession hopen, Command.run, hrun]

/-- A run of `grammar` succeeds in no other way than this: the document opens, the arguments yield a
grammar, and the session that takes it into use is saved. -/
theorem saved_of_run {args : List String} {d d' : Disk} {path : String} {window : Nat}
    {a : GrammarArguments} {report : Report} {input : ByteArray} {stamps : Nat → Nat → Stamp}
    (hargs : readArguments args = .ok ⟨path, window, .grammar a⟩)
    (hrun : run args input stamps d = .ok (report, d')) (hexit : report.exitCode = 0) :
    ∃ session g, openSession ⟨d, path⟩ = .ok session ∧
      (a.author session.grammar window).2 = .ok g ∧
      saveSession (session.setGrammar g).persist ⟨d, path⟩ = .ok ⟨d', path⟩ := by
  rw [run, hargs, Except.map] at hrun
  have hinvocation := Except.ok.inj hrun
  unfold Invocation.run at hinvocation
  split at hinvocation
  next objection _ =>
    obtain ⟨rfl, -⟩ := Prod.mk.inj hinvocation
    cases hexit
  next =>
    cases hopen : openSession ⟨d, path⟩ with
    | error failure =>
      rw [Command.run, runGrammar, hopen] at hinvocation
      obtain ⟨rfl, -⟩ := Prod.mk.inj hinvocation
      cases hexit
    | ok session =>
      obtain ⟨report', s', hgrammar, -, hresult⟩ := runGrammar_of_openSession hopen a window
      rw [Command.run, hgrammar] at hinvocation
      obtain ⟨rfl, rfl⟩ := Prod.mk.inj hinvocation
      cases hauthor : (a.author session.grammar window).2 with
      | error failure =>
        rw [hauthor] at hresult
        exact absurd (hresult.1.symm.trans hexit) Nat.one_ne_zero
      | ok g =>
        rw [hauthor] at hresult
        obtain ⟨-, hsave⟩ := hresult
        obtain ⟨disk, -, rfl⟩ := saveSession_eq_ok_iff.mp hsave
        exact ⟨session, g, rfl, hauthor, hsave⟩

/-- After every run of `grammar` that succeeds, the document opens to a grammar that the arguments
author from the one before. If the rules are the same as before, it also opens to the same derivation,
the same entries and the same staged entry; if they differ or there was no grammar, the history is a
new one, provided that the fingerprints tell the rules apart. -/
theorem run_grammar_keeps_history {args : List String} {d d' : Disk} {path : String}
    {window : Nat} {a : GrammarArguments} {report : Report} {input : ByteArray}
    {stamps : Nat → Nat → Stamp}
    (hargs : readArguments args = .ok ⟨path, window, .grammar a⟩)
    (hrun : run args input stamps d = .ok (report, d')) (hexit : report.exitCode = 0) :
    ∃ session reopened g, openSession ⟨d, path⟩ = .ok session ∧
      openSession ⟨d', path⟩ = .ok reopened ∧ reopened.grammar = some g ∧
      a.Authors window (a.origin session.grammar) g ∧
      (session.grammar.map (·.rules) = some g.rules → reopened.history = session.history) ∧
      (session.grammar.map (·.rules) ≠ some g.rules →
        (∀ old ∈ session.grammar, old.id = g.id → old.rules = g.rules) →
        reopened.history = some (History.new g)) := by
  obtain ⟨session, g, hopen, hauthor, hsave⟩ := saved_of_run hargs hrun hexit
  have hinitial := initial_of_openSession hopen
  have hstored := wellFormed_of_openSession hopen
  have hauthors := (GrammarArguments.authors_iff hstored).mpr hauthor
  have hg := hauthors.buildable (a.origin_wellFormed hstored)
  obtain ⟨hsound, hloads⟩ := Session.sound_setGrammar_persist hinitial.document_sound hg
  obtain ⟨reopened, hreopen, hgrammar⟩ := openSession_of_saveSession hsave hsound hloads
  -- Where fingerprints are no obstacle, what opens is the session that was saved.
  have hhistory (hseparated : ∀ old ∈ session.grammar, old.id = g.id → old.rules = g.rules) :
      reopened.history = (session.setGrammar g).history := by
    have hsame := openSession_setGrammar hopen hg hseparated hsave
    obtain rfl := Except.ok.inj (hreopen.symm.trans hsame)
    rw [Session.history, Session.persist_active, Session.history]
  refine ⟨session, reopened, g, hopen, hreopen, hgrammar, hauthors, ?_, ?_⟩
  · intro hrules
    have hseparated : ∀ old ∈ session.grammar, old.id = g.id → old.rules = g.rules := by
      intro old hold _
      rw [Option.mem_def.mp hold] at hrules
      exact Option.some.inj hrules
    rw [hhistory hseparated]
    exact (hinitial.coherent.setGrammar_history hseparated).1 hrules
  · intro hrules hseparated
    rw [hhistory hseparated]
    exact ((hinitial.coherent.setGrammar_history hseparated).2 hrules).1

theorem eq_of_author {a : GrammarArguments} {window : Nat} {g' : Grammar}
    (hopen : openSession s = .ok session) (hauthor : (a.author session.grammar window).2 = .ok g)
    (hauthors : a.Authors window (a.origin session.grammar) g') : g' = g := by
  have hauthor' := (GrammarArguments.authors_iff (wellFormed_of_openSession hopen)).mp hauthors
  exact Except.ok.inj (hauthor'.symm.trans hauthor)

/-- The session that a run on the small grammar leaves, with a derivation of which the entry is
staged. -/
def keptSession : Session :=
  ((Session.new Session.sampleUser).run Session.sampleCommands).persist

/-- A disk that holds nothing but one document. -/
def diskOf (document : Document) : Disk :=
  ⟨[], [([standardSnapshot], .file document.text.toUTF8)]⟩

theorem readText_diskOf (document : Document) :
    (diskOf document).readText standardSnapshot = .ok document.text :=
  Disk.readText_eq_ok_iff.mpr ⟨[], standardSnapshot.toList, by rfl, by decide, by rfl⟩

theorem keptSession_grammar : keptSession.grammar = some Grammar.sample := by
  rw [keptSession, (Session.calls_persist _).grammar_eq]
  simp [Session.run, Session.sampleCommands, Session.perform_grammar, Session.Command.grammar?]

theorem openSession_kept :
    openSession ⟨diskOf keptSession.document, standardSnapshot⟩ = .ok keptSession := by
  have hrun := (Session.coherent_new Session.sampleUser).run Session.sampleCommands_admissible
  have hloads := (hrun.of_calls (Session.calls_persist _)).loads
  have hnew : (Session.new Session.sampleUser).document.Sound :=
    ⟨by decide, by rfl, none, rfl⟩
  have hsound : keptSession.document.Sound :=
    Session.document_sound_run [.persist]
      (Session.document_sound_run Session.sampleCommands hnew hrun.loads) hloads
  exact openSession_eq_ok_iff.mpr ⟨_, _, readText_diskOf _, hsound.ofText_text,
    hrun.ofDocument_persist⟩

def addingArgs : List String :=
  ["grammar", "-t", "в"]

def removingArgs : List String :=
  ["grammar", "--remove-rule", "4"]

/-- On that document, adding a terminal keeps the completed derivation and its staged entry; removing a
rule leaves a new history. -/
theorem run_grammar_keeps_history_sample :
    ∃ adding removing report report' d d',
      readArguments addingArgs = .ok ⟨standardSnapshot, Notice.standardWindow, .grammar adding⟩ ∧
      run addingArgs .empty (fun _ _ => ⟨"", .epoch⟩) (diskOf keptSession.document) =
        .ok (report, d) ∧
      report.exitCode = 0 ∧
      readArguments removingArgs =
        .ok ⟨standardSnapshot, Notice.standardWindow, .grammar removing⟩ ∧
      run removingArgs .empty (fun _ _ => ⟨"", .epoch⟩) (diskOf keptSession.document) =
        .ok (report', d') ∧
      report'.exitCode = 0 ∧
      (∃ reopened, openSession ⟨d, standardSnapshot⟩ = .ok reopened ∧
        reopened.history = keptSession.history ∧
        reopened.history.bind (·.stagedId) = some "first") ∧
      ∃ reopened, openSession ⟨d', standardSnapshot⟩ = .ok reopened ∧
        reopened.history = some (History.new Session.narrowed) := by
  have hadding : readArguments addingArgs = .ok ⟨standardSnapshot, Notice.standardWindow,
      .grammar ⟨["в"], [], [], [], [], [], false⟩⟩ := by decide +kernel
  have hremoving : readArguments removingArgs = .ok ⟨standardSnapshot, Notice.standardWindow,
      .grammar ⟨[], [], [], [4], [], [], false⟩⟩ := by decide +kernel
  have hwidened : (GrammarArguments.author ⟨["в"], [], [], [], [], [], false⟩ keptSession.grammar
      Notice.standardWindow).2 = .ok Session.widened := by
    rw [keptSession_grammar]
    rfl
  have hnarrowed : (GrammarArguments.author ⟨[], [], [], [4], [], [], false⟩ keptSession.grammar
      Notice.standardWindow).2 = .ok Session.narrowed := by
    rw [keptSession_grammar]
    rfl
  obtain ⟨report, d, hrun, hexit⟩ :=
    exists_run_of_author .empty (fun _ _ => ⟨"", .epoch⟩) hadding openSession_kept hwidened
  obtain ⟨report', d', hrun', hexit'⟩ :=
    exists_run_of_author .empty (fun _ _ => ⟨"", .epoch⟩) hremoving openSession_kept hnarrowed
  refine ⟨_, _, report, report', d, d', hadding, hrun, hexit, hremoving, hrun', hexit', ?_, ?_⟩
  · obtain ⟨session, reopened, g, hopen, hreopen, -, hauthors, hsame, -⟩ :=
      run_grammar_keeps_history hadding hrun hexit
    obtain rfl := Except.ok.inj (openSession_kept.symm.trans hopen)
    obtain rfl := eq_of_author hopen hwidened hauthors
    have hkept : reopened.history = keptSession.history := by
      refine hsame ?_
      rw [keptSession_grammar]
      rfl
    refine ⟨reopened, hreopen, hkept, ?_⟩
    rw [hkept, keptSession, Session.history, Session.persist_active]
    rfl
  · obtain ⟨session, reopened, g, hopen, hreopen, -, hauthors, -, hother⟩ :=
      run_grammar_keeps_history hremoving hrun' hexit'
    obtain rfl := Except.ok.inj (openSession_kept.symm.trans hopen)
    obtain rfl := eq_of_author hopen hnarrowed hauthors
    have hless : Grammar.sample.rules ≠ Session.narrowed.rules := by decide
    have hid : Grammar.sample.id ≠ Session.narrowed.id := by decide +kernel
    rw [keptSession_grammar] at hother
    refine ⟨reopened, hreopen, hother ?_ ?_⟩
    · intro hrules
      exact hless (Option.some.inj hrules)
    · intro old hold hsameId
      obtain rfl := Option.some.inj hold
      exact absurd hsameId hid

end CommandLine

end Sentential
