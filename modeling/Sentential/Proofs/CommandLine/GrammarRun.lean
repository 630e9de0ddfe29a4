import Sentential.CommandLine.Run
import Sentential.Proofs.CommandLine.Authoring
import Sentential.Proofs.Disk.Files
import Sentential.Proofs.Session.Persistence

/-!
# What a run of `grammar` saves

A document that opens can be written again where it is, so once authoring yields a grammar nothing
keeps the run from saving it. What is saved opens to this grammar: the document has only exchanged its
grammar and its stored history, and the file is read back as it was written.
-/

namespace Sentential

/-- From a well-formed grammar only terminals and rules can be missing. -/
theorem Grammar.WellFormed.missingPart?_eq_none_iff {g : Grammar} (h : g.WellFormed) :
    g.missingPart? = none ↔ g.terminals ≠ [] ∧ g.rules ≠ [] := by
  rw [Grammar.missingPart?_eq_none_iff]
  simp [List.mem_of_head? h.start_first]

namespace CommandLine

/-! ### Opening and saving -/

theorem openSession_eq_ok_iff {s : FileStorage} {session : Session} :
    openSession s = .ok session ↔ ∃ text d, s.disk.readText s.path = .ok text ∧
      Document.ofText text = .ok d ∧ Session.ofDocument d = .ok session := by
  unfold openSession FileStorage.load
  cases s.disk.readText s.path with
  | error cause => simp
  | ok text =>
    cases hread : Document.ofText text with
    | error cause => simp [hread]
    | ok d =>
      cases hopen : Session.ofDocument d with
      | error cause => simp [hread, hopen]
      | ok session => simp [hread, hopen]

theorem saveSession_eq_ok_iff {session : Session} {s s' : FileStorage} :
    saveSession session s = .ok s' ↔ ∃ disk,
      s.disk.writeText s.path session.document.text = .ok disk ∧ s' = { s with disk } := by
  unfold saveSession FileStorage.save
  cases s.disk.writeText s.path session.document.text with
  | error cause => simp
  | ok disk => simp [eq_comm]

/-- What has been saved opens to the grammar that its document describes. -/
theorem openSession_of_saveSession {session : Session} {s s' : FileStorage} {g : Option Grammar}
    (hsave : saveSession session s = .ok s') (hsound : session.document.Sound)
    (hloads : session.document.loadGrammar = .ok g) :
    ∃ reopened, openSession s' = .ok reopened ∧ reopened.grammar = g := by
  obtain ⟨disk, hwrite, rfl⟩ := saveSession_eq_ok_iff.mp hsave
  obtain ⟨reopened, hopen, hgrammar⟩ := Session.exists_ofDocument hloads
  exact ⟨reopened, openSession_eq_ok_iff.mpr
    ⟨_, _, Disk.readText_of_writeText hwrite, hsound.ofText_text, hopen⟩, hgrammar⟩

/-- Where a session has been opened, any session can be saved. -/
theorem exists_saveSession_of_openSession {session : Session} {s : FileStorage}
    (hopen : openSession s = .ok session) (session' : Session) :
    ∃ s', saveSession session' s = .ok s' := by
  obtain ⟨text, _, hread, -, -⟩ := openSession_eq_ok_iff.mp hopen
  obtain ⟨disk, hwrite⟩ := Disk.exists_writeText_of_readText hread session'.document.text
  exact ⟨_, saveSession_eq_ok_iff.mpr ⟨disk, hwrite, rfl⟩⟩

/-- Where a document opens, the check in front of the run has nothing to object to. -/
theorem check_of_openSession {d : Disk} {path : String} {session : Session}
    (hopen : openSession ⟨d, path⟩ = .ok session) : Config.check d path = .ok () := by
  obtain ⟨text, _, hread, -, -⟩ := openSession_eq_ok_iff.mp hopen
  obtain ⟨place, name, hwalk, -, -⟩ := Disk.readText_eq_ok_iff.mp hread
  exact Config.check_eq_ok_of_walk hwalk

theorem initial_of_openSession {s : FileStorage} {session : Session}
    (h : openSession s = .ok session) : session.Initial := by
  obtain ⟨_, _, -, hread, hopen⟩ := openSession_eq_ok_iff.mp h
  exact .opened hread hopen

theorem wellFormed_of_openSession {s : FileStorage} {session : Session}
    (h : openSession s = .ok session) : ∀ g ∈ session.grammar, g.WellFormed := by
  intro g hg
  obtain ⟨active, hactive, rfl⟩ := Option.map_eq_some_iff.mp hg
  exact ((initial_of_openSession h).coherent.buildable active hactive).wellFormed

/-! ### The run -/

/-- The grammars that the arguments author from another one: what the plan they ask for leads to,
unless it has no terminal or no rule. -/
def GrammarArguments.Authors (a : GrammarArguments) (window : Nat) (start g : Grammar) : Prop :=
  ∃ p, a.Asks p ∧ p.LeadsTo window start g ∧ g.terminals ≠ [] ∧ g.rules ≠ []

theorem GrammarArguments.Authors.buildable {a : GrammarArguments} {window : Nat}
    {start g : Grammar} (h : a.Authors window start g) (hstart : start.WellFormed) :
    g.Buildable := by
  obtain ⟨p, -, hleads, hparts⟩ := h
  have hwf := hleads.wellFormed hstart
  exact Grammar.buildable_iff.mpr ⟨hwf, hwf.missingPart?_eq_none_iff.mpr hparts⟩

theorem GrammarArguments.authors_iff {a : GrammarArguments} {stored : Option Grammar}
    {window : Nat} {g : Grammar} (hstored : ∀ g ∈ stored, g.WellFormed) :
    a.Authors window (a.origin stored) g ↔ (a.author stored window).2 = .ok g := by
  rw [author_eq_ok_iff]
  refine exists_congr fun p => and_congr_right fun _ => and_congr_right fun hleads => ?_
  exact (hleads.wellFormed (a.origin_wellFormed hstored)).missingPart?_eq_none_iff.symm

/-- What a run of `grammar` does where a document opens: it reports what authoring reports, and it
saves the grammar that authoring yields or, if it yields none, fails and changes nothing. -/
theorem runGrammar_of_openSession {s : FileStorage} {session : Session}
    (hopen : openSession s = .ok session) (a : GrammarArguments) (window : Nat) :
    ∃ report s', runGrammar a window s = (report, s') ∧
      report.complaints = (a.author session.grammar window).1 ∧
      match (a.author session.grammar window).2 with
      | .error _ => report.exitCode = 1 ∧ s' = s
      | .ok g => report.exitCode = 0 ∧ saveSession (session.setGrammar g).persist s = .ok s' := by
  unfold runGrammar
  rw [hopen]
  dsimp only
  cases hauthor : a.author session.grammar window with
  | mk rejections result =>
    cases result with
    | error failure => exact ⟨_, _, rfl, rfl, rfl, rfl⟩
    | ok g =>
      obtain ⟨s', hsave⟩ := exists_saveSession_of_openSession hopen (session.setGrammar g).persist
      dsimp only
      rw [hsave]
      exact ⟨_, _, rfl, rfl, rfl, rfl⟩

/-- A run of `grammar` on a document that opens succeeds exactly if the arguments author a grammar
from the one stored there, and then the document opens to that grammar. The arguments ask for
something to try exactly if each of them is an edit, and what is rejected of it is reported. -/
theorem run_grammar_exact {args : List String} {d : Disk} {path : String} {window : Nat}
    {a : GrammarArguments} {session : Session} (input : ByteArray) (stamps : Nat → Nat → Stamp)
    (hargs : readArguments args = .ok ⟨path, window, .grammar a⟩)
    (hopen : openSession ⟨d, path⟩ = .ok session) :
    ∃ report d', run args input stamps d = .ok (report, d') ∧
      (report.exitCode = 0 ↔ ∃ g, a.Authors window (a.origin session.grammar) g) ∧
      (∀ g, a.Authors window (a.origin session.grammar) g →
        ∃ reopened, openSession ⟨d', path⟩ = .ok reopened ∧ reopened.grammar = some g) ∧
      ((∃ p, a.Asks p) ↔ a.Readable) ∧
      ∀ p, a.Asks p → report.complaints = complaints (a.origin session.grammar) p.attempts := by
  have hstored := wellFormed_of_openSession hopen
  have hauthors (g : Grammar) : a.Authors window (a.origin session.grammar) g ↔
      (a.author session.grammar window).2 = .ok g := GrammarArguments.authors_iff hstored
  obtain ⟨report, s', hrun, hcomplaints, hresult⟩ := runGrammar_of_openSession hopen a window
  refine ⟨report, s'.disk, ?_, ?_, ?_, GrammarArguments.exists_asks_iff, fun p hp => ?_⟩
  · simp only [run, hargs, Except.map, Invocation.run, check_of_openSession hopen, Command.run, hrun]
  · simp only [hauthors]
    cases hauthor : (a.author session.grammar window).2 with
    | error failure =>
      rw [hauthor] at hresult
      simp [hresult.1]
    | ok g =>
      rw [hauthor] at hresult
      simp [hresult.1]
  · intro g hg
    rw [(hauthors g).mp hg] at hresult
    obtain ⟨-, hsave⟩ := hresult
    obtain ⟨hsound, hloads⟩ := Session.sound_setGrammar_persist
      (initial_of_openSession hopen).document_sound (hg.buildable (a.origin_wellFormed hstored))
    obtain ⟨disk, -, rfl⟩ := saveSession_eq_ok_iff.mp hsave
    exact openSession_of_saveSession hsave hsound hloads
  · rw [hcomplaints, hp.author_complaints]

def sampleDocument : Document :=
  (Document.new Session.sampleUser).withGrammar Grammar.sample

/-- A disk that holds nothing but the document. -/
def sampleDisk : Disk :=
  ⟨[], [([standardSnapshot], .file sampleDocument.text.toUTF8)]⟩

def sampleSession : Session :=
  ⟨sampleDocument, some ⟨Grammar.sample, History.new Grammar.sample⟩⟩

theorem openSession_sample : openSession ⟨sampleDisk, standardSnapshot⟩ = .ok sampleSession := by
  have hloads := Session.loadGrammar_withGrammar Grammar.sample_buildable
    (Document.new Session.sampleUser)
  have hsound : sampleDocument.Sound := ⟨by decide, by decide, _, hloads⟩
  have hread : sampleDisk.readText standardSnapshot = .ok sampleDocument.text :=
    Disk.readText_eq_ok_iff.mpr ⟨[], standardSnapshot.toList, by rfl, by decide, by rfl⟩
  refine openSession_eq_ok_iff.mpr ⟨_, _, hread, hsound.ofText_text, ?_⟩
  rw [sampleDocument, Session.ofDocument, hloads]
  rfl

/-- Arguments that add a terminal twice and a rule with it, no window being left for the rejection. -/
def sampleArgs : List String :=
  ["--notice-ms", "0", "grammar", "-t", "в", "-t", "в", "-r", "A=в"]

def sampleArguments : GrammarArguments :=
  ⟨["в", "в"], [], ["A=в"], [], [], [], false⟩

def samplePlan : Plan :=
  ⟨[], [], [], ["в", "в"], [], [⟨"A", "в", by decide⟩], .nil⟩

theorem sampleArguments_asks : sampleArguments.Asks samplePlan :=
  ⟨fun _ => Iff.rfl, rfl, rfl, rfl, rfl, rfl⟩

theorem run_grammar_exact_sample :
    readArguments sampleArgs = .ok ⟨standardSnapshot, 0, .grammar sampleArguments⟩ ∧
      openSession ⟨sampleDisk, standardSnapshot⟩ = .ok sampleSession ∧
      ∃ report d', run sampleArgs .empty (fun _ _ => ⟨"", .epoch⟩) sampleDisk =
          .ok (report, d') ∧
        report.exitCode = 0 ∧
        report.complaints = ["Cannot add terminal 'в': symbol 'в' is already defined"] ∧
        ∃ reopened, openSession ⟨d', standardSnapshot⟩ = .ok reopened ∧
          reopened.grammar = some ⟨['а', 'б', 'ъ', 'в'], ['S', 'A'],
            Grammar.sample.rules ++ [⟨'A', ['в']⟩]⟩ := by
  have hargs : readArguments sampleArgs =
      .ok ⟨standardSnapshot, 0, .grammar sampleArguments⟩ := by decide +kernel
  obtain ⟨report, d', hrun, hexit, hreopen, -, hcomplaints⟩ :=
    run_grammar_exact .empty (fun _ _ => ⟨"", .epoch⟩) hargs openSession_sample
  have hauthors : sampleArguments.Authors 0 (sampleArguments.origin sampleSession.grammar)
      ⟨['а', 'б', 'ъ', 'в'], ['S', 'A'], Grammar.sample.rules ++ [⟨'A', ['в']⟩]⟩ :=
    ⟨samplePlan, sampleArguments_asks, Plan.leadsTo_iff.mpr ⟨.inl rfl, by rfl⟩, by decide,
      by decide⟩
  exact ⟨hargs, openSession_sample, report, d', hrun, hexit.mpr ⟨_, hauthors⟩,
    hcomplaints samplePlan sampleArguments_asks, hreopen _ hauthors⟩

end CommandLine

end Sentential
