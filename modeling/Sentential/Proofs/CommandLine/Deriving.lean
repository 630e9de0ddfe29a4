import Sentential.Proofs.CommandLine.GrammarRun
import Sentential.Proofs.Controller.Stored
import Sentential.Proofs.Text.Lines

/-!
# What a run over lines of input leaves

Each line makes a run of moves on the controller, and none of them takes a grammar into use. A run over
lines ends with a save, be it that a line has asked to quit or that the lines are used up. So the file
of the document always opens to what the session had in the end.
-/

namespace Sentential

namespace CommandLine

/-- The key presses of a row of keys, whose stamps are numbered from `index` on. -/
def presses (stamps : Nat → Stamp) (index : Nat) : List Char → List Controller.Move
  | [] => []
  | key :: rest => .press (stamps index) key :: presses stamps (index + 1) rest

/-- The moves that a line asks for. -/
def Input.moves (stamps : Nat → Stamp) : Input → List Controller.Move
  | .undo => [.command .undo]
  | .reset => [.command .reset]
  | .clear => [.clear]
  | .remove id => [.command (.remove id)]
  | .save => [.serve .save]
  | .load => [.serve .load]
  | .exportTo path => [.serve (.exportTo path)]
  | .quit => [.serve .save, .serve .quit]
  | .keys pressed => presses stamps 0 pressed
  | .list | .help | .unknown => []

/-- The moves that a line makes. -/
def lineMoves (stamps : Nat → Stamp) (line : String) : List Controller.Move :=
  let trimmed := Text.trimChars line.toList
  if trimmed = [] then [] else (Input.ofChars trimmed).moves stamps

section

variable {σ : Type} [Storage σ]

theorem pressKeys_eq_run (stamps : Nat → Stamp) (index : Nat) (c : Controller σ)
    (pressed : List Char) :
    (pressKeys stamps index c pressed).2 = c.run (presses stamps index pressed) := by
  induction pressed generalizing index c with
  | nil => rfl
  | cons key rest ih =>
    have hrun : c.run (presses stamps index (key :: rest)) =
        (c.move (.press (stamps index) key)).run (presses stamps (index + 1) rest) := rfl
    rw [hrun, ← ih, Controller.move, pressKeys]
    cases c.pressKey (stamps index) key <;> rfl

/-- Where no requests are waiting there is nothing to settle. -/
theorem settle_of_queue_eq_nil {c : Controller σ} (h : c.queue = []) : (settle c).2 = c := by
  obtain ⟨session, storage, autosave, queue, running⟩ := c
  obtain rfl : queue = [] := h
  rfl

/-- Where no requests are waiting, those that are sent now are served and no others. -/
theorem settle_sent {c : Controller σ} (h : c.queue = []) (requests : List Request) :
    (settle { c with queue := c.queue ++ requests }).2 = c.run (requests.map .serve) := by
  obtain ⟨session, storage, autosave, queue, running⟩ := c
  obtain rfl : queue = [] := h
  exact Controller.pump_eq_run _

/-- Where no requests are waiting, answering a line is a run of the moves that it asks for. -/
theorem respond_eq_run (stamps : Nat → Stamp) (line : String) {c : Controller σ}
    (h : c.queue = []) (input : Input) :
    (respond stamps line c input).2 = c.run (input.moves stamps) := by
  cases input with
  | undo =>
    have hmove : c.run (Input.undo.moves stamps) =
        { c with session := c.session.perform .undo } := rfl
    rw [hmove, Session.perform, respond]
    cases c.session.undo with
    | ok pair =>
      have hidle : ({ c with session := pair.2 } : Controller σ).queue = [] := h
      exact settle_of_queue_eq_nil hidle
    | error cause =>
      dsimp only
      split
      next heq => cases heq
      next => exact settle_of_queue_eq_nil h
      next => exact settle_of_queue_eq_nil h
  | reset => exact settle_of_queue_eq_nil h
  | clear => exact settle_of_queue_eq_nil h
  | list => rfl
  | remove id => rfl
  | save => exact settle_sent h [.save]
  | load => exact settle_sent h [.load]
  | exportTo path => exact settle_sent h [.exportTo path]
  | help => rfl
  | quit =>
    have hboth := settle_sent h [.save, .quit]
    rw [List.append_cons] at hboth
    exact hboth
  | unknown => rfl
  | keys pressed =>
    have hkeys := pressKeys_eq_run stamps 0 c pressed
    have hidle : (pressKeys stamps 0 c pressed).2.queue = [] := by rw [hkeys, c.run_queue, h]
    exact (settle_of_queue_eq_nil hidle).trans hkeys

theorem takeLine_eq_run (stamps : Nat → Stamp) (line : String) {c : Controller σ}
    (h : c.queue = []) : (takeLine stamps line c).2 = c.run (lineMoves stamps line) := by
  unfold takeLine lineMoves
  dsimp only
  split
  next => rfl
  next => exact respond_eq_run stamps _ h _

theorem exists_press_of_mem {stamps : Nat → Stamp} {index : Nat} {pressed : List Char}
    {m : Controller.Move} (hm : m ∈ presses stamps index pressed) :
    ∃ stamp key, m = .press stamp key := by
  induction pressed generalizing index with
  | nil => cases hm
  | cons key rest ih =>
    rcases List.mem_cons.mp hm with rfl | hm
    · exact ⟨_, _, rfl⟩
    · exact ih hm

theorem lineMoves_eq (stamps : Nat → Stamp) (line : String) :
    lineMoves stamps line = [] ∨ ∃ input : Input, lineMoves stamps line = input.moves stamps := by
  unfold lineMoves
  dsimp only
  split
  next => exact .inl rfl
  next => exact .inr ⟨_, rfl⟩

/-- No line takes a grammar into use. -/
theorem grammar?_lineMoves {stamps : Nat → Stamp} {line : String} {command : Session.Command}
    (h : .command command ∈ lineMoves stamps line) : command.grammar? = none := by
  rcases lineMoves_eq stamps line with heq | ⟨input, heq⟩
  · rw [heq] at h
    cases h
  · rw [heq] at h
    cases input with
    | undo | reset | remove id =>
      obtain rfl := Controller.Move.command.inj (List.mem_singleton.mp h)
      rfl
    | keys pressed =>
      obtain ⟨_, _, hpress⟩ := exists_press_of_mem h
      cases hpress
    | _ => simp [Input.moves] at h

/-- A line that quits saves before. -/
theorem lineMoves_cases (stamps : Nat → Stamp) (line : String) :
    lineMoves stamps line = [.serve .save, .serve .quit] ∨
      .serve .quit ∉ lineMoves stamps line := by
  rcases lineMoves_eq stamps line with heq | ⟨input, heq⟩
  · rw [heq]
    exact .inr List.not_mem_nil
  · rw [heq]
    cases input with
    | quit => exact .inl rfl
    | keys pressed =>
      refine .inr fun h => ?_
      obtain ⟨_, _, hpress⟩ := exists_press_of_mem h
      cases hpress
    | _ => exact .inr (by simp [Input.moves])

/-- The controller when a line has quit or the lines are used up, before it is closed. -/
def afterLines (stamps : Nat → Nat → Stamp) (position : Nat) (c : Controller σ) :
    List String → Controller σ
  | [] => c
  | line :: rest =>
    let next := (takeLine (stamps position) line c).2
    if next.running then afterLines stamps (position + 1) next rest else next

/-- Lines that can all be read end without a failure, and a controller that still runs is closed. -/
theorem takeLines_text (stamps : Nat → Nat → Stamp) (position : Nat) {c : Controller σ}
    (h : c.running = true) (lines : List String) :
    (takeLines stamps position c (lines.map some)).2 =
      (none,
        if (afterLines stamps position c lines).running then
          (closing (afterLines stamps position c lines)).2
        else afterLines stamps position c lines) := by
  induction lines generalizing position c with
  | nil =>
    rw [afterLines, if_pos h]
    rfl
  | cons line rest ih =>
    simp only [List.map_cons, takeLines, afterLines]
    by_cases hrunning : (takeLine (stamps position) line c).2.running = true
    · simp only [if_pos hrunning]
      exact ih (position + 1) hrunning
    · simp only [if_neg hrunning]

theorem closing_eq_save {c : Controller σ} (h : c.queue = []) : (closing c).2 = c.save.2 := by
  obtain ⟨session, storage, autosave, queue, running⟩ := c
  obtain rfl : queue = [] := h
  rfl

end

variable {document : Document} {path : String} {c : Controller FileStorage}

/-- However the lines end, the file of the document opens to the session that there is in the end. -/
theorem settled_takeLines (stamps : Nat → Nat → Stamp) (position : Nat)
    (h : c.Tied document path) (hsound : document.Sound) (hqueue : c.queue = [])
    (hrunning : c.running = true) (lines : List String) :
    ∃ output after, takeLines stamps position c (lines.map some) = (output, none, after) ∧
      after.Settled document path ∧
      after.session.active = (afterLines stamps position c lines).session.active := by
  refine ⟨_, _, Prod.ext rfl (takeLines_text stamps position hrunning lines), ?_⟩
  -- The induction follows the loop: a line quits, and then it has saved, or the loop goes on with a
  -- controller that is tied to the document, runs, and has nothing waiting.
  induction lines generalizing position c with
  | nil =>
    rw [afterLines, if_pos hrunning, closing_eq_save hqueue]
    exact ⟨h.save hsound, c.session.persist_active⟩
  | cons line rest ih =>
    have hline := takeLine_eq_run (stamps position) line hqueue
    rw [afterLines, hline]
    rcases lineMoves_cases (stamps position) line with hquit | hstays
    · rw [hquit]
      have hsaved := h.save hsound
      exact ⟨⟨hsaved.alike, hsaved.path_eq, hsaved.load_eq, hsaved.reopens⟩, rfl⟩
    · have hnext : (c.run (lineMoves (stamps position) line)).running = true :=
        (c.run_running hstays).trans hrunning
      rw [if_pos hnext]
      exact ih (position + 1) (h.run hsound fun _ => grammar?_lineMoves)
        ((c.run_queue _).trans hqueue) hnext

/-! ### The run -/

/-- A controller that has just been put on a document is tied to it. -/
theorem tied_new {s : FileStorage} {session : Session} (hopen : openSession s = .ok session)
    (autosave : Bool) : (Controller.new session s autosave).Tied session.document s.path := by
  obtain ⟨text, d, hread, hdocument, hsession⟩ := openSession_eq_ok_iff.mp hopen
  have hload : s.load = .done session.document := by
    rw [Session.document_of_ofDocument hsession]
    exact FileStorage.load_eq_done_iff.mpr ⟨text, hread, hdocument⟩
  exact ⟨Session.coherent_of_ofDocument hsession, .refl _, rfl,
    FileStorage.holds_of_load hload (.refl _)⟩

theorem openSession_of_settled {after : Controller FileStorage}
    (h : after.Settled document path) : openSession ⟨after.storage.disk, path⟩ = .ok after.session := by
  rw [← h.path_eq]
  obtain ⟨text, hread, hdocument⟩ := FileStorage.load_eq_done_iff.mp h.load_eq
  exact openSession_eq_ok_iff.mpr ⟨text, _, hread, hdocument, h.reopens⟩

/-- A run over the lines of any text, on a document that opens with a grammar, succeeds. The file that
it leaves opens with the same user and the same grammar, and with the history that the session had when
a line had quit or the lines were used up. -/
theorem run_interactive_keeps_history {args : List String} {d : Disk} {path : String}
    {window : Nat} {autosave : Bool} {session : Session} (stamps : Nat → Nat → Stamp)
    (text : String) (hargs : readArguments args = .ok ⟨path, window, .interactive autosave⟩)
    (hopen : openSession ⟨d, path⟩ = .ok session) (hgrammar : session.grammar.isSome = true) :
    ∃ report d', run args text.toUTF8 stamps d = .ok (report, d') ∧ report.exitCode = 0 ∧
      ∃ reopened, openSession ⟨d', path⟩ = .ok reopened ∧
        reopened.document.user = session.document.user ∧
        reopened.grammar = session.grammar ∧
        reopened.history =
          (afterLines stamps 0 (Controller.new session (⟨d, path⟩ : FileStorage) autosave)
            (Text.textLines text)).session.history := by
  have htied := tied_new hopen autosave
  obtain ⟨output, after, htake, hsettled, hactive⟩ :=
    settled_takeLines stamps 0 htied (initial_of_openSession hopen).document_sound rfl rfl
      (Text.textLines text)
  obtain ⟨a, ha⟩ : ∃ a, session.active = some a := by
    obtain ⟨g, hg⟩ := Option.isSome_iff_exists.mp hgrammar
    obtain ⟨a, ha, -⟩ := Option.map_eq_some_iff.mp hg
    exact ⟨a, ha⟩
  have hcontroller : openController autosave ⟨d, path⟩ =
      .ok (Controller.new session (⟨d, path⟩ : FileStorage) autosave) := by
    simp only [openController, hopen, ha]
  have hrun : run args text.toUTF8 stamps d =
      .ok (⟨opening (Controller.new session (⟨d, path⟩ : FileStorage) autosave) ++ output, [], none⟩,
        after.storage.disk) := by
    simp only [run, hargs, Except.map, Invocation.run, check_of_openSession hopen, Command.run,
      runInteractive, hcontroller, Text.lines_toUTF8, htake]
  have hreopen := openSession_of_settled hsettled
  refine ⟨_, _, hrun, rfl, after.session, hreopen, hsettled.alike.user_eq, ?_, ?_⟩
  · -- The grammar is the one that the document describes, before as after.
    have hbefore := (initial_of_openSession hopen).coherent.loads
    have hafter := (initial_of_openSession hreopen).coherent.loads
    rw [hsettled.alike.loadGrammar_eq] at hafter
    exact Except.ok.inj (hafter.symm.trans hbefore)
  · rw [Session.history, hactive, Session.history]

/-- A script that completes a derivation, lists it, asks for something unknown, takes a step back and
quits; what stands behind is not read any more. -/
def sampleScript : String :=
  "1233\n:list\n:what\n\n:undo\n:quit\n:clear\n"

theorem run_interactive_keeps_history_sample :
    readArguments ["derive"] = .ok ⟨standardSnapshot, Notice.standardWindow, .interactive false⟩ ∧
      openSession ⟨sampleDisk, standardSnapshot⟩ = .ok sampleSession ∧
      sampleSession.grammar.isSome = true ∧
      ∃ report d', run ["derive"] sampleScript.toUTF8 (fun _ _ => ⟨"first", .epoch⟩) sampleDisk =
          .ok (report, d') ∧
        report.exitCode = 0 ∧
        ∃ reopened, openSession ⟨d', standardSnapshot⟩ = .ok reopened ∧
          reopened.grammar = some Grammar.sample ∧
          reopened.history.map (fun h => (h.derivation.steps.length, h.saved.map (·.id))) =
            some (4, ["first"]) := by
  have hargs : readArguments ["derive"] =
      .ok ⟨standardSnapshot, Notice.standardWindow, .interactive false⟩ := by decide +kernel
  obtain ⟨report, d', hrun, hexit, reopened, hreopen, -, hgrammar, hhistory⟩ :=
    run_interactive_keeps_history (fun _ _ => ⟨"first", .epoch⟩) sampleScript hargs
      openSession_sample rfl
  refine ⟨hargs, openSession_sample, rfl, report, d', hrun, hexit, reopened, hreopen, hgrammar, ?_⟩
  rw [hhistory]
  decide +kernel

end CommandLine

end Sentential
