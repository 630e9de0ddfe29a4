import Sentential.Controller
import Sentential.Proofs.Session.Run

/-!
# Runs of a controller

A controller is driven by moves: key presses, clearing, the serving of requests, and commands that go
to its session past the storage. Serving all waiting requests is a run of its own. For each move there
is one lemma that says what it does to the session and to the storage; nothing but quitting stops a
controller, and no move changes what is waiting or whether derivations are saved at once.
-/

namespace Sentential

/-- Whether an event says that a request was not granted. -/
def Event.isRefusal : Event → Bool
  | .cancelled | .failed _ => true
  | _ => false

namespace Controller

/-- What a controller is driven by. -/
inductive Move where
  | press (stamp : Stamp) (key : Char)
  | clear
  | serve (r : Request)
  | command (c : Session.Command)

variable {σ : Type} [Storage σ]

/-- Makes a move; a key that is ignored changes nothing. -/
def move (c : Controller σ) : Move → Controller σ
  | .press stamp key =>
    match c.pressKey stamp key with
    | some (_, next) => next
    | none => c
  | .clear => c.clear.2
  | .serve r => (c.serve r).2
  | .command command => { c with session := c.session.perform command }

def run (c : Controller σ) (moves : List Move) : Controller σ :=
  moves.foldl move c

theorem serveAll_eq_run (c : Controller σ) (requests : List Request) :
    (c.serveAll requests).2 = c.run (requests.map .serve) := by
  induction requests generalizing c with
  | nil => rfl
  | cons r rest ih => exact ih (c.serve r).2

/-- Waiting requests are served one by one. -/
theorem pump_eq_run (c : Controller σ) :
    c.pump.2 = ({ c with queue := [] } : Controller σ).run (c.queue.map .serve) :=
  serveAll_eq_run _ _

/-! ### What a move does -/

/-- A key press is that of the session. It is followed by a save if it records a derivation and
derivations are saved at once. -/
theorem pressKey_eq (c : Controller σ) (stamp : Stamp) (key : Char) :
    c.pressKey stamp key = (c.session.pressKey stamp key).map fun p =>
      (p.1,
        if c.autosave && p.1.isRecorded then ({ c with session := p.2 } : Controller σ).save.2
        else { c with session := p.2 }) := by
  unfold pressKey
  cases c.session.pressKey stamp key with
  | none => rfl
  | some pair =>
    obtain ⟨⟨step, progress, completion⟩, session⟩ := pair
    cases c.autosave with
    | false => simp
    | true =>
      cases completion with
      | none => simp [Outcome.isRecorded]
      | some completion => cases completion <;> simp [Outcome.isRecorded]

/-- Loading continues with a document that is accepted, and else is refused and leaves the session as it
is. -/
theorem load_answers (c : Controller σ) :
    (∃ d session, (Storage.load c.storage).1 = .done d ∧ Session.ofDocument d = .ok session ∧
        c.load = (.loaded, { c with session, storage := (Storage.load c.storage).2 })) ∨
      ∃ event, event.isRefusal = true ∧
        c.load = (event, { c with storage := (Storage.load c.storage).2 }) := by
  unfold load
  cases hanswer : (Storage.load c.storage).1 with
  | cancelled => exact .inr ⟨.cancelled, rfl, by simp only [hanswer]⟩
  | failed message => exact .inr ⟨.failed message, rfl, by simp only [hanswer]⟩
  | done d =>
    cases hopen : Session.ofDocument d with
    | error cause => exact .inr ⟨.failed cause.message, rfl, by simp only [hanswer, hopen]⟩
    | ok session => exact .inl ⟨d, session, rfl, hopen, by simp only [hanswer, hopen]⟩

theorem load_cases (c : Controller σ) :
    (∃ d session, (Storage.load c.storage).1 = .done d ∧ Session.ofDocument d = .ok session ∧
        c.load.2 = { c with session, storage := (Storage.load c.storage).2 }) ∨
      c.load.2 = { c with storage := (Storage.load c.storage).2 } := by
  rcases c.load_answers with ⟨d, session, hanswer, hopen, hload⟩ | ⟨event, -, hload⟩
  · exact .inl ⟨d, session, hanswer, hopen, by rw [hload]⟩
  · exact .inr (by rw [hload])

/-- Exporting writes the completed derivations to a file, or is refused and changes nothing. -/
theorem exportTo_answers (path : String) (c : Controller σ) :
    (∃ a format storage, c.session.active = some a ∧
        Storage.writeText path (Export.content a.grammar a.history.saved format) c.storage =
          .ok storage ∧
        c.exportTo path = (.exported path, { c with storage })) ∨
      ∃ event, event.isRefusal = true ∧ c.exportTo path = (event, c) := by
  unfold exportTo
  split
  next => exact .inr ⟨_, rfl, rfl⟩
  next a hactive =>
    split
    next => exact .inr ⟨_, rfl, rfl⟩
    next format _ =>
      dsimp only
      split
      next => exact .inr ⟨_, rfl, rfl⟩
      next storage hwrite => exact .inl ⟨a, format, storage, hactive, hwrite, rfl⟩

theorem exportTo_cases (path : String) (c : Controller σ) :
    (∃ g saved format storage,
        Storage.writeText path (Export.content g saved format) c.storage = .ok storage ∧
          (c.exportTo path).2 = { c with storage }) ∨
      (c.exportTo path).2 = c := by
  rcases c.exportTo_answers path with ⟨a, format, storage, -, hwrite, hexport⟩ | ⟨event, -, hexport⟩
  · exact .inl ⟨_, _, format, storage, hwrite, by rw [hexport]⟩
  · exact .inr (by rw [hexport])

/-- A move changes at most the session and the storage, unless it quits. -/
theorem move_cases (c : Controller σ) (m : Move) :
    m = .serve .quit ∨ ∃ session storage, c.move m = { c with session, storage } := by
  cases m with
  | press stamp key =>
    rw [move, pressKey_eq]
    cases c.session.pressKey stamp key with
    | none => exact .inr ⟨_, _, rfl⟩
    | some pair =>
      dsimp only [Option.map_some]
      split <;> exact .inr ⟨_, _, rfl⟩
  | clear => exact .inr ⟨_, _, rfl⟩
  | command command => exact .inr ⟨_, _, rfl⟩
  | serve r =>
    cases r with
    | save => exact .inr ⟨_, _, rfl⟩
    | quit => exact .inl rfl
    | load =>
      rcases c.load_cases with ⟨d, session, -, -, hload⟩ | hload <;> exact .inr ⟨_, _, hload⟩
    | exportTo path =>
      rcases c.exportTo_cases path with ⟨g, saved, format, storage, -, hexport⟩ | hexport <;>
        exact .inr ⟨_, _, hexport⟩

theorem move_queue (c : Controller σ) (m : Move) : (c.move m).queue = c.queue := by
  rcases c.move_cases m with rfl | ⟨session, storage, hmove⟩
  · rfl
  · rw [hmove]

theorem run_queue (c : Controller σ) (moves : List Move) : (c.run moves).queue = c.queue := by
  induction moves generalizing c with
  | nil => rfl
  | cons m rest ih => exact (ih (c.move m)).trans (c.move_queue m)

theorem move_running (c : Controller σ) (m : Move) :
    (c.move m).running = true ↔ c.running = true ∧ m ≠ .serve .quit := by
  rcases c.move_cases m with rfl | ⟨session, storage, hmove⟩
  · simp [move, serve]
  · by_cases hm : m = .serve .quit
    · subst hm
      simp [move, serve]
    · rw [hmove]
      exact (and_iff_left hm).symm

/-- A controller is stopped by a request to quit and by nothing else. -/
theorem run_running_iff (c : Controller σ) (moves : List Move) :
    (c.run moves).running = true ↔ c.running = true ∧ .serve .quit ∉ moves := by
  induction moves generalizing c with
  | nil => simp [run]
  | cons m rest ih =>
    rw [List.mem_cons, not_or, ← and_assoc, ← ne_eq, ne_comm, ← move_running]
    exact ih (c.move m)

theorem run_running (c : Controller σ) {moves : List Move} (hmoves : .serve .quit ∉ moves) :
    (c.run moves).running = c.running := by
  rw [Bool.eq_iff_iff, run_running_iff, and_iff_left hmoves]

end Controller

end Sentential
