import Sentential.Proofs.CommandLine.Frame
import Sentential.Proofs.Controller.Stored

/-!
# Serving all that waits

A controller that serves its queue answers every request once and in order, whatever the storage
answers. One relation lists all that serving a request can do, and every other property is read off it:
only a document that has been loaded exchanges the session, a refusal to load changes nothing, and a
save puts the present history into the document, granted or not. What the storage holds changes at a
granted save, and also where an export is written over it: an export does not look whether its path
leads to the document.
-/

namespace Sentential

/-- A view of what a storage holds that neither loading nor a refused save changes. -/
structure Storage.Retains {σ κ : Type} [Storage σ] (held : σ → κ) : Prop where
  load : ∀ s, held (Storage.load s).2 = held s
  save : ∀ d s, (Storage.save d s).1 ≠ .done () → held (Storage.save d s).2 = held s

theorem MemoryStorage.retains_document : Storage.Retains MemoryStorage.document where
  load s := by
    change (MemoryStorage.load s).2.document = s.document
    unfold load
    split <;> rfl
  save d s hrefused := by
    change (MemoryStorage.save d s).2.document = s.document
    rw [document_save]
    split
    next hdone => exact absurd hdone hrefused
    next => rfl

/-- A file is not touched by loading, nor by a save that fails. -/
theorem FileStorage.retains {κ : Type} (held : FileStorage → κ) : Storage.Retains held where
  load _ := rfl
  save d s hrefused := by
    change held (FileStorage.save d s).2 = held s
    change (FileStorage.save d s).1 ≠ .done () at hrefused
    unfold save at hrefused ⊢
    split at hrefused
    next => exact absurd rfl hrefused
    next => rfl

/-- The events that can answer a request: that it was granted, or, unless it is a request to quit, a
refusal. -/
def Request.Allows : Request → Event → Prop
  | .save, event => event = .saved ∨ event.isRefusal = true
  | .load, event => event = .loaded ∨ event.isRefusal = true
  | .exportTo path, event => event = .exported path ∨ event.isRefusal = true
  | .quit, event => event = .quitRequested

theorem Answer.isRefusal_saveEvent {answer : Answer Unit} (h : answer ≠ .done ()) :
    answer.saveEvent.isRefusal = true := by
  cases answer with
  | done value => exact absurd rfl h
  | cancelled => rfl
  | failed message => rfl

namespace Controller

variable {σ κ : Type} [Storage σ] {held : σ → κ} {c next : Controller σ} {r : Request}
  {event : Event}

/-- All that serving a request can do. -/
inductive Served (held : σ → κ) (c : Controller σ) : Request → Event → Controller σ → Prop
  | saved {storage : σ} :
      Served held c .save .saved { c with session := c.session.persist, storage }
  | unsaved {event : Event} {storage : σ} : event.isRefusal = true →
      held storage = held c.storage →
      Served held c .save event { c with session := c.session.persist, storage }
  | loaded {d : Document} {session : Session} {storage : σ} :
      (Storage.load c.storage).1 = .done d → Session.ofDocument d = .ok session →
      held storage = held c.storage →
      Served held c .load .loaded { c with session, storage }
  | unloaded {event : Event} {storage : σ} : event.isRefusal = true →
      held storage = held c.storage → Served held c .load event { c with storage }
  | exported {a : Active} {format : Export.Format} {path : String} {storage : σ} :
      c.session.active = some a →
      Storage.writeText path (Export.content a.grammar a.history.saved format) c.storage =
        .ok storage →
      Served held c (.exportTo path) (.exported path) { c with storage }
  | unexported {event : Event} {path : String} : event.isRefusal = true →
      Served held c (.exportTo path) event c
  | quit : Served held c .quit .quitRequested { c with running := false }

theorem serve_served (hheld : Storage.Retains held) (c : Controller σ) (r : Request) :
    Served held c r (c.serve r).1 (c.serve r).2 := by
  cases r with
  | save =>
    by_cases hdone : (Storage.save c.session.persist.document c.storage).1 = .done ()
    · have hevent : (c.serve .save).1 = .saved := congrArg Answer.saveEvent hdone
      rw [hevent]
      exact .saved
    · exact .unsaved (Answer.isRefusal_saveEvent hdone) (hheld.save _ _ hdone)
  | load =>
    rw [serve]
    rcases c.load_answers with ⟨d, session, hanswer, hopen, hload⟩ | ⟨event, hrefusal, hload⟩
    · rw [hload]
      exact .loaded hanswer hopen (hheld.load c.storage)
    · rw [hload]
      exact .unloaded hrefusal (hheld.load c.storage)
  | exportTo path =>
    rw [serve]
    rcases c.exportTo_answers path with
      ⟨a, format, storage, hactive, hwrite, hexport⟩ | ⟨event, hrefusal, hexport⟩
    · rw [hexport]
      exact .exported hactive hwrite
    · rw [hexport]
      exact .unexported hrefusal
  | quit => exact .quit

namespace Served

variable (h : Served held c r event next)

include h

theorem allows : r.Allows event := by
  cases h with
  | saved => exact .inl rfl
  | unsaved hrefusal => exact .inr hrefusal
  | loaded => exact .inl rfl
  | unloaded hrefusal => exact .inr hrefusal
  | exported => exact .inl rfl
  | unexported hrefusal => exact .inr hrefusal
  | quit => rfl

/-- Unless a document has been loaded, the session is at most persisted, and that where a save was
asked for. -/
theorem session_eq (hevent : event ≠ .loaded) :
    next.session = if r = .save then c.session.persist else c.session := by
  cases h with
  | loaded => exact absurd rfl hevent
  | _ => rfl

theorem session_loaded (hevent : event = .loaded) :
    ∃ d, (Storage.load c.storage).1 = .done d ∧ Session.ofDocument d = .ok next.session := by
  cases h with
  | loaded hanswer hopen _ => exact ⟨_, hanswer, hopen⟩
  | unsaved hrefusal | unloaded hrefusal | unexported hrefusal =>
    rw [hevent] at hrefusal
    cases hrefusal
  | _ => cases hevent

theorem held_cases : held next.storage = held c.storage ∨ event = .saved ∨
    ∃ path a format, r = .exportTo path ∧ event = .exported path ∧ c.session.active = some a ∧
      Storage.writeText path (Export.content a.grammar a.history.saved format) c.storage =
        .ok next.storage := by
  cases h with
  | saved => exact .inr (.inl rfl)
  | unsaved _ hsame => exact .inl hsame
  | loaded _ _ hsame => exact .inl hsame
  | unloaded _ hsame => exact .inl hsame
  | exported hactive hwrite => exact .inr (.inr ⟨_, _, _, rfl, rfl, hactive, hwrite⟩)
  | unexported => exact .inl rfl
  | quit => exact .inl rfl

end Served

/-- What the answer to a request tells about the controller before and after it. Only loading exchanges
the session. Any other answer leaves the user, the grammar and the history as they are, and a document
takes in the history only where a save was asked for. -/
structure Answered (held : σ → κ) (c : Controller σ) (r : Request) (event : Event)
    (next : Controller σ) : Prop where
  allows : r.Allows event
  session_loaded : event = .loaded →
    ∃ d, (Storage.load c.storage).1 = .done d ∧ Session.ofDocument d = .ok next.session
  active_eq : event ≠ .loaded → next.session.active = c.session.active
  user_eq : event ≠ .loaded → next.session.document.user = c.session.document.user
  session_eq : event ≠ .loaded → r ≠ .save → next.session = c.session
  document_cases : r = .save → next.session.document = c.session.document ∨
    ∃ a, c.session.active = some a ∧ next.session.document =
      c.session.document.withHistory (some (a.history.snapshot a.grammar).text)
  held_cases : held next.storage = held c.storage ∨ event = .saved ∨
    ∃ path a format, r = .exportTo path ∧ event = .exported path ∧ c.session.active = some a ∧
      Storage.writeText path (Export.content a.grammar a.history.saved format) c.storage =
        .ok next.storage

theorem Served.answered (h : Served held c r event next) : Answered held c r event next where
  allows := h.allows
  session_loaded := h.session_loaded
  active_eq hevent := by
    rw [h.session_eq hevent]
    split
    next => exact c.session.persist_active
    next => rfl
  user_eq hevent := by
    rw [h.session_eq hevent]
    split
    next => exact (c.session.perform_document .persist).1
    next => rfl
  session_eq hevent hsave := by rw [h.session_eq hevent, if_neg hsave]
  document_cases hsave := by
    have hevent : event ≠ .loaded := by
      rintro rfl
      have hallows := h.allows
      rw [hsave] at hallows
      rcases hallows with hsaved | hrefusal
      · cases hsaved
      · cases hrefusal
    rw [h.session_eq hevent, if_pos hsave]
    exact c.session.persist_document
  held_cases := h.held_cases

/-! ### The whole queue -/

/-- The controller with nothing waiting any more, after it has served some requests. -/
def after (c : Controller σ) (requests : List Request) : Controller σ :=
  ({ c with queue := [] } : Controller σ).run (requests.map .serve)

theorem after_concat (c : Controller σ) (requests : List Request) (r : Request) :
    c.after (requests ++ [r]) = ((c.after requests).serve r).2 := by
  rw [after, List.map_append, run, List.foldl_append]
  rfl

theorem serveAll_append (c : Controller σ) (first rest : List Request) :
    (c.serveAll (first ++ rest)).1 =
      (c.serveAll first).1 ++ ((c.serveAll first).2.serveAll rest).1 := by
  induction first generalizing c with
  | nil => rfl
  | cons r first ih => simp only [List.cons_append, serveAll, ih]

theorem length_serveAll (c : Controller σ) (requests : List Request) :
    (c.serveAll requests).1.length = requests.length := by
  induction requests generalizing c with
  | nil => rfl
  | cons r rest ih => simp only [serveAll, List.length_cons, ih]

/-- The event at the place of a request is the answer to it. -/
theorem getElem?_pump {before rest : List Request} (hqueue : c.queue = before ++ r :: rest) :
    c.pump.1[before.length]? = some ((c.after before).serve r).1 := by
  have hlength := length_serveAll ({ c with queue := [] } : Controller σ) before
  rw [pump, hqueue, serveAll_append, List.getElem?_append_right (Nat.le_of_eq hlength), hlength,
    Nat.sub_self, serveAll_eq_run]
  rfl

/-- Whatever the storage answers, serving the queue yields one event for each request, in the order of
the queue, and leaves nothing waiting; each event answers its request. A controller that is running
stops exactly if one of the requests is to quit. -/
theorem pump_answers (hheld : Storage.Retains held) (c : Controller σ) :
    c.pump.1.length = c.queue.length ∧ c.pump.2.queue = [] ∧ c.pump.2 = c.after c.queue ∧
      (∀ before r rest, c.queue = before ++ r :: rest → ∃ event,
        c.pump.1[before.length]? = some event ∧
          Answered held (c.after before) r event (c.after (before ++ [r]))) ∧
      (c.running = true → (c.pump.2.running = false ↔ .quit ∈ c.queue)) := by
  refine ⟨length_serveAll _ _, ?_, c.pump_eq_run, ?_, ?_⟩
  · rw [pump_eq_run, run_queue]
  · intro before r rest hqueue
    refine ⟨_, getElem?_pump hqueue, ?_⟩
    rw [after_concat]
    exact (serve_served hheld (c.after before) r).answered
  · intro hrunning
    rw [pump_eq_run, ← Bool.not_eq_true, run_running_iff]
    simp [hrunning]

open CommandLine (sampleDisk sampleDocument sampleSession openSession_sample standardSnapshot)

/-- A document that is refused, because its grammar lists a terminal that is none. -/
def refusedDocument : Document :=
  { sampleDocument with grammar := some ⟨["z"], [], "S", []⟩ }

/-- A controller on a storage that refuses two saves and that first gives back the document that is
refused. -/
def scripted : Controller MemoryStorage where
  session := sampleSession
  storage :=
    { document := some sampleDocument
      failure := none
      saveScript := [.cancelled, .failed "disk full"]
      loadScript := [.done refusedDocument]
      disk := ⟨[], []⟩ }
  autosave := false
  queue := [.save, .load, .load, .save, .exportTo "words", .quit, .save]
  running := true

/-- The events of its queue, of which the first load leaves the session as the save before it did. -/
theorem pump_answers_scripted :
    Storage.Retains MemoryStorage.document ∧ scripted.running = true ∧
      scripted.pump.1 = [.cancelled,
        .failed "invalid snapshot format: grammar: 'z' is not a valid terminal", .loaded,
        .failed "disk full", .failed "Unknown or missing file extension for path: words",
        .quitRequested, .saved] ∧
      scripted.pump.2.queue = [] ∧ scripted.pump.2.running = false ∧
      (scripted.after [.save, .load]).session = (scripted.after [.save]).session := by
  have hevents : scripted.pump.1 = [.cancelled,
      .failed "invalid snapshot format: grammar: 'z' is not a valid terminal", .loaded,
      .failed "disk full", .failed "Unknown or missing file extension for path: words",
      .quitRequested, .saved] := by decide +kernel
  obtain ⟨-, hqueue, -, hanswers, hrunning⟩ :=
    pump_answers MemoryStorage.retains_document scripted
  obtain ⟨event, hevent, hanswered⟩ := hanswers [.save] .load _ rfl
  rw [hevents] at hevent
  obtain rfl := Option.some.inj hevent
  exact ⟨MemoryStorage.retains_document, rfl, hevents, hqueue, (hrunning rfl).mpr (by decide),
    hanswered.session_eq nofun nofun⟩

/-! ### Exports to the file of the document -/

/-- A granted export leaves the document in its file exactly if its path leads elsewhere. -/
theorem exportTo_keeps_file_iff {c : Controller FileStorage} {path : String} {d : Document}
    (hload : c.storage.load = .done d) (hexported : (c.exportTo path).1 = .exported path) :
    (c.exportTo path).2.storage.disk.readBytes c.storage.path =
        c.storage.disk.readBytes c.storage.path ↔
      c.storage.disk.target? path ≠ c.storage.disk.target? c.storage.path := by
  obtain ⟨text, hread, hdocument⟩ := FileStorage.load_eq_done_iff.mp hload
  rcases c.exportTo_answers path with
    ⟨a, format, storage, -, hwrite, hexport⟩ | ⟨event, hrefusal, hexport⟩
  · rw [hexport]
    obtain ⟨disk, hdisk, rfl⟩ := map_eq_ok_iff.mp hwrite
    exact CommandLine.readBytes_export_iff hread hdocument hdisk
  · rw [hexport] at hexported
    obtain rfl : event = .exported path := hexported
    cases hrefusal

/-- Serving a request leaves the file of the document as it is, unless a save is granted or an export
whose path leads to the file. -/
theorem serve_keeps_file {c : Controller FileStorage} {d : Document}
    (hload : c.storage.load = .done d) (r : Request) :
    (c.serve r).2.storage.disk.readBytes c.storage.path =
        c.storage.disk.readBytes c.storage.path ∨ (c.serve r).1 = .saved ∨
      ∃ path, (c.serve r).1 = .exported path ∧
        c.storage.disk.target? path = c.storage.disk.target? c.storage.path := by
  have hretains := FileStorage.retains fun s => s.disk.readBytes c.storage.path
  rcases (serve_served hretains c r).held_cases with
    hsame | hsaved | ⟨path, a, format, rfl, hexported, -, -⟩
  · exact .inl hsame
  · exact .inr (.inl hsaved)
  · by_cases htarget : c.storage.disk.target? path = c.storage.disk.target? c.storage.path
    · exact .inr (.inr ⟨path, hexported, htarget⟩)
    · exact .inl ((exportTo_keeps_file_iff hload hexported).mpr htarget)

/-- An export that can be written is all that a queue with nothing else in it leads to. -/
theorem pump_of_writeText {a : Active} {path : String} {format : Export.Format} {storage : σ}
    (hqueue : c.queue = [.exportTo path]) (hactive : c.session.active = some a)
    (hformat : Export.Format.ofPath path = .ok format)
    (hwrite : Storage.writeText path (Export.content a.grammar a.history.saved format) c.storage =
      .ok storage) :
    c.pump = ([.exported path], { c with queue := [], storage }) := by
  simp only [pump, hqueue, serveAll, serve, exportTo, hactive, hformat, hwrite]

/-- A controller that is asked for an export under the name of its document. -/
def overwriting : Controller FileStorage where
  session := sampleSession
  storage := ⟨sampleDisk, standardSnapshot⟩
  autosave := false
  queue := [.exportTo "chomsky.json"]
  running := true

/-- No save is granted, and yet the document is no longer there. -/
theorem pump_replaces_document :
    (∃ d, overwriting.storage.load = .done d) ∧
      overwriting.pump.1 = [.exported "chomsky.json"] ∧
      overwriting.pump.2.storage.disk.readBytes overwriting.storage.path ≠
        overwriting.storage.disk.readBytes overwriting.storage.path ∧
      ∀ d, overwriting.pump.2.storage.load ≠ .done d := by
  obtain ⟨text, d, hread, hdocument, -⟩ := CommandLine.openSession_eq_ok_iff.mp openSession_sample
  have hload : overwriting.storage.load = .done d :=
    FileStorage.load_eq_done_iff.mpr ⟨text, hread, hdocument⟩
  have htarget : sampleDisk.target? "chomsky.json" = some [standardSnapshot] := rfl
  obtain ⟨disk, hwrite⟩ : ∃ disk, sampleDisk.writeText "chomsky.json"
      (Export.content Grammar.sample [] .json) = .ok disk :=
    CommandLine.exists_writeText_sample htarget
  have hactive : overwriting.session.active =
      some ⟨Grammar.sample, History.new Grammar.sample⟩ := rfl
  have hformat : Export.Format.ofPath "chomsky.json" = .ok .json := by decide +kernel
  have hstored : Storage.writeText "chomsky.json" (Export.content Grammar.sample [] .json)
      overwriting.storage = .ok ⟨disk, standardSnapshot⟩ := map_eq_ok_iff.mpr ⟨disk, hwrite, rfl⟩
  have hpump := pump_of_writeText rfl hactive hformat hstored
  rw [hpump]
  refine ⟨⟨d, hload⟩, rfl, fun hkept => ?_, FileStorage.load_ne_done_of_export hwrite⟩
  exact (CommandLine.readBytes_export_iff hread hdocument hwrite).mp hkept rfl

end Controller

end Sentential
