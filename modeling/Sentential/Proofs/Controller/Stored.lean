import Sentential.Proofs.Controller.Run
import Sentential.Proofs.Disk.Places
import Sentential.Proofs.Export.Content
import Sentential.Proofs.Session.Persistence

/-!
# Controllers on a file

A controller that works on the file of a document keeps to that document: it changes nothing but the
settings, and what it can load from the file is a document that differs in nothing else. An export may
overwrite the file, but then there is nothing to load, so the session stays as it is. Hence a save is
always possible, and it leaves a document from which the present session is opened again.
-/

namespace Sentential

/-- A document that differs in nothing but the settings. -/
def Document.Alike (d d' : Document) : Prop :=
  ∃ settings, d' = { d with settings }

namespace Document.Alike

variable {d d' d'' : Document}

theorem refl (d : Document) : d.Alike d :=
  ⟨d.settings, rfl⟩

theorem trans (h : d.Alike d') (h' : d'.Alike d'') : d.Alike d'' := by
  obtain ⟨_, rfl⟩ := h
  obtain ⟨settings, rfl⟩ := h'
  exact ⟨settings, rfl⟩

theorem user_eq (h : d.Alike d') : d'.user = d.user := by
  obtain ⟨_, rfl⟩ := h
  rfl

theorem loadGrammar_eq (h : d.Alike d') : d'.loadGrammar = d.loadGrammar := by
  obtain ⟨_, rfl⟩ := h
  rfl

theorem sound (h : d.Alike d') (hd : d.Sound) : d'.Sound := by
  obtain ⟨_, rfl⟩ := h
  exact ⟨hd.supported, hd.user_check, hd.grammar_loads⟩

end Document.Alike

namespace FileStorage

variable {d d' found : Document} {s s' : FileStorage}

/-- The file can be read, and a document that is found there differs from a given one at most in its
settings. -/
def Holds (d : Document) (s : FileStorage) : Prop :=
  ∃ text, s.disk.readText s.path = .ok text ∧
    ∀ found, Document.ofText text = .ok found → d.Alike found

theorem load_eq_done_iff : s.load = .done found ↔
    ∃ text, s.disk.readText s.path = .ok text ∧ Document.ofText text = .ok found := by
  unfold load
  cases s.disk.readText s.path with
  | error cause => simp
  | ok text =>
    cases hread : Document.ofText text with
    | error cause => simp [hread]
    | ok found => simp [hread]

theorem Holds.alike (h : s.Holds d) (hload : s.load = .done found) : d.Alike found := by
  obtain ⟨text, hread, hfound⟩ := h
  obtain ⟨text', hread', hdocument⟩ := load_eq_done_iff.mp hload
  obtain rfl := Except.ok.inj (hread.symm.trans hread')
  exact hfound found hdocument

/-- Where a file can be read, a sound document can be saved and is loaded again. -/
theorem Holds.load_save (h : s.Holds d) (hsound : d'.Sound) :
    (s.save d').2.path = s.path ∧ (s.save d').2.load = .done d' := by
  obtain ⟨text, hread, -⟩ := h
  obtain ⟨disk, hwrite⟩ := Disk.exists_writeText_of_readText hread d'.text
  rw [save, hwrite]
  exact ⟨rfl, load_eq_done_iff.mpr ⟨_, Disk.readText_of_writeText hwrite, hsound.ofText_text⟩⟩

theorem holds_of_load (hload : s.load = .done found) (h : d.Alike found) : s.Holds d := by
  obtain ⟨text, hread, hdocument⟩ := load_eq_done_iff.mp hload
  refine ⟨text, hread, fun found' hfound' => ?_⟩
  obtain rfl := Except.ok.inj (hdocument.symm.trans hfound')
  exact h

/-- Where an export has been written no document is loaded any more. -/
theorem load_ne_done_of_export {disk disk' : Disk} {path : String} {g : Grammar}
    {saved : List Entry} {format : Export.Format}
    (hwrite : disk.writeText path (Export.content g saved format) = .ok disk') (found : Document) :
    (⟨disk', path⟩ : FileStorage).load ≠ .done found := by
  intro hload
  obtain ⟨text, hread, hfound⟩ := load_eq_done_iff.mp hload
  have hexported : disk'.readText path = _ := Disk.readText_of_writeText hwrite
  obtain rfl := Except.ok.inj (hexported.symm.trans hread)
  rw [Export.ofText_content] at hfound
  cases hfound

/-- An export goes to another file or leaves something that is not a document. -/
theorem Holds.export {g : Grammar} {saved : List Entry} {format : Export.Format} {path : String}
    (h : s.Holds d)
    (hwrite : Storage.writeText path (Export.content g saved format) s = .ok s') :
    s'.path = s.path ∧ s'.Holds d := by
  obtain ⟨text, hread, hfound⟩ := h
  obtain ⟨disk, hdisk, rfl⟩ := map_eq_ok_iff.mp hwrite
  refine ⟨rfl, _, Disk.readText_writeText hdisk hread, fun found hdocument => ?_⟩
  split at hdocument
  next =>
    rw [Export.ofText_content] at hdocument
    cases hdocument
  next => exact hfound found hdocument

end FileStorage

namespace Controller

variable {d : Document} {c : Controller FileStorage}

/-- The invariant of a controller on the file of a document. -/
structure Tied (d : Document) (path : String) (c : Controller FileStorage) : Prop where
  coherent : c.session.Coherent
  alike : d.Alike c.session.document
  path_eq : c.storage.path = path
  holds : c.storage.Holds d

variable {path : String}

/-- What the file of a document holds is loaded and opens to the session in use. -/
structure Settled (d : Document) (path : String) (c : Controller FileStorage) : Prop where
  alike : d.Alike c.session.document
  path_eq : c.storage.path = path
  load_eq : c.storage.load = .done c.session.document
  reopens : Session.ofDocument c.session.document = .ok c.session

theorem Settled.tied (h : c.Settled d path) : c.Tied d path where
  coherent := Session.coherent_of_ofDocument h.reopens
  alike := h.alike
  path_eq := h.path_eq
  holds := FileStorage.holds_of_load h.load_eq h.alike

theorem Tied.of_calls (h : c.Tied d path) {session : Session} (hcalls : c.session.Calls session) :
    ({ c with session } : Controller FileStorage).Tied d path where
  coherent := h.coherent.of_calls hcalls
  alike := h.alike.trans hcalls.document
  path_eq := h.path_eq
  holds := h.holds

theorem Tied.load_store (h : c.Tied d path) (hd : d.Sound) :
    c.store.2.storage.path = path ∧ c.store.2.storage.load = .done c.session.document := by
  obtain ⟨hpath, hload⟩ := h.holds.load_save (h.alike.sound hd)
  exact ⟨hpath.trans h.path_eq, hload⟩

theorem Tied.store (h : c.Tied d path) (hd : d.Sound) : c.store.2.Tied d path where
  coherent := h.coherent
  alike := h.alike
  path_eq := (h.load_store hd).1
  holds := FileStorage.holds_of_load (h.load_store hd).2 h.alike

/-- After a save the file opens to the session in use. -/
theorem Tied.save (h : c.Tied d path) (hd : d.Sound) : c.save.2.Settled d path := by
  have hpersisted := h.of_calls c.session.calls_persist
  obtain ⟨hpath, hload⟩ := hpersisted.load_store hd
  exact ⟨hpersisted.alike, hpath, hload, h.coherent.ofDocument_persist⟩

theorem Tied.serve (h : c.Tied d path) (hd : d.Sound) (r : Request) :
    (c.serve r).2.Tied d path := by
  cases r with
  | save => exact (h.save hd).tied
  | quit => exact ⟨h.coherent, h.alike, h.path_eq, h.holds⟩
  | load =>
    rcases c.load_cases with ⟨found, session, hanswer, hopen, hload⟩ | hload
    · have hdocument := Session.document_of_ofDocument hopen
      rw [Controller.serve, hload]
      exact ⟨Session.coherent_of_ofDocument hopen, hdocument ▸ h.holds.alike hanswer, h.path_eq,
        h.holds⟩
    · rw [Controller.serve, hload]
      exact ⟨h.coherent, h.alike, h.path_eq, h.holds⟩
  | exportTo target =>
    rcases c.exportTo_cases target with ⟨g, saved, format, storage, hwrite, hexport⟩ | hexport
    · obtain ⟨hpath, hholds⟩ := h.holds.export hwrite
      rw [Controller.serve, hexport]
      exact ⟨h.coherent, h.alike, hpath.trans h.path_eq, hholds⟩
    · rw [Controller.serve, hexport]
      exact h

/-- Every move but the taking of a grammar into use keeps to the document. -/
theorem Tied.move (h : c.Tied d path) (hd : d.Sound) {m : Move}
    (hm : ∀ command, m = .command command → command.grammar? = none) :
    (c.move m).Tied d path := by
  cases m with
  | press stamp key =>
    rw [Controller.move, pressKey_eq]
    cases hkey : c.session.pressKey stamp key with
    | none => exact h
    | some p =>
      obtain ⟨n, -, happly⟩ := Session.exists_apply_of_pressKey hkey
      have hpressed := h.of_calls (Session.effect_of_apply happly).calls
      dsimp only [Option.map_some]
      split
      next => exact (hpressed.save hd).tied
      next => exact hpressed
  | clear => exact (h.of_calls c.session.effect_clear.calls).store hd
  | serve r => exact h.serve hd r
  | command command => exact h.of_calls (c.session.calls_perform (hm command rfl))

theorem Tied.run (h : c.Tied d path) (hd : d.Sound) {moves : List Move}
    (hmoves : ∀ command, .command command ∈ moves → command.grammar? = none) :
    (c.run moves).Tied d path := by
  induction moves generalizing c with
  | nil => exact h
  | cons m rest ih =>
    refine ih (h.move hd ?_) fun command hmem => hmoves command (List.mem_cons_of_mem m hmem)
    rintro command rfl
    exact hmoves command List.mem_cons_self

end Controller

end Sentential
