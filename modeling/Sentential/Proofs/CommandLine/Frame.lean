import Sentential.Proofs.CommandLine.GrammarRun
import Sentential.Proofs.Disk.Places
import Sentential.Proofs.Export.Content

/-!
# What a run leaves as it was

A command that takes no lines of input writes at most once, and only after everything that can fail
has been tried. So a failed run leaves the disk as it found it. What a run does write is the file that
one path leads to: that of the document, or that of an export. Nothing keeps the two apart.
-/

namespace Sentential

namespace Disk

variable {d d' : Disk} {path text : String}

/-- Where nothing exists, writing only adds. -/
theorem node?_writeText_of_not_exists (h : d.writeText path text = .ok d')
    (hexists : d.exists? path = false) {place : Location} {node : Node}
    (hnode : d.node? place = some node) : d'.node? place = some node := by
  by_cases htarget : d.target? path = some place
  · -- Only a directory could stand there unseen, and nothing is written over one.
    obtain ⟨spot, hspot, hfree, -⟩ := writeText_eq_ok_iff_target.mp h
    obtain rfl := Option.some.inj (hspot.symm.trans htarget)
    cases node with
    | directory => exact absurd hnode hfree
    | file content =>
      obtain ⟨front, name, hwalk, hsize, rfl⟩ := target?_eq_some_iff.mp htarget
      have hfind := find_eq_file_iff.mpr ⟨front, name, hwalk, hsize, hnode⟩
      rw [exists?, hfind] at hexists
      cases hexists
  · rw [node?_writeText h htarget, hnode]

end Disk

namespace CommandLine

variable {s : FileStorage} {output : String} {format : Option String}

/-- How a command line ends: with an exit code and the disk that it leaves. Arguments that name
nothing to run touch nothing. -/
def conclude (args : List String) (input : ByteArray) (stamps : Nat → Nat → Stamp) (d : Disk) :
    Nat × Disk :=
  match run args input stamps d with
  | .ok (report, after) => (report.exitCode, after)
  | .error refusal => (refusal.exitCode, d)

theorem conclude_of_readArguments {args : List String} {i : Invocation}
    (hargs : readArguments args = .ok i) (input : ByteArray) (stamps : Nat → Nat → Stamp)
    (d : Disk) : conclude args input stamps d =
      ((i.run input stamps d).1.exitCode, (i.run input stamps d).2) := by
  simp only [conclude, run, hargs, Except.map]

/-- Creating a document fails without a trace, or it writes the document; unless forced to, it only
writes where nothing exists. -/
theorem runInit_cases (a : InitArguments) (s : FileStorage) :
    (runInit a s).1.exitCode ≠ 0 ∧ (runInit a s).2 = s ∨
      (runInit a s).1.exitCode = 0 ∧ (a.force = false → s.disk.exists? s.path = false) ∧
        ∃ text, s.disk.writeText s.path text = .ok (runInit a s).2.disk := by
  unfold runInit
  split
  next => exact .inl ⟨Nat.one_ne_zero, rfl⟩
  next hfree =>
    split
    next => exact .inl ⟨Nat.one_ne_zero, rfl⟩
    next user _ =>
      split
      next => exact .inl ⟨Nat.one_ne_zero, rfl⟩
      next s' hsave =>
        obtain ⟨disk, hwrite, rfl⟩ := saveSession_eq_ok_iff.mp hsave
        refine .inr ⟨rfl, fun hforce => ?_, _, hwrite⟩
        simpa [hforce] using hfree

theorem runGrammar_failed {a : GrammarArguments} {window : Nat}
    (h : (runGrammar a window s).1.exitCode ≠ 0) : (runGrammar a window s).2 = s := by
  unfold runGrammar at h ⊢
  split
  next => rfl
  next session hopen =>
    simp only [hopen] at h
    split
    next => rfl
    next complaints g hauthor =>
      simp only [hauthor] at h
      split
      next => rfl
      next s' hsave =>
        simp only [hsave] at h
        exact absurd rfl h

/-- An export fails without a trace, or it writes the derivations of the document that it has
opened. -/
theorem runExport_cases (output : String) (format : Option String) (s : FileStorage) :
    (runExport output format s).1.exitCode ≠ 0 ∧ (runExport output format s).2 = s ∨
      (runExport output format s).1.exitCode = 0 ∧ ∃ session g saved kind,
        openSession s = .ok session ∧ s.disk.writeText output (Export.content g saved kind) =
          .ok (runExport output format s).2.disk := by
  unfold runExport
  split
  next => exact .inl ⟨Nat.one_ne_zero, rfl⟩
  next session hopen =>
    split
    next => exact .inl ⟨Nat.one_ne_zero, rfl⟩
    next a _ =>
      split
      next => exact .inl ⟨Nat.one_ne_zero, rfl⟩
      next kind _ =>
        dsimp only
        split
        next => exact .inl ⟨Nat.one_ne_zero, rfl⟩
        next disk hwrite => exact .inr ⟨rfl, session, _, _, kind, hopen, hwrite⟩

/-- A command that takes no lines of input and fails leaves its storage as it was. -/
theorem Command.run_failed {c : Command} (hc : ∀ autosave, c ≠ .interactive autosave) {window : Nat}
    {input : ByteArray} {stamps : Nat → Nat → Stamp}
    (h : (c.run window input stamps s).1.exitCode ≠ 0) : (c.run window input stamps s).2 = s := by
  cases c with
  | init a =>
    rcases runInit_cases a s with ⟨-, hsame⟩ | ⟨hdone, -⟩
    · exact hsame
    · exact absurd hdone h
  | grammar a => exact runGrammar_failed h
  | overview => rfl
  | interactive autosave => exact absurd rfl (hc autosave)
  | exporting output format =>
    rcases runExport_cases output format s with ⟨-, hsame⟩ | ⟨hdone, -⟩
    · exact hsame
    · exact absurd hdone h

/-- A run either is refused its path, which changes nothing, or is that of its command. -/
theorem Invocation.run_cases (i : Invocation) (input : ByteArray) (stamps : Nat → Nat → Stamp)
    (d : Disk) :
    (i.run input stamps d).1.exitCode ≠ 0 ∧ (i.run input stamps d).2 = d ∨
      i.run input stamps d =
        ((i.command.run i.noticeWindow input stamps ⟨d, i.snapshot⟩).1,
          (i.command.run i.noticeWindow input stamps ⟨d, i.snapshot⟩).2.disk) := by
  unfold Invocation.run
  split
  next => exact .inl ⟨Nat.one_ne_zero, rfl⟩
  next => exact .inr rfl

/-- Whatever a disk holds, a command line that fails leaves every file as it was and creates none,
unless it takes lines of input. Creating a document without force fails where something exists, and
in no case changes what is there. -/
theorem run_keeps_disk {args : List String} (input : ByteArray) (stamps : Nat → Nat → Stamp)
    (d : Disk) (hcommand : ∀ i, readArguments args = .ok i →
      ∀ autosave, i.command ≠ .interactive autosave) :
    ((conclude args input stamps d).1 ≠ 0 → (conclude args input stamps d).2 = d) ∧
      ∀ i a, readArguments args = .ok i → i.command = .init a → a.force = false →
        (d.exists? i.snapshot = true → (conclude args input stamps d).1 ≠ 0) ∧
          ∀ place node, d.node? place = some node →
            (conclude args input stamps d).2.node? place = some node := by
  cases hargs : readArguments args with
  | error refusal =>
    refine ⟨fun _ => ?_, nofun⟩
    rw [conclude, run, hargs]
    rfl
  | ok i =>
    rw [conclude_of_readArguments hargs]
    rcases i.run_cases input stamps d with ⟨hexit, hsame⟩ | hrun
    · refine ⟨fun _ => hsame, ?_⟩
      rintro _ a ⟨⟩ - -
      exact ⟨fun _ => hexit, fun place node hnode => by rw [hsame, hnode]⟩
    · rw [hrun]
      refine ⟨fun hexit => ?_, ?_⟩
      · dsimp only
        rw [Command.run_failed (hcommand i hargs) hexit]
      · rintro _ a ⟨⟩ hinit hforce
        rw [hinit]
        rcases runInit_cases a ⟨d, i.snapshot⟩ with ⟨hexit, hsame⟩ | ⟨-, hfree, text, hwrite⟩
        · refine ⟨fun _ => hexit, fun place node hnode => ?_⟩
          dsimp only [Command.run]
          rw [hsame, hnode]
        · refine ⟨fun hexists => absurd hexists (by simp [hfree hforce]), ?_⟩
          intro place node hnode
          exact Disk.node?_writeText_of_not_exists hwrite (hfree hforce) hnode

/-- Arguments that would create a document for another user. -/
def otherUserArgs : List String :=
  ["init", "--last-name", "Петров", "--first-name", "Пётр", "--patronymic", "Петрович", "--group",
    "ИВТ-22"]

/-- The document of the first user stays where it is. -/
theorem run_keeps_disk_existing :
    readArguments otherUserArgs = .ok ⟨standardSnapshot, Notice.standardWindow,
        .init ⟨"Петров", "Пётр", "Петрович", "ИВТ-22", false⟩⟩ ∧
      sampleDisk.exists? standardSnapshot = true ∧
      (conclude otherUserArgs .empty (fun _ _ => ⟨"", .epoch⟩) sampleDisk).1 ≠ 0 ∧
      (conclude otherUserArgs .empty (fun _ _ => ⟨"", .epoch⟩) sampleDisk).2 = sampleDisk := by
  have hargs : readArguments otherUserArgs = .ok ⟨standardSnapshot, Notice.standardWindow,
      .init ⟨"Петров", "Пётр", "Петрович", "ИВТ-22", false⟩⟩ := by decide +kernel
  have hexists : sampleDisk.exists? standardSnapshot = true := rfl
  have hcommand : ∀ i, readArguments otherUserArgs = .ok i →
      ∀ autosave, i.command ≠ .interactive autosave := by
    intro i hi autosave
    obtain rfl := Except.ok.inj (hargs.symm.trans hi)
    nofun
  obtain ⟨hfailed, hinit⟩ :=
    run_keeps_disk .empty (fun _ _ => ⟨"", .epoch⟩) sampleDisk hcommand
  have hexit := (hinit _ _ hargs rfl rfl).1 hexists
  exact ⟨hargs, hexists, hexit, hfailed hexit⟩

/-! ### Showing and exporting -/

/-- A document that is in a file is still there after an export to another file has been written, and
it is gone if both paths lead to the same place. -/
theorem readBytes_export_iff {d d' : Disk} {path text : String} {document : Document}
    {g : Grammar} {saved : List Entry} {kind : Export.Format} (hread : d.readText path = .ok text)
    (hdocument : Document.ofText text = .ok document)
    (hwrite : d.writeText output (Export.content g saved kind) = .ok d') :
    d'.readBytes path = d.readBytes path ↔ d.target? output ≠ d.target? path := by
  rw [Disk.readText_eq_ok_iff_readBytes] at hread
  rw [Disk.readBytes_writeText hwrite hread, hread, Except.ok.injEq]
  by_cases hsame : d.target? path = d.target? output
  · rw [if_pos hsame]
    refine iff_of_false (fun hbytes => ?_) (fun hne => hne hsame.symm)
    -- The bytes would have to be those of a document, which no export is.
    rw [← String.toByteArray_inj.mp hbytes, Export.ofText_content] at hdocument
    cases hdocument
  · rw [if_neg hsame]
    exact iff_of_true rfl fun heq => hsame heq.symm

/-- After showing or exporting, the file of the document has the bytes that it had before, unless an
export has succeeded whose path leads to the place of the document. Every place but the one that the
path of an export leads to is as it was. -/
theorem snapshot_kept_iff {args : List String} {i : Invocation} (input : ByteArray)
    (stamps : Nat → Nat → Stamp) (d : Disk) (hargs : readArguments args = .ok i)
    (hcommand : i.command = .overview ∨ ∃ output format, i.command = .exporting output format) :
    ((conclude args input stamps d).2.readBytes i.snapshot = d.readBytes i.snapshot ↔
        ∀ output format, i.command = .exporting output format →
          (conclude args input stamps d).1 = 0 → d.target? output ≠ d.target? i.snapshot) ∧
      ∀ place, (∀ output format, i.command = .exporting output format →
          d.target? output ≠ some place) →
        (conclude args input stamps d).2.node? place = d.node? place := by
  rw [conclude_of_readArguments hargs]
  rcases i.run_cases input stamps d with ⟨hexit, hsame⟩ | hrun
  · rw [hsame]
    exact ⟨iff_of_true rfl fun _ _ _ hdone => absurd hdone hexit, fun _ _ => rfl⟩
  rw [hrun]
  rcases hcommand with hshow | ⟨output, format, hexport⟩
  · rw [hshow]
    exact ⟨iff_of_true rfl nofun, fun _ _ => rfl⟩
  · rw [hexport]
    dsimp only [Command.run]
    rcases runExport_cases output format ⟨d, i.snapshot⟩ with
      ⟨hexit, hsame⟩ | ⟨hdone, session, g, saved, kind, hopen, hwrite⟩
    · rw [hsame]
      exact ⟨iff_of_true rfl fun _ _ _ hdone => absurd hdone hexit, fun _ _ => rfl⟩
    · obtain ⟨text, document, hread, hdocument, -⟩ := openSession_eq_ok_iff.mp hopen
      rw [readBytes_export_iff hread hdocument hwrite]
      refine ⟨⟨?_, fun hapart => hapart output format rfl hdone⟩, fun place hplace => ?_⟩
      · rintro hapart _ _ ⟨⟩ -
        exact hapart
      · exact Disk.node?_writeText hwrite (hplace output format rfl)

/-- An export that can be written succeeds. -/
theorem conclude_export {args : List String} {d after : Disk} {path : String} {window : Nat}
    {session : Session} {a : Active} {kind : Export.Format} (input : ByteArray)
    (stamps : Nat → Nat → Stamp)
    (hargs : readArguments args = .ok ⟨path, window, .exporting output format⟩)
    (hopen : openSession ⟨d, path⟩ = .ok session) (hactive : session.active = some a)
    (hkind : (format.map Export.Format.ofName).getD (Export.Format.ofPath output) = .ok kind)
    (hwrite : d.writeText output (Export.content a.grammar a.history.saved kind) = .ok after) :
    conclude args input stamps d = (0, after) := by
  rw [conclude_of_readArguments hargs]
  simp only [Invocation.run, check_of_openSession hopen, Command.run, runExport, hopen, hactive,
    hkind, hwrite]
  rfl

theorem exists_writeText_sample {output text : String}
    (htarget : sampleDisk.target? output = some [standardSnapshot]) :
    ∃ after, sampleDisk.writeText output text = .ok after := by
  have hfree : sampleDisk.node? [standardSnapshot] ≠ some .directory := by
    change some (Node.file _) ≠ _
    nofun
  exact ⟨_, Disk.writeText_eq_ok_iff_target.mpr ⟨_, htarget, hfree, rfl⟩⟩

/-- An export of the small grammar, under a name that leads to the document, succeeds. -/
theorem conclude_export_sample {args : List String} {output : String}
    (hargs : readArguments args =
      .ok ⟨standardSnapshot, Notice.standardWindow, .exporting output none⟩)
    (hkind : Export.Format.ofPath output = .ok .json)
    (htarget : sampleDisk.target? output = some [standardSnapshot]) :
    ∃ after, conclude args .empty (fun _ _ => ⟨"", .epoch⟩) sampleDisk = (0, after) ∧
      sampleDisk.writeText output (Export.content Grammar.sample [] .json) = .ok after := by
  obtain ⟨after, hwrite⟩ := exists_writeText_sample htarget
  exact ⟨after, conclude_export .empty _ hargs openSession_sample rfl hkind hwrite, hwrite⟩

/-- An export that leads to the document in another way than the document's own path replaces it. -/
theorem snapshot_kept_iff_respelled :
    ∃ i, readArguments ["export", "-o", "./chomsky.json"] = .ok i ∧
      i.command = .exporting "./chomsky.json" none ∧
      (conclude ["export", "-o", "./chomsky.json"] .empty (fun _ _ => ⟨"", .epoch⟩)
        sampleDisk).2.readBytes i.snapshot ≠ sampleDisk.readBytes i.snapshot := by
  have hargs : readArguments ["export", "-o", "./chomsky.json"] =
      .ok ⟨standardSnapshot, Notice.standardWindow, .exporting "./chomsky.json" none⟩ := by
    decide +kernel
  have htarget : sampleDisk.target? "./chomsky.json" = some [standardSnapshot] := rfl
  obtain ⟨after, hconclude, -⟩ := conclude_export_sample hargs (by decide +kernel) htarget
  refine ⟨_, hargs, rfl, fun hkept => ?_⟩
  refine ((snapshot_kept_iff .empty _ sampleDisk hargs (.inr ⟨_, _, rfl⟩)).1.mp hkept
    _ _ rfl ?_) htarget
  rw [hconclude]

/-- Exporting to the document's own file, whose extension is that of a format, succeeds and leaves
nothing there that could be opened. -/
theorem export_replaces_snapshot :
    openSession ⟨sampleDisk, standardSnapshot⟩ = .ok sampleSession ∧
      ∃ after, conclude ["export", "-o", "chomsky.json"] .empty (fun _ _ => ⟨"", .epoch⟩)
          sampleDisk = (0, after) ∧
        after.readBytes standardSnapshot ≠ sampleDisk.readBytes standardSnapshot ∧
        ∀ session, openSession ⟨after, standardSnapshot⟩ ≠ .ok session := by
  have hargs : readArguments ["export", "-o", "chomsky.json"] =
      .ok ⟨standardSnapshot, Notice.standardWindow, .exporting "chomsky.json" none⟩ := by
    decide +kernel
  obtain ⟨after, hconclude, hwrite⟩ := conclude_export_sample hargs (by decide +kernel) rfl
  obtain ⟨text, document, hread, hdocument, -⟩ := openSession_eq_ok_iff.mp openSession_sample
  refine ⟨openSession_sample, after, hconclude, ?_, fun session hopen => ?_⟩
  · exact fun hkept => (readBytes_export_iff hread hdocument hwrite).mp hkept rfl
  · obtain ⟨text, document, hread, hdocument, -⟩ := openSession_eq_ok_iff.mp hopen
    have hexported : after.readText standardSnapshot = _ := Disk.readText_of_writeText hwrite
    rw [hexported] at hread
    rw [← Except.ok.inj hread, Export.ofText_content] at hdocument
    cases hdocument

end CommandLine

end Sentential
