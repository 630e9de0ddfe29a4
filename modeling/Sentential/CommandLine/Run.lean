import Sentential.CommandLine.Author
import Sentential.CommandLine.Interactive
import Sentential.Config
import Sentential.Text.Lines

/-!
# Running a command

A run takes a disk, the bytes of its input and the stamps it may use, and yields what it
prints and the disk it leaves. The path of the document is checked before the command starts.

Writing to the output is taken to succeed. Where a line cannot be printed a command stops at it, and
the disk is as it was by then.
-/

namespace Sentential.CommandLine

def openSession (s : FileStorage) : Except Failure Session :=
  match s.load with
  | .done d =>
    match Session.ofDocument d with
    | .ok session => .ok session
    | .error cause => .error ⟨s!"Failed to open snapshot {s.path}", some cause.message⟩
  | .cancelled => .error (.plain s!"Loading {s.path} was cancelled")
  | .failed message => .error (.plain message)

def saveSession (session : Session) (s : FileStorage) : Except Failure FileStorage :=
  match s.save session.document with
  | (.done (), s) => .ok s
  | (.cancelled, s) => .error (.plain s!"Saving {s.path} was cancelled")
  | (.failed message, _) => .error (.plain message)

/-- Creates a document for a user. A file that exists is left alone unless told otherwise. -/
def runInit (a : InitArguments) (s : FileStorage) : Report × FileStorage :=
  if s.disk.exists? s.path && !a.force then
    (.refusal (.plain s!"Snapshot {s.path} already exists (use --force to overwrite)"), s)
  else
    match User.ofInput a.lastName a.firstName a.patronymic a.group with
    | .error cause => (.refusal ⟨"Invalid user data", some cause.message⟩, s)
    | .ok user =>
      match saveSession (Session.new user) s with
      | .error failure => (.refusal failure, s)
      | .ok s => (.success [s!"Created snapshot for {user.shortName} at {s.path}"], s)

def runGrammar (a : GrammarArguments) (window : Nat) (s : FileStorage) : Report × FileStorage :=
  match openSession s with
  | .error failure => (.refusal failure, s)
  | .ok session =>
    match a.author session.grammar window with
    | (complaints, .error failure) => (⟨[], complaints, some failure⟩, s)
    | (complaints, .ok g) =>
      match saveSession (session.setGrammar g).persist s with
      | .error failure => (⟨[], complaints, some failure⟩, s)
      | .ok s =>
        let title := s!"Saved grammar with {g.rules.length} rules:"
        (⟨title :: (Export.ruleLines g).map ("  " ++ ·), complaints, none⟩, s)

/-- An alphabet as a list between braces. -/
def alphabet (symbols : List Char) : String :=
  "\x7b" ++ ", ".intercalate (symbols.map String.singleton) ++ "\x7d"

/-- The lines that show a grammar and its history. -/
def overviewLines (g : Grammar) (h : History) : List String :=
  [s!"Terminals: {alphabet g.terminals}", s!"Non-terminals: {alphabet g.nonTerminals}",
    s!"Start symbol: {Symbol.start}", s!"== Rules ({g.rules.length} total) =="]
    ++ (Export.ruleLines g).map ("  " ++ ·)
    ++ ["== Current derivation ==", s!"  {Display.chain h.derivation.steps}",
      completedTitle h.saved]
    ++ h.saved.map fun e =>
      s!"  {e.id} {Display.form e.finalWord}  {Display.chain e.steps}"

def runOverview (s : FileStorage) : Report :=
  match openSession s with
  | .error failure => .refusal failure
  | .ok session =>
    let u := session.document.user
    let user := s!"User: {u.lastName} {u.firstName} {u.patronymic} ({u.group})"
    match session.active with
    | none => .success [user, "No grammar defined."]
    | some a => .success (user :: overviewLines a.grammar a.history)

/-- The controller that derives words in a document, which has to have a grammar. -/
def openController (autosave : Bool) (s : FileStorage) :
    Except Failure (Controller FileStorage) :=
  match openSession s with
  | .error failure => .error failure
  | .ok session =>
    match session.active with
    | none => .error (.plain SessionError.noGrammar.message)
    | some _ => .ok (Controller.new session s autosave)

/-- Derives words from lines of input. -/
def runInteractive (autosave : Bool) (lines : List (Option String))
    (stamps : Nat → Nat → Stamp) (s : FileStorage) : Report × FileStorage :=
  match openController autosave s with
  | .error failure => (.refusal failure, s)
  | .ok c =>
    let (output, failure, after) := takeLines stamps 0 c lines
    (⟨opening c ++ output, [], failure⟩, after.storage)

/-- Writes the completed derivations of a document to a file. -/
def runExport (output : String) (format : Option String) (s : FileStorage) :
    Report × FileStorage :=
  match openSession s with
  | .error failure => (.refusal failure, s)
  | .ok session =>
    match session.active with
    | none => (.refusal (.plain SessionError.noGrammar.message), s)
    | some a =>
      match (format.map Export.Format.ofName).getD (Export.Format.ofPath output) with
      | .error failure => (.refusal failure, s)
      | .ok format =>
        let saved := a.history.saved
        match s.disk.writeText output (Export.content a.grammar saved format) with
        | .error cause => (.refusal (Export.cannotCreate output cause.message), s)
        | .ok disk =>
          (.success [s!"Exported {saved.length} derivations to {output}"], { s with disk })

def Command.run (c : Command) (window : Nat) (input : ByteArray) (stamps : Nat → Nat → Stamp)
    (s : FileStorage) : Report × FileStorage :=
  match c with
  | .init a => runInit a s
  | .grammar a => runGrammar a window s
  | .overview => (runOverview s, s)
  | .interactive autosave => runInteractive autosave (Text.lines input) stamps s
  | .exporting output format => runExport output format s

/-- Checks where the document is kept and runs the command. -/
def Invocation.run (i : Invocation) (input : ByteArray) (stamps : Nat → Nat → Stamp)
    (d : Disk) : Report × Disk :=
  match Config.check d i.snapshot with
  | .error objection => (.refusal (.plain objection.message), d)
  | .ok () =>
    let (report, s) := i.command.run i.noticeWindow input stamps ⟨d, i.snapshot⟩
    (report, s.disk)

def run (args : List String) (input : ByteArray) (stamps : Nat → Nat → Stamp) (d : Disk) :
    Except Refusal (Report × Disk) :=
  (readArguments args).map fun i => i.run input stamps d

end Sentential.CommandLine
