import Sentential.CommandLine.Report
import Sentential.Controller
import Sentential.Text.Blank

/-!
# Deriving words line by line

Each line of input is either a command behind a colon or a row of keys, every one of which may
apply a rule. After a line its requests are served and the new state is shown; the end of input
saves. A line that is not text ends the run at once.

Writing to the output is taken to succeed, so what is shown is a value here. Where a line cannot
be written a run ends at it, without what would have been saved later.
-/

namespace Sentential.CommandLine

def helpLines : List String :=
  ["Keys 1-9 and A-Z apply the rule with that label.",
    "Commands: :undo  :reset  :clear  :list  :remove <id>  :save  :load  :export <path>  :help  "
      ++ ":quit"]

inductive Input where
  | undo
  | reset
  | clear
  | list
  | remove (id : String)
  | save
  | load
  | exportTo (path : String)
  | help
  | quit
  | unknown
  | keys (pressed : List Char)
deriving DecidableEq

/-- The command that a name and a possible operand make up. Operands that a command does not
take are ignored. -/
def Input.ofCommand (name : String) (operand : Option String) : Input :=
  match name, operand with
  | "undo", _ => .undo
  | "reset", _ => .reset
  | "clear", _ => .clear
  | "list", _ => .list
  | "remove", some id => .remove id
  | "save", _ => .save
  | "load", _ => .load
  | "export", some path => .exportTo path
  | "help", _ => .help
  | "quit", _ => .quit
  | _, _ => .unknown

/-- What a trimmed line asks for. -/
def Input.ofChars : List Char → Input
  | ':' :: rest =>
    match (Text.pieces rest).map String.ofList with
    | [] => .unknown
    | name :: operands => .ofCommand name operands.head?
  | pressed => .keys pressed

/-- The lines that show the state of a session. A completed derivation offers no rules. -/
def stateLines (s : Session) : List String :=
  match s.active with
  | none => ["No grammar defined."]
  | some a =>
    let current := s!"Current: {Display.form a.history.derivation.current}"
    match a.history.progress a.grammar with
    | .completed => [current]
    | .inProgress =>
      let offers := s.offers
      let idle := if offers.all (!·.available) then ["No rule applies."] else []
      current :: idle ++ offers.map fun o =>
        let marker := if o.available then " " else "-"
        s!" {marker} {Display.numberedRule o.ordinal o.rule}"

/-- The line that reports an event, if it is worth one. -/
def eventLine? : Event → Option String
  | .saved => some "Saved."
  | .loaded => some "Loaded."
  | .exported path => some s!"Exported to {path}."
  | .cancelled => some "Cancelled."
  | .failed message => some s!"Error: {message}"
  | .quitRequested => none

def completionLine (word : Word) : Completion → String
  | .added _ => s!"Completed: {Display.form word} (saved)"
  | .duplicate _ => s!"Completed: {Display.form word} (already saved)"

def completedTitle (saved : List Entry) : String :=
  s!"== Completed derivations ({saved.length} total) =="

def listLines (s : Session) : List String :=
  match s.history with
  | none => []
  | some h =>
    completedTitle h.saved :: h.saved.map fun e => s!"  {e.id} {Display.chain e.steps}"

section

variable {σ : Type} [Storage σ]

/-- Presses keys one after another; each has a stamp of its own, numbered from `index` on. -/
def pressKeys (stamps : Nat → Stamp) (index : Nat) (c : Controller σ) :
    List Char → List String × Controller σ
  | [] => ([], c)
  | key :: rest =>
    match c.pressKey (stamps index) key with
    | none => pressKeys stamps (index + 1) c rest
    | some (outcome, c) =>
      let (lines, c) := pressKeys stamps (index + 1) c rest
      ((outcome.completion.map (completionLine outcome.step.form)).toList ++ lines, c)

/-- Serves the waiting requests and, unless the run is over, shows the state. -/
def settle (c : Controller σ) : List String × Controller σ :=
  let (events, c) := c.pump
  let reports := events.filterMap eventLine?
  (if c.running then reports ++ stateLines c.session else reports, c)

/-- Carries out what a line asks for. Listing, removing, asking for help and unknown commands
leave the requests waiting and do not show the state. -/
def respond (stamps : Nat → Stamp) (line : String) (c : Controller σ) :
    Input → List String × Controller σ
  | .undo =>
    match c.session.undo with
    | .ok (_, session) => settle { c with session }
    | .error (.derivation .nothingToUndo) => settle c
    | .error cause =>
      let (lines, c) := settle c
      (s!"Error: {cause.message}" :: lines, c)
  | .reset => settle { c with session := c.session.reset }
  | .clear =>
    let (event, c) := c.clear
    let (lines, c) := settle c
    ((eventLine? event).toList ++ lines, c)
  | .list => (listLines c.session, c)
  | .remove id =>
    let (removed, session) := c.session.remove id
    (if removed then [s!"Removed {id}."] else [], { c with session })
  | .save => settle (c.send .save)
  | .load => settle (c.send .load)
  | .exportTo path => settle (c.send (.exportTo path))
  | .help => (helpLines, c)
  | .quit => settle ((c.send .save).send .quit)
  | .unknown => ([s!"Unknown command: {line}"], c)
  | .keys pressed =>
    let (completions, c) := pressKeys stamps 0 c pressed
    let (lines, c) := settle c
    (completions ++ lines, c)

/-- Takes one line of input. A blank line does nothing. -/
def takeLine (stamps : Nat → Stamp) (line : String) (c : Controller σ) :
    List String × Controller σ :=
  let trimmed := Text.trimChars line.toList
  if trimmed = [] then ([], c)
  else respond stamps (String.ofList trimmed) c (Input.ofChars trimmed)

def opening (c : Controller σ) : List String :=
  helpLines ++ stateLines c.session

def closing (c : Controller σ) : List String × Controller σ :=
  let (events, c) := (c.send .save).pump
  (events.filterMap eventLine?, c)

def unreadable : Failure where
  message := "Failed to read input"
  cause := some FileError.notUtf8.message

/-- Takes lines until the user quits, a line cannot be read, or the input ends. The line at a
given position uses the stamps of that position. What is shown never ends a run. -/
def takeLines (stamps : Nat → Nat → Stamp) (position : Nat) (c : Controller σ) :
    List (Option String) → List String × Option Failure × Controller σ
  | [] =>
    let (lines, c) := closing c
    (lines, none, c)
  | none :: _ => ([], some unreadable, c)
  | some line :: rest =>
    let (lines, c) := takeLine (stamps position) line c
    if c.running then
      let (later, failure, c) := takeLines stamps (position + 1) c rest
      (lines ++ later, failure, c)
    else (lines, none, c)

end

end Sentential.CommandLine
