import Sentential.CommandLine.Arguments
import Sentential.CommandLine.Report
import Sentential.Grammar.Builder
import Sentential.Session

/-!
# Authoring on the command line

The arguments of `grammar` are turned into edits in a fixed order: rules to remove, from the
highest ordinal down, then symbols to remove, then symbols and rules to add. A rejected edit is
reported and the others still happen; while the latest rejection is live the grammar is not
saved. An argument that is no edit at all ends the run. A run takes no time.
-/

namespace Sentential.CommandLine

/-- An edit together with the words that report its rejection. -/
structure Attempt where
  label : String
  edit : Edit
deriving DecidableEq

def insertFalling (n : Ordinal) : List Ordinal → List Ordinal
  | [] => [n]
  | m :: rest =>
    if m < n then n :: m :: rest
    else if m = n then m :: rest
    else m :: insertFalling n rest

/-- The ordinals of a list, each once, the highest first. -/
def falling (ns : List Ordinal) : List Ordinal :=
  ns.foldr insertFalling []

def readSymbol (input : String) : Except Failure Char :=
  match Symbol.sole? input.toList with
  | some c => .ok c
  | none => .error (.plain s!"'{input}' is not a single symbol")

/-- Reads a rule, whose two sides stand around the first equals sign. -/
def readRule (input : String) : Except Failure (String × String) :=
  let left := input.toList.takeWhile (· ≠ '=')
  match input.toList.drop left.length with
  | _ :: right => .ok (String.ofList left, String.ofList right)
  | [] => .error (.plain s!"Rule '{input}' must be written LEFT=RIGHT")

namespace GrammarArguments

/-- The edits that the arguments ask for, in the order they are tried. -/
def attempts (a : GrammarArguments) : List (Except Failure Attempt) :=
  (falling a.removeRules).map (fun n =>
      .ok ⟨s!"Cannot remove rule {n.toNat}", .removeRule n⟩)
    ++ a.removeTerminals.map (fun s => (readSymbol s).map fun c =>
      ⟨s!"Cannot remove terminal '{s}'", .removeTerminal c⟩)
    ++ a.removeNonTerminals.map (fun s => (readSymbol s).map fun c =>
      ⟨s!"Cannot remove non-terminal '{s}'", .removeNonTerminal c⟩)
    ++ a.terminals.map (fun s => .ok ⟨s!"Cannot add terminal '{s}'", .addTerminal s⟩)
    ++ a.nonTerminals.map (fun s => .ok ⟨s!"Cannot add non-terminal '{s}'", .addNonTerminal s⟩)
    ++ a.rules.map (fun s => (readRule s).map fun (left, right) =>
      ⟨s!"Cannot add rule '{s}'", .addRule left right⟩)

end GrammarArguments

def instant : Nat := 0

/-- Authoring under way: the builder and the rejections reported so far. -/
structure Authoring where
  builder : Builder
  rejections : List String

namespace Authoring

/-- Tries one edit and reports it if it is rejected. -/
def submit (a : Authoring) (attempt : Attempt) : Authoring :=
  let (rejection, builder) := a.builder.submit instant attempt.edit
  match rejection with
  | none => { a with builder }
  | some cause =>
    { builder, rejections := a.rejections ++ [s!"{attempt.label}: {cause.message}"] }

/-- Tries edits in order, up to the first argument that is no edit. -/
def submitAll (a : Authoring) : List (Except Failure Attempt) → Option Failure × Authoring
  | [] => (none, a)
  | .error failure :: _ => (some failure, a)
  | .ok attempt :: rest => (a.submit attempt).submitAll rest

/-- The rejection that keeps the grammar from being saved: the latest one, while it is live. -/
def blocking? (a : Authoring) : Option String :=
  a.rejections.getLast?.bind fun message =>
    (⟨message, instant⟩ : Notice String).live? a.builder.window instant

def finish (a : Authoring) : Except Failure Grammar :=
  match a.blocking? with
  | some message => .error (.plain s!"Grammar cannot be saved: {message}")
  | none =>
    match a.builder.build instant with
    | .ok g => .ok g
    | .error cause => .error ⟨"Grammar cannot be saved", some cause.message⟩

end Authoring

/-- The builder that authoring starts from: the stored grammar, or the bare one if there is
none or a fresh start is asked for. -/
def GrammarArguments.builder (a : GrammarArguments) (stored : Option Grammar) (window : Nat) :
    Builder :=
  match stored, a.fresh with
  | some g, false => .ofGrammar g window
  | _, _ => .empty window

/-- Carries out the edits that the arguments ask for. The rejections are reported whether or
not a grammar results. -/
def GrammarArguments.author (a : GrammarArguments) (stored : Option Grammar) (window : Nat) :
    List String × Except Failure Grammar :=
  let (failure, done) :=
    Authoring.submitAll ⟨a.builder stored window, []⟩ a.attempts
  match failure with
  | some failure => (done.rejections, .error failure)
  | none => (done.rejections, done.finish)

end Sentential.CommandLine
