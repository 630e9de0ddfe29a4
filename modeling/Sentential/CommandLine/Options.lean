import Sentential.Ordinal

/-!
# Options of the command line

The commands, the options each of them knows, and which texts an option takes as its value.
An option that takes a value is given once unless it repeats; options of the whole program may
stand before or after the command.
-/

namespace Sentential.CommandLine

/-- Why arguments name nothing to run: a request for help or for the version, or a usage
error. -/
inductive Refusal where
  | help
  | version
  | nothingGiven
  | missingCommand
  | unknownCommand
  | unknownArgument
  | missingValue
  | badValue
  | surplusValue
  | repeatedArgument
  | missingArgument
deriving DecidableEq

/-- The exit code of a refusal: giving help or the version is no error. -/
def Refusal.exitCode : Refusal → Nat
  | .help | .version => 0
  | _ => 2

/-- Everything an argument can set. -/
inductive Opt where
  | snapshot
  | noticeWindow
  | help
  | version
  | lastName
  | firstName
  | patronymic
  | group
  | force
  | terminal
  | nonTerminal
  | rule
  | removeRule
  | removeTerminal
  | removeNonTerminal
  | fresh
  | autosave
  | output
  | format
deriving DecidableEq

namespace Opt

def long : Opt → String
  | snapshot => "snapshot"
  | noticeWindow => "notice-ms"
  | help => "help"
  | version => "version"
  | lastName => "last-name"
  | firstName => "first-name"
  | patronymic => "patronymic"
  | group => "group"
  | force => "force"
  | terminal => "terminal"
  | nonTerminal => "non-terminal"
  | rule => "rule"
  | removeRule => "remove-rule"
  | removeTerminal => "remove-terminal"
  | removeNonTerminal => "remove-non-terminal"
  | fresh => "fresh"
  | autosave => "autosave"
  | output => "output"
  | format => "format"

/-- The letter that names an option behind one hyphen. -/
def short? : Opt → Option Char
  | snapshot => some 's'
  | help => some 'h'
  | version => some 'V'
  | terminal => some 't'
  | nonTerminal => some 'n'
  | rule => some 'r'
  | output => some 'o'
  | _ => none

def takesValue : Opt → Bool
  | help | version | force | fresh | autosave => false
  | _ => true

def repeats : Opt → Bool
  | terminal | nonTerminal | rule | removeRule | removeTerminal | removeNonTerminal => true
  | _ => false

end Opt

/-- Reads a machine word: decimal digits, possibly behind a plus sign, below `2 ^ 64`. -/
def readWord? (text : String) : Option UInt64 :=
  let digits :=
    match text.toList with
    | '+' :: rest => rest
    | cs => cs
  if digits ≠ [] ∧ digits.all Char.isDigit then
    let n := digits.foldl (fun n c => 10 * n + (c.toNat - '0'.toNat)) 0
    if n < UInt64.size then some (UInt64.ofNat n) else none
  else none

/-- What is wrong with a value. A path must not be empty and a number has to be one; every
other text is taken as it is. -/
def Opt.objection? (o : Opt) (value : String) : Option Refusal :=
  match o with
  | .snapshot | .output => if value = "" then some .missingValue else none
  | .noticeWindow | .removeRule => if (readWord? value).isNone then some .badValue else none
  | _ => none

/-- The commands, with the one that explains the others. -/
inductive CommandName where
  | init
  | grammar
  | overview
  | interactive
  | exporting
  | help
deriving DecidableEq

namespace CommandName

def ofText? (text : String) : Option CommandName :=
  if text = "init" then some init
  else if text = "grammar" then some grammar
  else if text = "show" then some overview
  else if text = "derive" then some interactive
  else if text = "export" then some exporting
  else if text = "help" then some help
  else none

/-- The options of a command, besides those of the whole program. -/
def ownOptions : CommandName → List Opt
  | init => [.lastName, .firstName, .patronymic, .group, .force]
  | grammar =>
    [.terminal, .nonTerminal, .rule, .removeRule, .removeTerminal, .removeNonTerminal, .fresh]
  | overview => []
  | interactive => [.autosave]
  | exporting => [.output, .format]
  | help => []

/-- The options a command cannot do without. -/
def requiredOptions : CommandName → List Opt
  | init => [.lastName, .firstName, .patronymic, .group]
  | exporting => [.output]
  | _ => []

end CommandName

/-- A level of the command line: the options known there, and whether a command is still to
come. -/
structure Level where
  options : List Opt
  expectsCommand : Bool

def Level.program : Level where
  options := [.snapshot, .noticeWindow, .help, .version]
  expectsCommand := true

def Level.behind (name : CommandName) : Level where
  options := [.snapshot, .noticeWindow, .help] ++ name.ownOptions
  expectsCommand := false

end Sentential.CommandLine
