import Sentential.CommandLine.Options
import Sentential.Notice

/-!
# Reading the command line

Arguments are read from left to right. An option waits for its value, which is examined only
when the next option is met or the arguments end, so an argument that nobody knows is reported
first. Options behind the command are read and checked before the values in front of it, and
those of the whole program count there rather than in front.
-/

namespace Sentential.CommandLine

/-- What has been read at one level: the values examined so far, and an option whose value is
still to come or still to be examined. -/
structure Matches where
  found : List (Opt × String)
  pending : Option (Opt × Option String)

namespace Matches

def empty : Matches where
  found := []
  pending := none

def has (m : Matches) (o : Opt) : Bool :=
  m.found.any (·.1 = o)

def values (m : Matches) (o : Opt) : List String :=
  m.found.filterMap fun (p, value) => if p = o then some value else none

def value? (m : Matches) (o : Opt) : Option String :=
  (m.values o).head?

def isAwaiting (m : Matches) : Bool :=
  match m.pending with
  | some (_, none) => true
  | _ => false

/-- Examines a value and keeps it. -/
def accept (m : Matches) (o : Opt) (value : String) : Except Refusal Matches :=
  if !o.repeats && m.has o then .error .repeatedArgument
  else
    match o.objection? value with
    | some refusal => .error refusal
    | none => .ok { m with found := m.found ++ [(o, value)] }

def settle (m : Matches) : Except Refusal Matches :=
  match m.pending with
  | none => .ok m
  | some (_, none) => .error .missingValue
  | some (o, some value) => accept { m with pending := none } o value

def attach (m : Matches) (o : Opt) (value : String) : Except Refusal Matches := do
  (← m.settle).accept o value

def await (m : Matches) (o : Opt) : Except Refusal Matches := do
  return { ← m.settle with pending := some (o, none) }

/-- Takes an option without a value; help and version end the reading. -/
def mark (m : Matches) (o : Opt) : Except Refusal Matches := do
  let m ← m.settle
  match o with
  | .help => throw .help
  | .version => throw .version
  | _ => m.accept o ""

end Matches

/-- How an argument looks. -/
inductive Token where
  | escape
  | long (name : List Char) (value : Option (List Char))
  | short (letters : List Char)
  | plain

/-- Two hyphens alone end the options, two in front of a name start a long option, to which a
value may be attached by an equals sign, and one in front of letters starts short ones. -/
def Token.ofChars : List Char → Token
  | ['-', '-'] => .escape
  | '-' :: '-' :: rest =>
    let name := rest.takeWhile (· ≠ '=')
    .long name (if name.length < rest.length then some (rest.drop (name.length + 1)) else none)
  | '-' :: c :: rest => .short (c :: rest)
  | _ => .plain

namespace Level

/-- The command that an argument names, where one may stand. -/
def command? (l : Level) (arg : String) : Option CommandName :=
  if l.expectsCommand then CommandName.ofText? arg else none

/-- How an argument that nothing takes is refused. -/
def stray (l : Level) : Refusal :=
  if l.expectsCommand then .unknownCommand else .unknownArgument

def readLong (l : Level) (m : Matches) (name : List Char) (value : Option (List Char)) :
    Except Refusal Matches :=
  match l.options.find? (·.long.toList = name), value with
  | none, _ => .error .unknownArgument
  | some o, some value =>
    if o.takesValue then m.attach o (String.ofList value) else .error .surplusValue
  | some o, none => if o.takesValue then m.await o else m.mark o

/-- Reads short options that share a hyphen. The first that takes a value takes all that
follows, without an equals sign in front. -/
def readShort (l : Level) (m : Matches) : List Char → Except Refusal Matches
  | [] => .ok m
  | c :: rest =>
    match l.options.find? (·.short? = some c) with
    | none => .error .unknownArgument
    | some o =>
      if o.takesValue then
        match rest with
        | [] => m.await o
        | '=' :: value => m.attach o (String.ofList value)
        | value => m.attach o (String.ofList value)
      else
        match m.mark o with
        | .error refusal => .error refusal
        | .ok m => l.readShort m rest

/-- Reads what follows the end of options, where nothing is expected. A command that stands
there is reported as out of place. -/
def readEscaped (l : Level) (m : Matches) :
    List String → Except Refusal (Matches × Option (CommandName × List String))
  | [] => .ok (m, none)
  | arg :: _ => .error (if (l.command? arg).isSome then .unknownArgument else l.stray)

/-- Reads arguments up to the command, if one is expected, or to their end. -/
def read (l : Level) (m : Matches) :
    List String → Except Refusal (Matches × Option (CommandName × List String))
  | [] => .ok (m, none)
  | arg :: rest =>
    -- What an option waits for is its value, even if it names a command.
    match if m.isAwaiting then none else l.command? arg with
    | some name => .ok (m, some (name, rest))
    | none =>
      match Token.ofChars arg.toList with
      | .escape => l.readEscaped m rest
      | .long name value =>
        match l.readLong m name value with
        | .error refusal => .error refusal
        | .ok m => l.read m rest
      | .short letters =>
        match l.readShort m letters with
        | .error refusal => .error refusal
        | .ok m => l.read m rest
      | .plain =>
        match m.pending with
        | some (o, none) => l.read { m with pending := some (o, some arg) } rest
        | _ => .error l.stray

end Level

structure InitArguments where
  lastName : String
  firstName : String
  patronymic : String
  group : String
  force : Bool
deriving DecidableEq

/-- What `grammar` is given: symbols and rules to add, and those to remove. -/
structure GrammarArguments where
  terminals : List String
  nonTerminals : List String
  rules : List String
  removeRules : List Ordinal
  removeTerminals : List String
  removeNonTerminals : List String
  fresh : Bool
deriving DecidableEq

/-- A command with its arguments. -/
inductive Command where
  | init (arguments : InitArguments)
  | grammar (arguments : GrammarArguments)
  | overview
  | interactive (autosave : Bool)
  | exporting (output : String) (format : Option String)
deriving DecidableEq

/-- What to run: a command, on which document, with how long a notice window. -/
structure Invocation where
  snapshot : String
  noticeWindow : Nat
  command : Command
deriving DecidableEq

/-- The document's file where none is named. -/
def standardSnapshot : String := "chomsky.json"

/-- The command that what was read behind a name amounts to. -/
def Matches.command (m : Matches) : CommandName → Except Refusal Command
  | .init =>
    .ok (.init ⟨(m.value? .lastName).getD "", (m.value? .firstName).getD "",
      (m.value? .patronymic).getD "", (m.value? .group).getD "", m.has .force⟩)
  | .grammar =>
    .ok (.grammar ⟨m.values .terminal, m.values .nonTerminal, m.values .rule,
      (m.values .removeRule).filterMap readWord?, m.values .removeTerminal,
      m.values .removeNonTerminal, m.has .fresh⟩)
  | .overview => .ok .overview
  | .interactive => .ok (.interactive (m.has .autosave))
  | .exporting => .ok (.exporting ((m.value? .output).getD "") (m.value? .format))
  | .help => .error .help

/-- The answer to `help` with the arguments behind it, which may name one command. -/
def helpAbout : List String → Refusal
  | [] => .help
  | topic :: rest =>
    if (CommandName.ofText? topic).isSome ∧ rest = [] then .help else .unknownCommand

/-- Reads what to run from all arguments. -/
def readArguments (args : List String) : Except Refusal Invocation := do
  let (front, command) ← Level.program.read .empty args
  match command with
  | none =>
    if (← front.settle).found = [] then throw .nothingGiven else throw .missingCommand
  | some (.help, rest) => throw (helpAbout rest)
  | some (name, rest) =>
    let (behind, _) ← (Level.behind name).read .empty rest
    let behind ← behind.settle
    if !name.requiredOptions.all behind.has then throw .missingArgument
    let front ← front.settle
    let setting (o : Opt) : Option String := behind.value? o <|> front.value? o
    return {
      snapshot := (setting .snapshot).getD standardSnapshot
      noticeWindow := (((setting .noticeWindow).bind readWord?).map (·.toNat)).getD Notice.standardWindow
      command := ← behind.command name }

end Sentential.CommandLine
