import Sentential.Grammar.Builder
import Sentential.History.Stored
import Sentential.Text.Blank

/-!
# Documents

A document is everything one user keeps: who they are, the grammar with its symbols as
written, the settings with the stored history as a text, and the version of the format. A
document that has been read is complete: its version is supported, every field of the user is
filled in, and its grammar passes the checks of authoring.
-/

namespace Sentential

/-- Why a document cannot be read. -/
inductive DocumentError where
  | notJson
  | missingVersion
  | unsupportedVersion (version : String)
  | missingUser
  | emptyUserField (field : String)
  | badGrammar (cause : GrammarError)
deriving DecidableEq

/-- The version written into new documents. -/
def Document.currentVersion : String := "1.0.0"

/-- What is wrong with a document, without the words that introduce it. -/
def DocumentError.detail : DocumentError → String
  | .notJson => "not the JSON text of a document"
  | .missingVersion => "missing version"
  | .unsupportedVersion v =>
    s!"unsupported version {v} (expected {Document.currentVersion})"
  | .missingUser => "missing user"
  | .emptyUserField field => s!"user.{field} is empty"
  | .badGrammar cause => s!"grammar: {cause.message}"

def DocumentError.message (e : DocumentError) : String :=
  s!"invalid snapshot format: {e.detail}"

/-- The person who works on a grammar. -/
structure User where
  lastName : String
  firstName : String
  patronymic : String
  group : String
deriving DecidableEq

namespace User

/-- The fields of a user with the names they are stored under. -/
def fields (u : User) : List (String × String) :=
  [("lastName", u.lastName), ("firstName", u.firstName), ("patronymic", u.patronymic),
    ("group", u.group)]

/-- Every field has to hold more than blanks; the first that does not is reported. -/
def check (u : User) : Except DocumentError Unit :=
  match u.fields.find? fun (_, value) => Text.trim value = "" with
  | some (name, _) => .error (.emptyUserField name)
  | none => .ok ()

/-- A user from typed fields, which lose the blanks around them. -/
def ofInput (lastName firstName patronymic group : String) : Except DocumentError User := do
  let u : User :=
    ⟨Text.trim lastName, Text.trim firstName, Text.trim patronymic, Text.trim group⟩
  u.check
  return u

def shortName (u : User) : String :=
  s!"{u.lastName} {u.firstName}"

end User

structure RuleSection where
  left : String
  right : String
deriving DecidableEq

/-- A grammar as written in a document, with symbols as texts. -/
structure GrammarSection where
  terminals : List String
  nonTerminals : List String
  startSymbol : String
  rules : List RuleSection
deriving DecidableEq

namespace GrammarSection

def ofGrammar (g : Grammar) : GrammarSection where
  terminals := g.terminals.map String.singleton
  nonTerminals := g.nonTerminals.map String.singleton
  startSymbol := String.singleton Symbol.start
  rules := g.rules.map fun r => ⟨String.singleton r.left, String.ofList r.right⟩

/-- The edits that author the written grammar from the bare one. The start symbol is there
from the beginning, so listing it adds nothing, and no other start symbol is taken over. -/
def edits (s : GrammarSection) : List Edit :=
  s.terminals.map .addTerminal
    ++ (s.nonTerminals.filter (· ≠ String.singleton Symbol.start)).map .addNonTerminal
    ++ s.rules.map fun r => .addRule r.left r.right

/-- The grammar a section describes; the first fault that authoring would find is reported. -/
def toGrammar (s : GrammarSection) : Except GrammarError Grammar := do
  let g ← s.edits.foldlM Grammar.edit Grammar.bare
  match g.missingPart? with
  | some part => throw (.incomplete part)
  | none => return g

end GrammarSection

/-- The settings of a document: the text of the stored history, if any. -/
structure Settings where
  history : Option String
deriving DecidableEq

/-- Everything one user keeps. -/
structure Document where
  user : User
  grammar : Option GrammarSection
  settings : Option Settings
  version : String
deriving DecidableEq

namespace Document

/-- The part of a version before its first point. -/
def major (version : String) : List Char :=
  version.toList.takeWhile (· ≠ '.')

/-- A version is supported if its major part is that of the current one. -/
def isSupported (version : String) : Bool :=
  major version = major currentVersion

/-- A document for a user who has not defined a grammar yet. -/
def new (user : User) : Document where
  user := user
  grammar := none
  settings := none
  version := currentVersion

def loadGrammar (d : Document) : Except DocumentError (Option Grammar) :=
  match d.grammar with
  | none => .ok none
  | some written =>
    match written.toGrammar with
    | .ok g => .ok (some g)
    | .error cause => .error (.badGrammar cause)

def withGrammar (g : Grammar) (d : Document) : Document :=
  { d with grammar := some (GrammarSection.ofGrammar g) }

def historyText (d : Document) : Option String :=
  d.settings.bind (·.history)

/-- The stored history; a text that cannot be read counts as none. -/
def history (d : Document) : Option Snapshot :=
  d.historyText.bind Snapshot.ofText?

def withHistory (text : Option String) (d : Document) : Document :=
  { d with settings := some ⟨text⟩ }

end Document

end Sentential
