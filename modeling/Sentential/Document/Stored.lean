import Sentential.Document

/-!
# Stored documents

The JSON form of documents. Parts that a document does not have are not written, and reading
accepts them absent or null; what is required beyond that is checked after reading, version
first, then the user, then the grammar.
-/

namespace Sentential

namespace User

def toJson (u : User) : Json :=
  .ofFields (u.fields.map fun (name, value) => (name, some (.ofString value)))

def ofJson? (v : Json) : Option User :=
  match v.record? ["lastName", "firstName", "patronymic", "group"] 4 with
  | some [lastName, firstName, patronymic, group] => do
    return ⟨← Json.required Json.string? lastName, ← Json.required Json.string? firstName,
      ← Json.required Json.string? patronymic, ← Json.required Json.string? group⟩
  | _ => none

end User

def RuleSection.toJson (r : RuleSection) : Json :=
  .ofFields [("left", some (.ofString r.left)), ("right", some (.ofString r.right))]

def RuleSection.ofJson? (v : Json) : Option RuleSection :=
  match v.record? ["left", "right"] 2 with
  | some [left, right] => do
    return ⟨← Json.required Json.string? left, ← Json.required Json.string? right⟩
  | _ => none

namespace GrammarSection

def toJson (s : GrammarSection) : Json :=
  .ofFields [("terminals", some (.array (s.terminals.map .ofString))),
    ("nonTerminals", some (.array (s.nonTerminals.map .ofString))),
    ("startSymbol", some (.ofString s.startSymbol)),
    ("rules", some (.array (s.rules.map RuleSection.toJson)))]

def ofJson? (v : Json) : Option GrammarSection :=
  match v.record? ["terminals", "nonTerminals", "startSymbol", "rules"] 4 with
  | some [terminals, nonTerminals, startSymbol, rules] => do
    return ⟨← Json.required (Json.list? Json.string?) terminals,
      ← Json.required (Json.list? Json.string?) nonTerminals,
      ← Json.required Json.string? startSymbol,
      ← Json.required (Json.list? RuleSection.ofJson?) rules⟩
  | _ => none

end GrammarSection

namespace Settings

def toJson (s : Settings) : Json :=
  .ofFields [("derivationSnapshot", s.history.map .ofString)]

def ofJson? (v : Json) : Option Settings :=
  match v.record? ["derivationSnapshot"] 0 with
  | some [history] => do return ⟨← Json.optional Json.string? history⟩
  | _ => none

end Settings

namespace Document

def toJson (d : Document) : Json :=
  .ofFields [("user", some d.user.toJson), ("grammar", d.grammar.map (·.toJson)),
    ("settings", d.settings.map (·.toJson)), ("version", some (.ofString d.version))]

/-- A document as read, before anything is known to be there. -/
structure Draft where
  user : Option User
  grammar : Option GrammarSection
  settings : Option Settings
  version : Option String

/-- The parts that a JSON value has. -/
def Draft.ofJson? (v : Json) : Option Draft :=
  match v.record? ["user", "grammar", "settings", "version"] 4 with
  | some [user, grammar, settings, version] => do
    return ⟨← Json.optional User.ofJson? user, ← Json.optional GrammarSection.ofJson? grammar,
      ← Json.optional Settings.ofJson? settings, ← Json.optional Json.string? version⟩
  | _ => none

/-- The document a draft amounts to, if it is complete. -/
def Draft.complete (d : Draft) : Except DocumentError Document := do
  -- The version comes first: other formats may lack what is checked next.
  let some version := d.version | throw .missingVersion
  if !isSupported version then throw (.unsupportedVersion version)
  let some user := d.user | throw .missingUser
  user.check
  let document : Document := ⟨user, d.grammar, d.settings, version⟩
  let _ ← document.loadGrammar
  return document

def ofText (text : String) : Except DocumentError Document :=
  match (Json.ofText? text).bind Draft.ofJson? with
  | none => .error .notJson
  | some draft => draft.complete

/-- The text of a document, indented. -/
def text (d : Document) : String :=
  d.toJson.print .indented

end Document

end Sentential
