import Sentential.Document.Stored
import Sentential.Proofs.Grammar.Section
import Sentential.Proofs.Json.Record

/-!
# Reading stored documents

A document that meets what reading demands is read back from its own text, and reading gives no
other documents. What is demanded concerns the version, the fields of the user and the grammar; the
text of the stored history may be any text at all.
-/

namespace Sentential

open Json

namespace User

theorem plain_toJson (u : User) : u.toJson.Plain :=
  plain_ofFields (by simp [fields, plain_ofString])

theorem ofJson?_toJson (u : User) : User.ofJson? u.toJson = some u := by
  have hfields : u.toJson.record? ["lastName", "firstName", "patronymic", "group"] 4 =
      some [some (ofString u.lastName), some (ofString u.firstName),
        some (ofString u.patronymic), some (ofString u.group)] :=
    record?_ofFields (by rfl) (by decide) 4
  simp only [ofJson?, hfields, required, string?_ofString]
  rfl

theorem check_of_ofInput {lastName firstName patronymic group : String} {u : User}
    (h : ofInput lastName firstName patronymic group = .ok u) : u.check = .ok () := by
  obtain ⟨_, hcheck, hu⟩ := bind_eq_ok_iff.mp h
  obtain rfl := pure_eq_ok_iff.mp hu
  exact hcheck

end User

namespace RuleSection

theorem plain_toJson (r : RuleSection) : r.toJson.Plain :=
  plain_ofFields (by simp [plain_ofString])

theorem ofJson?_toJson (r : RuleSection) : RuleSection.ofJson? r.toJson = some r := by
  have hfields : r.toJson.record? ["left", "right"] 2 =
      some [some (ofString r.left), some (ofString r.right)] :=
    record?_ofFields (by rfl) (by decide) 2
  simp only [ofJson?, hfields, required, string?_ofString]
  rfl

end RuleSection

namespace GrammarSection

theorem plain_toJson (s : GrammarSection) : s.toJson.Plain :=
  plain_ofFields (by
    simp [plain_ofString, plain_array_map plain_ofString,
      plain_array_map RuleSection.plain_toJson])

theorem ofJson?_toJson (s : GrammarSection) : GrammarSection.ofJson? s.toJson = some s := by
  have hfields : s.toJson.record? ["terminals", "nonTerminals", "startSymbol", "rules"] 4 =
      some [some (array (s.terminals.map ofString)), some (array (s.nonTerminals.map ofString)),
        some (ofString s.startSymbol), some (array (s.rules.map RuleSection.toJson))] :=
    record?_ofFields (by rfl) (by decide) 4
  have hsymbols := list?_array_map string?_ofString
  have hrules := list?_array_map RuleSection.ofJson?_toJson s.rules
  simp only [ofJson?, hfields, required, string?_ofString, hsymbols, hrules]
  rfl

end GrammarSection

namespace Settings

theorem plain_toJson (s : Settings) : s.toJson.Plain :=
  plain_ofFields (by simp [plain_ofString])

theorem ofJson?_toJson (s : Settings) : Settings.ofJson? s.toJson = some s := by
  have hfields : s.toJson.record? ["derivationSnapshot"] 0 = some [s.history.map ofString] :=
    record?_ofFields (by rfl) (by decide) 0
  have hhistory := optional_map string?_ofString (fun _ => by simp [ofString, ofChars]) s.history
  simp only [ofJson?, hfields, hhistory]
  rfl

end Settings

namespace Document

variable {d : Document}

theorem plain_toJson (d : Document) : d.toJson.Plain :=
  plain_ofFields (by
    simp [User.plain_toJson, GrammarSection.plain_toJson, Settings.plain_toJson, plain_ofString])

/-- A stored document is read as a draft that has all of its parts. -/
theorem draft_ofJson?_toJson (d : Document) :
    Draft.ofJson? d.toJson = some ⟨some d.user, d.grammar, d.settings, some d.version⟩ := by
  have hfields : d.toJson.record? ["user", "grammar", "settings", "version"] 4 =
      some [some d.user.toJson, d.grammar.map (·.toJson), d.settings.map (·.toJson),
        some (ofString d.version)] :=
    record?_ofFields (by rfl) (by decide) 4
  have huser : optional User.ofJson? (some d.user.toJson) = some (some d.user) :=
    optional_map User.ofJson?_toJson (fun _ => by simp [User.toJson, ofFields]) (some d.user)
  have hgrammar := optional_map GrammarSection.ofJson?_toJson
    (fun _ => by simp [GrammarSection.toJson, ofFields]) d.grammar
  have hsettings := optional_map Settings.ofJson?_toJson
    (fun _ => by simp [Settings.toJson, ofFields]) d.settings
  have hversion : optional string? (some (ofString d.version)) = some (some d.version) :=
    optional_map string?_ofString (fun _ => by simp [ofString, ofChars]) (some d.version)
  simp only [Draft.ofJson?, hfields, huser, hgrammar, hsettings, hversion]
  rfl

/-- What reading demands of a document. -/
structure Sound (d : Document) : Prop where
  supported : isSupported d.version = true
  user_check : d.user.check = .ok ()
  grammar_loads : ∃ g, d.loadGrammar = .ok g

/-- A draft amounts to the document of its parts, if that document is sound. -/
theorem complete_eq_ok_iff {draft : Draft} :
    draft.complete = .ok d ↔
      draft = ⟨some d.user, d.grammar, d.settings, some d.version⟩ ∧ d.Sound := by
  obtain ⟨user, grammar, settings, version⟩ := draft
  cases version with
  | none => simp [Draft.complete, throw, throwThe, MonadExceptOf.throw]
  | some version =>
    cases user with
    | none =>
      cases hsupported : isSupported version <;>
        simp [Draft.complete, hsupported, throw, throwThe, MonadExceptOf.throw, bind, Except.bind]
    | some user =>
      simp only [Draft.complete, check_eq_ok_iff, bind_eq_ok_iff, pure_eq_ok_iff]
      constructor
      · rintro ⟨hsupported, _, hcheck, g, hloads, rfl⟩
        exact ⟨rfl, by simpa using hsupported, hcheck, g, hloads⟩
      · rintro ⟨heq, hsupported, hcheck, g, hloads⟩
        cases heq
        exact ⟨by simpa using hsupported, (), hcheck, g, hloads, rfl⟩

theorem sound_of_ofText {text : String} (h : ofText text = .ok d) : d.Sound := by
  unfold ofText at h
  split at h
  next => cases h
  next draft _ => exact (complete_eq_ok_iff.mp h).2

/-- The text of a document is read as a draft that lacks nothing, so only the checks decide. -/
theorem ofText_text_eq (d : Document) :
    ofText d.text = Draft.complete ⟨some d.user, d.grammar, d.settings, some d.version⟩ := by
  rw [ofText, text, d.plain_toJson.ofText?_print, Option.bind_some, draft_ofJson?_toJson]

/-- Every sound document is read back from its text. -/
theorem Sound.ofText_text (h : d.Sound) : ofText d.text = .ok d := by
  rw [ofText_text_eq]
  exact complete_eq_ok_iff.mpr ⟨rfl, h⟩

end Document

end Sentential
