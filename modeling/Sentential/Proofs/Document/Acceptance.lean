import Mathlib.Data.List.TakeWhile
import Sentential.Proofs.Document.RoundTrip

/-!
# Which documents are accepted

Any document can be written, but only a complete one is accepted when its text is read. What makes a
document complete, and what is wrong with one that is not, is said here of the document alone. A
document with several faults is refused for the first of them: the version comes before the user,
whose fields come in their order, and the user before the grammar.
-/

namespace Sentential

namespace Text

/-- A text that holds more than blanks. -/
def IsFilled (s : String) : Prop :=
  ∃ c ∈ s.toList, isBlank c = false

theorem forall_skipBlanks_iff {cs : List Char} :
    (∀ c ∈ skipBlanks cs, isBlank c = true) ↔ ∀ c ∈ cs, isBlank c = true := by
  constructor
  · intro h c hc
    rw [← List.takeWhile_append_dropWhile (p := isBlank) (l := cs), List.mem_append] at hc
    exact hc.elim List.mem_takeWhile_imp (h c)
  · exact fun h c hc => h c ((List.dropWhile_sublist isBlank).mem hc)

/-- Nothing is left of a trimmed text exactly if there were only blanks. -/
theorem trim_eq_empty_iff {s : String} : trim s = "" ↔ ¬ IsFilled s := by
  have hnil : trimChars s.toList = [] ↔ ∀ c ∈ s.toList, isBlank c = true := by
    rw [trimChars, List.reverse_eq_nil_iff, skipBlanks, List.dropWhile_eq_nil_iff]
    simp only [List.mem_reverse, forall_skipBlanks_iff]
  rw [← String.toList_inj, trim, String.toList_ofList, String.toList_empty, hnil, IsFilled]
  simp

end Text

namespace User

variable {u : User}

/-- The check looks for the first field that holds no more than blanks. -/
theorem check_cases (u : User) :
    u.fields.find? (fun field => Text.trim field.2 = "") = none ∧ u.check = .ok () ∨
      ∃ field, u.fields.find? (fun field => Text.trim field.2 = "") = some field ∧
        u.check = .error (.emptyUserField field.1) := by
  unfold check
  split
  next name value hfind => exact .inr ⟨(name, value), hfind, rfl⟩
  next hfind => exact .inl ⟨hfind, rfl⟩

theorem check_eq_ok_iff :
    u.check = .ok () ↔ ∀ field ∈ u.fields, Text.IsFilled field.2 := by
  have hnone : u.fields.find? (fun field => Text.trim field.2 = "") = none ↔
      ∀ field ∈ u.fields, Text.IsFilled field.2 := by
    simp only [List.find?_eq_none, decide_eq_true_eq, Text.trim_eq_empty_iff, not_not]
  rw [← hnone]
  rcases u.check_cases with ⟨hfind, hcheck⟩ | ⟨field, hfind, hcheck⟩ <;> simp [hfind, hcheck]

/-- The field that is reported is the first that holds no more than blanks. -/
theorem check_eq_error_iff {e : DocumentError} :
    u.check = .error e ↔ ∃ before name value after, u.fields = before ++ (name, value) :: after ∧
      (∀ field ∈ before, Text.IsFilled field.2) ∧ ¬ Text.IsFilled value ∧
      e = .emptyUserField name := by
  have hsome (field : String × String) :
      u.fields.find? (fun field => Text.trim field.2 = "") = some field ↔
        ¬ Text.IsFilled field.2 ∧ ∃ before after, u.fields = before ++ field :: after ∧
          ∀ field ∈ before, Text.IsFilled field.2 := by
    simp only [List.find?_eq_some_iff_append, decide_eq_true_eq, Text.trim_eq_empty_iff,
      Bool.not_eq_true', decide_eq_false_iff_not, not_not]
  rcases u.check_cases with ⟨hfind, hcheck⟩ | ⟨⟨name, value⟩, hfind, hcheck⟩
  · rw [hcheck]
    simp only [reduceCtorEq, false_iff]
    rintro ⟨before, name, value, after, hfields, hbefore, hblank, -⟩
    have hfound := (hsome (name, value)).mpr ⟨hblank, before, after, hfields, hbefore⟩
    rw [hfind] at hfound
    cases hfound
  · rw [hcheck, Except.error.injEq]
    constructor
    · rintro rfl
      obtain ⟨hblank, before, after, hfields, hbefore⟩ := (hsome _).mp hfind
      exact ⟨before, name, value, after, hfields, hbefore, hblank, rfl⟩
    · rintro ⟨before, name', value', after, hfields, hbefore, hblank, rfl⟩
      have hfound := (hsome (name', value')).mpr ⟨hblank, before, after, hfields, hbefore⟩
      cases hfind.symm.trans hfound
      rfl

end User

namespace Document

/-- The documents that reading accepts: the version counts as the first, every field of the user
holds more than blanks, and the grammar, if there is one, passes the checks of authoring. -/
structure Complete (d : Document) : Prop where
  version_major : major d.version = ['1']
  user_filled : ∀ field ∈ d.user.fields, Text.IsFilled field.2
  grammar_authored : ∀ s ∈ d.grammar, ∃ g, s.toGrammar = .ok g

/-- What a document is refused for: the first thing that is wrong with it. -/
inductive Fault (d : Document) : DocumentError → Prop
  | version : major d.version ≠ ['1'] → Fault d (.unsupportedVersion d.version)
  | user {before after : List (String × String)} {name value : String} :
      major d.version = ['1'] → d.user.fields = before ++ (name, value) :: after →
      (∀ field ∈ before, Text.IsFilled field.2) → ¬ Text.IsFilled value →
      Fault d (.emptyUserField name)
  | grammar {s : GrammarSection} {cause : GrammarError} :
      major d.version = ['1'] → (∀ field ∈ d.user.fields, Text.IsFilled field.2) →
      d.grammar = some s → s.toGrammar = .error cause → Fault d (.badGrammar cause)

variable {d : Document}

theorem isSupported_iff {version : String} : isSupported version = true ↔ major version = ['1'] := by
  have hcurrent : major currentVersion = ['1'] := by decide
  rw [isSupported, hcurrent, decide_eq_true_eq]

theorem loadGrammar_eq_error_iff {e : DocumentError} :
    d.loadGrammar = .error e ↔
      ∃ s cause, d.grammar = some s ∧ s.toGrammar = .error cause ∧ e = .badGrammar cause := by
  unfold loadGrammar
  split
  next hnone => simp [hnone]
  next s hsome =>
    split
    next g hread => simp [hsome, hread]
    next cause hread => simp [hsome, hread, eq_comm]

theorem exists_loadGrammar_iff :
    (∃ g, d.loadGrammar = .ok g) ↔ ∀ s ∈ d.grammar, ∃ g, s.toGrammar = .ok g := by
  unfold loadGrammar
  split
  next hnone => simp [hnone]
  next s hsome =>
    split
    next g hread => simp [hsome, hread]
    next cause hread => simp [hsome, hread]

theorem sound_iff_complete : d.Sound ↔ d.Complete :=
  ⟨fun h => ⟨isSupported_iff.mp h.supported, User.check_eq_ok_iff.mp h.user_check,
      exists_loadGrammar_iff.mp h.grammar_loads⟩,
    fun h => ⟨isSupported_iff.mpr h.version_major, User.check_eq_ok_iff.mpr h.user_filled,
      exists_loadGrammar_iff.mpr h.grammar_authored⟩⟩

theorem ofText_text_eq_ok_iff {d' : Document} :
    ofText d.text = .ok d' ↔ d.Complete ∧ d' = d := by
  rw [ofText_text_eq, complete_eq_ok_iff, sound_iff_complete]
  constructor
  · rintro ⟨hparts, hcomplete⟩
    have hsame : d' = d := by
      cases d'
      cases hparts
      rfl
    exact ⟨hsame ▸ hcomplete, hsame⟩
  · rintro ⟨hcomplete, rfl⟩
    exact ⟨rfl, hcomplete⟩

theorem ofText_text_eq_error_iff {e : DocumentError} :
    ofText d.text = .error e ↔ d.Fault e := by
  simp only [ofText_text_eq, Draft.complete, check_eq_error_iff, bind_eq_error_iff,
    Bool.not_eq_true', ← Bool.not_eq_true, isSupported_iff, User.check_eq_error_iff,
    loadGrammar_eq_error_iff, not_not]
  constructor
  · rintro (⟨hversion, rfl⟩ | ⟨hversion, ⟨before, name, value, after, hfields, hbefore, hblank, rfl⟩ |
      ⟨_, hcheck, ⟨s, cause, hgrammar, hcause, rfl⟩ | ⟨_, -, hpure⟩⟩⟩)
    · exact .version hversion
    · exact .user hversion hfields hbefore hblank
    · exact .grammar hversion (User.check_eq_ok_iff.mp hcheck) hgrammar hcause
    · cases hpure
  · rintro (hversion | ⟨hversion, hfields, hbefore, hblank⟩ | ⟨hversion, huser, hgrammar, hcause⟩)
    · exact .inl ⟨hversion, rfl⟩
    · exact .inr ⟨hversion, .inl ⟨_, _, _, _, hfields, hbefore, hblank, rfl⟩⟩
    · exact .inr ⟨hversion, .inr ⟨(), User.check_eq_ok_iff.mpr huser,
        .inl ⟨_, _, hgrammar, hcause, rfl⟩⟩⟩

/-- The text of a document is read as this document if the document is complete, and otherwise it is
refused for the first fault of the document. So the documents that reading gives, from whatever text,
are those that are read back from their own. -/
theorem ofText_text_exact (d : Document) :
    (∀ d', ofText d.text = .ok d' ↔ d.Complete ∧ d' = d) ∧
      (∀ e, ofText d.text = .error e ↔ d.Fault e) ∧
      ((∃ text, ofText text = .ok d) ↔ ofText d.text = .ok d) :=
  ⟨fun _ => ofText_text_eq_ok_iff, fun _ => ofText_text_eq_error_iff,
    fun ⟨_, h⟩ => (sound_of_ofText h).ofText_text, fun h => ⟨d.text, h⟩⟩

end Document

end Sentential
