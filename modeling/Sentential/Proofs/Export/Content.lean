import Sentential.Export
import Sentential.Proofs.Document.RoundTrip
import Sentential.Proofs.History.RoundTrip

/-!
# Exports are not documents

An export may be written to any file, even to one that holds a document. It is never taken for a
document: plain text is not JSON, and JSON that holds derivations states no version.
-/

namespace Sentential

namespace Json

/-- A value is also read back from a line of its own. -/
theorem Plain.ofText?_print_line {v : Json} (hv : v.Plain) (layout : Layout) :
    ofText? (v.print layout ++ "\n") = some v := by
  have hline : (v.print layout ++ "\n").toList = render layout 0 v ++ ['\n'] := by
    rw [String.toList_append, print, String.toList_ofList]
    rfl
  have hread := hv.readsBack layout 0 (2 * (render layout 0 v ++ ['\n']).length + 2) ['\n']
    (by simp; omega) (stopsNumber_cons (by decide) (by decide) (by decide))
  rw [ofText?, hline, ofChars?, hread]
  rfl

theorem unique?_present_of_not_mem {fields : List (String × Option Json)} {name : String}
    (h : name ∉ fields.map Prod.fst) : unique? (present fields) name = some none := by
  rw [unique?, filter_present_of_not_mem h]

/-- What begins like no value is not JSON. -/
theorem ofText?_of_equals {text : String} {rest : List Char} (h : text.toList = '=' :: rest) :
    ofText? text = none := by
  rw [ofText?, h, ofChars?, readValue, skipSpace_cons_of_not _ (by decide)]
  rfl

end Json

namespace Export

open Json

/-- A grammar with its derivations, read as a document, has a grammar and nothing else. -/
theorem draft_ofJson?_export (g : Grammar) (saved : List Entry) :
    Document.Draft.ofJson? (ofFields [("grammar", some (GrammarSection.ofGrammar g).toJson),
      ("derivations", some (.array (saved.map Entry.toJson)))]) =
        some ⟨none, some (GrammarSection.ofGrammar g), none, none⟩ := by
  let fields : List (String × Option Json) :=
    [("grammar", some (GrammarSection.ofGrammar g).toJson),
      ("derivations", some (.array (saved.map Entry.toJson)))]
  have hfields : (ofFields fields).record? ["user", "grammar", "settings", "version"] 4 =
      some [none, some (GrammarSection.ofGrammar g).toJson, none, none] := by
    have hgrammar : unique? (present fields) "grammar" =
        some (some (GrammarSection.ofGrammar g).toJson) :=
      unique?_present (by simp [fields]) (by simp [fields])
    have hother (name : String) (h : name ∉ fields.map Prod.fst) :
        unique? (present fields) name = some none := unique?_present_of_not_mem h
    rw [ofFields, record?, mapM_textOf?_ofFields]
    simp only [Option.bind_eq_bind, Option.bind_some, List.mapM_cons, List.mapM_nil, hgrammar,
      hother "user" (by simp [fields]), hother "settings" (by simp [fields]),
      hother "version" (by simp [fields])]
    rfl
  have hsection : optional GrammarSection.ofJson? (some (GrammarSection.ofGrammar g).toJson) =
      some (some (GrammarSection.ofGrammar g)) :=
    optional_map GrammarSection.ofJson?_toJson
      (fun _ => by simp [GrammarSection.toJson, ofFields]) (some (GrammarSection.ofGrammar g))
  simp only [Document.Draft.ofJson?, fields] at hfields ⊢
  simp only [hfields, hsection]
  rfl

/-- No export can be read as a document. -/
theorem ofText_content (g : Grammar) (saved : List Entry) (format : Format) :
    Document.ofText (content g saved format) =
      .error (match format with
        | .json => .missingVersion
        | .text => .notJson) := by
  cases format with
  | json =>
    have hplain : (ofFields [("grammar", some (GrammarSection.ofGrammar g).toJson),
        ("derivations", some (.array (saved.map Entry.toJson)))]).Plain :=
      plain_ofFields (by
        simp [GrammarSection.plain_toJson, plain_array_map Entry.plain_toJson])
    rw [Document.ofText, content, jsonText, hplain.ofText?_print_line, Option.bind_some,
      draft_ofJson?_export]
    rfl
  | text =>
    obtain ⟨rest, hrest⟩ : ∃ rest, (plainText g saved).toList = '=' :: rest := by
      have htitle : (toString "== Rules (").toList = '=' :: "= Rules (".toList := by decide
      simp [plainText, unlines, htitle]
    rw [Document.ofText, content, ofText?_of_equals hrest]
    rfl

end Export

end Sentential
