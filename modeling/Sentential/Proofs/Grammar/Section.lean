import Mathlib.Data.List.Nodup
import Mathlib.Data.Set.List
import Sentential.Document
import Sentential.Proofs.Grammar.Building

/-!
# Grammars as written in documents

A section is read by authoring what it lists, so what it describes is buildable. The written form
of a buildable grammar describes this grammar, since it is read with the very edits that author it.

Which sections describe a grammar can be said without any edit: `GrammarSection.WellFormed` is a
property of the lists alone. Each pass of edits adds the items whose written forms it is given, in
their order, so the grammar that is read is the one that would be written as the section is, up to
how the start symbol is listed.
-/

namespace Sentential

theorem singleton_injective : Function.Injective String.singleton := by
  intro c d h
  simpa using congrArg String.toList h

theorem eq_singleton_iff {t : String} {c : Char} : t = String.singleton c ↔ t.toList = [c] := by
  rw [← String.toList_inj, String.toList_singleton]

/-- The written form of a rule. -/
def RuleSection.ofRule (r : Rule) : RuleSection where
  left := String.singleton r.left
  right := String.ofList r.right

theorem RuleSection.ofRule_injective : Function.Injective RuleSection.ofRule := by
  rintro ⟨l, w⟩ ⟨l', w'⟩ h
  obtain ⟨hl, hw⟩ := RuleSection.mk.inj h
  exact congrArg₂ Rule.mk (singleton_injective hl) (String.ofList_injective hw)

namespace Builder

/-- Submits edits one after another until one is rejected. -/
def submitAll (b : Builder) (now : Nat) : List Edit → Except GrammarError Builder
  | [] => .ok b
  | e :: rest =>
    match b.submit now e with
    | (none, b') => b'.submitAll now rest
    | (some cause, _) => .error cause

theorem submitAll_eq {b : Builder} (hb : b.rejection = none) (now : Nat) (es : List Edit) :
    b.submitAll now es = (es.foldlM Grammar.edit b.draft).map fun g => { b with draft := g } := by
  induction es generalizing b with
  | nil => rfl
  | cons e rest ih =>
    rw [List.foldlM_cons, submitAll, submit]
    cases b.draft.edit e with
    | error cause => rfl
    | ok g => exact (ih rfl).trans (by rw [hb]; rfl)

/-- With no rejection on display only what is missing keeps a draft from being built. -/
theorem build_of_quiet {b : Builder} (hb : b.rejection = none) (now : Nat) :
    b.build now =
      match b.draft.missingPart? with
      | some part => .error (.incomplete part)
      | none => .ok b.draft := by
  rw [build, pending?, hb]
  cases b.draft.missingPart? <;> rfl

end Builder

namespace Grammar

variable {g : Grammar}

/-! ### What a pass of accepted edits adds -/

theorem terminals_of_edits {texts : List String}
    (h : (texts.map Edit.addTerminal).foldlM Grammar.edit bare = .ok g) :
    ∃ ts, ts.map String.singleton = texts ∧ g = { bare with terminals := ts } := by
  refine exists_of_foldlM_edit_map (fun ts => { bare with terminals := ts }) ?_ h
  intro before t g₁ he
  obtain ⟨c, hc, -, -, rfl⟩ := addTerminal_eq_ok_iff.mp he
  exact ⟨c, eq_singleton_iff.mpr hc, rfl⟩

theorem nonTerminals_of_edits {texts : List String} {ts : List Char}
    (h : (texts.map Edit.addNonTerminal).foldlM Grammar.edit { bare with terminals := ts } =
      .ok g) :
    ∃ ns, ns.map String.singleton = texts ∧ g = ⟨ts, Symbol.start :: ns, []⟩ := by
  refine exists_of_foldlM_edit_map (fun ns => ⟨ts, Symbol.start :: ns, []⟩) ?_ h
  intro before t g₁ he
  obtain ⟨c, hc, -, -, rfl⟩ := addNonTerminal_eq_ok_iff.mp he
  exact ⟨c, eq_singleton_iff.mpr hc, rfl⟩

theorem rules_of_edits {written : List RuleSection} {ts ns : List Char}
    (h : (written.map fun r => Edit.addRule r.left r.right).foldlM Grammar.edit ⟨ts, ns, []⟩ =
      .ok g) :
    ∃ rs, rs.map RuleSection.ofRule = written ∧ g = ⟨ts, ns, rs⟩ := by
  refine exists_of_foldlM_edit_map (fun rs => ⟨ts, ns, rs⟩) ?_ h
  rintro before ⟨left, right⟩ g₁ he
  obtain ⟨r, hl, hw, -, -, -, rfl⟩ := addRule_eq_ok_iff.mp he
  have hright : right = String.ofList r.right := by rw [← hw, String.ofList_toList]
  exact ⟨r, congrArg₂ RuleSection.mk (eq_singleton_iff.mpr hl) hright, rfl⟩

end Grammar

namespace GrammarSection

variable {s : GrammarSection} {g : Grammar}

/-- The edits of a written grammar are those that author it: among its non-terminals only the first
is the start symbol. -/
theorem edits_ofGrammar {g : Grammar} (h : g.WellFormed) : (ofGrammar g).edits = g.authoring := by
  obtain ⟨rest, hrest⟩ := List.head?_eq_some_iff.mp h.start_first
  have hothers : (ofGrammar g).nonTerminals.filter (· ≠ String.singleton Symbol.start) =
      rest.map String.singleton := by
    have hnot : Symbol.start ∉ rest := by
      have hnodup := h.nonTerminals_nodup
      rw [hrest] at hnodup
      exact (List.nodup_cons.mp hnodup).1
    rw [ofGrammar, hrest, List.map_cons, List.filter_cons_of_neg (by simp)]
    refine List.filter_eq_self.mpr fun s hs => ?_
    obtain ⟨c, hc, rfl⟩ := List.mem_map.mp hs
    have hne : c ≠ Symbol.start := by
      rintro rfl
      exact hnot hc
    simpa using hne
  rw [edits, hothers, Grammar.authoring, hrest, List.tail_cons]
  simp only [ofGrammar, List.map_map, Function.comp_def]

theorem toGrammar_eq_ok_iff {s : GrammarSection} {g : Grammar} :
    s.toGrammar = .ok g ↔
      s.edits.foldlM Grammar.edit Grammar.bare = .ok g ∧ g.missingPart? = none := by
  simp only [toGrammar, bind_eq_ok_iff]
  constructor
  · rintro ⟨g', hedits, hpart⟩
    split at hpart
    next => cases hpart
    next hnone =>
      obtain rfl := pure_eq_ok_iff.mp hpart
      exact ⟨hedits, hnone⟩
  · rintro ⟨hedits, hnone⟩
    refine ⟨g, hedits, ?_⟩
    rw [hnone]
    rfl

theorem buildable_of_toGrammar {s : GrammarSection} {g : Grammar} (h : s.toGrammar = .ok g) :
    g.Buildable := by
  obtain ⟨hedits, hpart⟩ := toGrammar_eq_ok_iff.mp h
  exact Grammar.buildable_of_edits hedits hpart

/-- The written form of a buildable grammar describes this grammar. -/
theorem toGrammar_ofGrammar {g : Grammar} (hg : g.Buildable) :
    (ofGrammar g).toGrammar = .ok g :=
  toGrammar_eq_ok_iff.mpr
    ⟨edits_ofGrammar hg.wellFormed ▸ Grammar.foldlM_authoring hg.wellFormed, hg.complete⟩

/-! ### What a section has to be -/

/-- The non-terminals a section lists besides the start symbol. -/
def others (s : GrammarSection) : List String :=
  s.nonTerminals.filter (· ≠ String.singleton Symbol.start)

/-- The section as it is read: the start symbol is listed once and first, and no other start
symbol is taken over. -/
def normal (s : GrammarSection) : GrammarSection :=
  { s with
    nonTerminals := String.singleton Symbol.start :: s.others
    startSymbol := String.singleton Symbol.start }

/-- Texts of one letter each, no letter twice. -/
structure DistinctLetters (isLetter : Char → Bool) (texts : List String) : Prop where
  letters : ∀ t ∈ texts, ∃ c, t = String.singleton c ∧ isLetter c = true
  nodup : texts.Nodup

/-- A written rule fits a section if its left-hand side is the start symbol or one listed
non-terminal and its right-hand side, which differs, is a non-empty text over blanks, the start
symbol and the listed symbols. -/
structure Fits (s : GrammarSection) (r : RuleSection) : Prop where
  left_listed : ∃ c, r.left = String.singleton c ∧
    (c = Symbol.start ∨ String.singleton c ∈ s.nonTerminals)
  right_ne_empty : r.right ≠ ""
  right_listed : ∀ c ∈ r.right.toList, c = Symbol.blank ∨ String.singleton c ∈ s.terminals ∨
    c = Symbol.start ∨ String.singleton c ∈ s.nonTerminals
  right_ne_left : r.right ≠ r.left

/-- The sections that describe a grammar. -/
structure WellFormed (s : GrammarSection) : Prop where
  terminals_ne_nil : s.terminals ≠ []
  terminals_letters : DistinctLetters Symbol.isTerminal s.terminals
  others_letters : DistinctLetters Symbol.isNonTerminal s.others
  rules_ne_nil : s.rules ≠ []
  rules_length : s.rules.length ≤ Grammar.maxRules
  rules_nodup : s.rules.Nodup
  rules_fit : ∀ r ∈ s.rules, s.Fits r

theorem distinctLetters_map_iff {isLetter : Char → Bool} {cs : List Char} :
    DistinctLetters isLetter (cs.map String.singleton) ↔
      cs.Nodup ∧ ∀ c ∈ cs, isLetter c = true := by
  rw [← List.nodup_map_iff singleton_injective]
  constructor
  · intro h
    refine ⟨h.nodup, fun c hc => ?_⟩
    obtain ⟨d, heq, hd⟩ := h.letters _ (List.mem_map_of_mem hc)
    exact singleton_injective heq ▸ hd
  · rintro ⟨hnodup, hletters⟩
    refine ⟨fun t ht => ?_, hnodup⟩
    obtain ⟨c, hc, rfl⟩ := List.mem_map.mp ht
    exact ⟨c, rfl, hletters c hc⟩

/-! ### The grammar a section is the written form of -/

theorem ofGrammar_eq_normal_iff : ofGrammar g = s.normal ↔
    ∃ ts ns rs, g = ⟨ts, Symbol.start :: ns, rs⟩ ∧ ts.map String.singleton = s.terminals ∧
      ns.map String.singleton = s.others ∧ rs.map RuleSection.ofRule = s.rules := by
  constructor
  · intro heq
    obtain ⟨hts, hns, -, hrs⟩ := GrammarSection.mk.inj heq
    obtain ⟨c, ns, hg, hc, hrest⟩ := List.map_eq_cons_iff.mp hns
    obtain rfl := singleton_injective hc
    exact ⟨g.terminals, ns, g.rules, by rw [← hg], hts, hrest, hrs⟩
  · rintro ⟨ts, ns, rs, rfl, hts, hns, hrs⟩
    rw [normal, ← hts, ← hns, ← hrs]
    rfl

theorem mem_terminals_iff (heq : ofGrammar g = s.normal) (c : Char) :
    c ∈ g.terminals ↔ String.singleton c ∈ s.terminals := by
  have hts : g.terminals.map String.singleton = s.terminals :=
    congrArg GrammarSection.terminals heq
  rw [← hts, List.mem_map_of_injective singleton_injective]

theorem mem_nonTerminals_iff (heq : ofGrammar g = s.normal) (c : Char) :
    c ∈ g.nonTerminals ↔ c = Symbol.start ∨ String.singleton c ∈ s.nonTerminals := by
  have hns : g.nonTerminals.map String.singleton = String.singleton Symbol.start :: s.others :=
    congrArg GrammarSection.nonTerminals heq
  rw [← List.mem_map_of_injective singleton_injective, hns]
  by_cases hc : c = Symbol.start
  · simp [hc]
  · simp [others, hc, singleton_injective.ne hc]

theorem fits_ofRule_iff (heq : ofGrammar g = s.normal) (r : Rule) :
    s.Fits (RuleSection.ofRule r) ↔ g.Admits r := by
  have hdeclared (c : Char) : (c = Symbol.blank ∨ c ∈ g.terminals ∨ c ∈ g.nonTerminals) ↔
      (c = Symbol.blank ∨ String.singleton c ∈ s.terminals ∨
        c = Symbol.start ∨ String.singleton c ∈ s.nonTerminals) := by
    rw [mem_terminals_iff heq, mem_nonTerminals_iff heq]
  have hempty : (RuleSection.ofRule r).right = "" ↔ r.right = [] := by
    rw [← String.toList_inj, RuleSection.ofRule, String.toList_ofList]
    rfl
  have htrivial : (RuleSection.ofRule r).right = (RuleSection.ofRule r).left ↔
      r.right = [r.left] := by
    rw [RuleSection.ofRule, eq_singleton_iff, String.toList_ofList]
  constructor
  · rintro ⟨⟨c, hc, hlisted⟩, hne, hright, hdiffer⟩
    obtain rfl : r.left = c := singleton_injective hc
    refine ⟨(mem_nonTerminals_iff heq _).mpr hlisted, mt hempty.mpr hne, fun d hd => ?_,
      mt htrivial.mpr hdiffer⟩
    exact (hdeclared d).mpr (hright d (by simpa [RuleSection.ofRule] using hd))
  · intro h
    refine ⟨⟨r.left, rfl, (mem_nonTerminals_iff heq _).mp h.left_mem⟩,
      mt hempty.mp h.right_ne_nil, fun d hd => ?_, mt htrivial.mp h.right_ne_left⟩
    exact (hdeclared d).mp (h.right_declared d (by simpa [RuleSection.ofRule] using hd))

/-- What is asked of a section is what authoring asks of the grammar written so. -/
theorem wellFormed_iff (heq : ofGrammar g = s.normal) :
    s.WellFormed ↔ g.WellFormed ∧ g.missingPart? = none := by
  obtain ⟨ts, ns, rs, rfl, hts, hns, hrs⟩ := ofGrammar_eq_normal_iff.mp heq
  have hstart : Symbol.start ∉ ns := by
    intro hmem
    have hother : String.singleton Symbol.start ∈ s.others :=
      hns ▸ List.mem_map_of_mem hmem
    simpa using List.of_mem_filter hother
  have hfits : (∀ r ∈ s.rules, s.Fits r) ↔
      ∀ r ∈ rs, Grammar.Admits ⟨ts, Symbol.start :: ns, rs⟩ r := by
    simp only [← hrs, List.forall_mem_map, fits_ofRule_iff heq]
  rw [Grammar.missingPart?_eq_none_iff]
  constructor
  · intro h
    obtain ⟨htsNodup, htsLetters⟩ := distinctLetters_map_iff.mp (hts ▸ h.terminals_letters)
    obtain ⟨hnsNodup, hnsLetters⟩ := distinctLetters_map_iff.mp (hns ▸ h.others_letters)
    have hwf : Grammar.WellFormed ⟨ts, Symbol.start :: ns, rs⟩ :=
      { terminals_nodup := htsNodup
        terminals_letters := htsLetters
        nonTerminals_nodup := List.nodup_cons.mpr ⟨hstart, hnsNodup⟩
        nonTerminals_letters := List.forall_mem_cons.mpr ⟨by decide, hnsLetters⟩
        start_first := rfl
        rules_admitted := hfits.mp h.rules_fit
        rules_nodup := List.Nodup.of_map _ (hrs ▸ h.rules_nodup)
        rules_length := by simpa [← hrs] using h.rules_length }
    have htsNil : ts ≠ [] := by simpa [← hts] using h.terminals_ne_nil
    have hrsNil : rs ≠ [] := by simpa [← hrs] using h.rules_ne_nil
    exact ⟨hwf, htsNil, List.mem_cons_self, hrsNil⟩
  · rintro ⟨hwf, htsNil, -, hrsNil⟩
    exact {
      terminals_ne_nil := by simpa [← hts] using htsNil
      terminals_letters :=
        hts ▸ distinctLetters_map_iff.mpr ⟨hwf.terminals_nodup, hwf.terminals_letters⟩
      others_letters := hns ▸ distinctLetters_map_iff.mpr
        ⟨(List.nodup_cons.mp hwf.nonTerminals_nodup).2,
          (List.forall_mem_cons.mp hwf.nonTerminals_letters).2⟩
      rules_ne_nil := by simpa [← hrs] using hrsNil
      rules_length := by simpa [← hrs] using hwf.rules_length
      rules_nodup := hrs ▸ hwf.rules_nodup.map RuleSection.ofRule_injective
      rules_fit := hfits.mpr hwf.rules_admitted }

theorem DistinctLetters.exists_map {isLetter : Char → Bool} {texts : List String}
    (h : DistinctLetters isLetter texts) : ∃ cs : List Char, cs.map String.singleton = texts := by
  rw [← Set.mem_range, Set.range_list_map]
  intro t ht
  obtain ⟨c, rfl, -⟩ := h.letters t ht
  exact ⟨c, rfl⟩

/-- Every well-formed section is, up to how the start symbol is listed, the written form of a
grammar. -/
theorem exists_ofGrammar_eq_normal (h : s.WellFormed) : ∃ g, ofGrammar g = s.normal := by
  have hrules : ∃ rs : List Rule, rs.map RuleSection.ofRule = s.rules := by
    rw [← Set.mem_range, Set.range_list_map]
    intro r hr
    obtain ⟨c, hc, -⟩ := (h.rules_fit r hr).left_listed
    exact ⟨⟨c, r.right.toList⟩, by rw [RuleSection.ofRule, ← hc, String.ofList_toList]⟩
  obtain ⟨ts, hts⟩ := h.terminals_letters.exists_map
  obtain ⟨ns, hns⟩ := h.others_letters.exists_map
  obtain ⟨rs, hrs⟩ := hrules
  exact ⟨_, ofGrammar_eq_normal_iff.mpr ⟨ts, ns, rs, rfl, hts, hns, hrs⟩⟩

/-! ### Reading a section -/

/-- What reading leaves is written as the section is, up to how the start symbol is listed. -/
theorem ofGrammar_of_edits (h : s.edits.foldlM Grammar.edit Grammar.bare = .ok g) :
    ofGrammar g = s.normal := by
  simp only [edits, List.foldlM_append, bind_eq_ok_iff] at h
  obtain ⟨g₂, ⟨g₁, hterminals, hothers⟩, hrules⟩ := h
  obtain ⟨ts, hts, rfl⟩ := Grammar.terminals_of_edits hterminals
  obtain ⟨ns, hns, rfl⟩ := Grammar.nonTerminals_of_edits hothers
  obtain ⟨rs, hrs, rfl⟩ := Grammar.rules_of_edits hrules
  exact ofGrammar_eq_normal_iff.mpr ⟨ts, ns, rs, rfl, hts, hns, hrs⟩

/-- A section is read by a builder that is given its edits. However long notices stay live, none
is left when the grammar is built, since every edit before was accepted. -/
theorem toGrammar_eq_build (s : GrammarSection) (window now later : Nat) :
    s.toGrammar = (Builder.empty window).submitAll now s.edits >>= (·.build later) := by
  rw [Builder.submitAll_eq (b := Builder.empty window) rfl, toGrammar, Builder.empty]
  cases s.edits.foldlM Grammar.edit Grammar.bare with
  | error cause => rfl
  | ok g =>
    show _ = Builder.build ⟨g, none, window⟩ later
    rw [Builder.build_of_quiet rfl]
    rfl

/-- A section is read as its normal form is. -/
theorem normal_toGrammar (s : GrammarSection) : s.normal.toGrammar = s.toGrammar := by
  have hedits : s.normal.edits = s.edits := by
    simp [edits, normal, others]
  rw [toGrammar, toGrammar, hedits]

/-- A section is read if and only if it is well formed, and then as the one grammar written so: with
the listed terminals and rules in their order, and with the start symbol in front of the other
non-terminals in theirs, whatever start symbol is written. -/
theorem toGrammar_exact (s : GrammarSection) :
    ((∃ g, s.toGrammar = .ok g) ↔ s.WellFormed) ∧
      ∀ g, s.toGrammar = .ok g ↔ s.WellFormed ∧ ofGrammar g = s.normal := by
  have hread (g : Grammar) : s.toGrammar = .ok g ↔ s.WellFormed ∧ ofGrammar g = s.normal := by
    constructor
    · intro h
      have heq := ofGrammar_of_edits (toGrammar_eq_ok_iff.mp h).1
      exact ⟨(wellFormed_iff heq).mpr (Grammar.buildable_iff.mp (buildable_of_toGrammar h)), heq⟩
    · rintro ⟨hwf, heq⟩
      rw [← normal_toGrammar, ← heq]
      exact toGrammar_ofGrammar (Grammar.buildable_iff.mpr ((wellFormed_iff heq).mp hwf))
  refine ⟨⟨fun ⟨g, hg⟩ => ((hread g).mp hg).1, fun hwf => ?_⟩, hread⟩
  obtain ⟨g, heq⟩ := exists_ofGrammar_eq_normal hwf
  exact ⟨g, (hread g).mpr ⟨hwf, heq⟩⟩

example : toGrammar ⟨["а"], ["A", "S", "S"], "A", [⟨"S", "а A"⟩]⟩ =
    .ok ⟨['а'], ['S', 'A'], [⟨'S', ['а', ' ', 'A']⟩]⟩ := by
  decide

/-- A grammar is read back from its written form, with its symbols and rules in the order they had,
if and only if authoring can build it: whatever was added, removed and added again on the way, from
the bare grammar or from one built earlier, and whatever was rejected. -/
theorem toGrammar_ofGrammar_iff (g : Grammar) :
    (ofGrammar g).toGrammar = .ok g ↔
      ∃ b : Builder, ∃ now : Nat, b.Reachable ∧ b.build now = .ok g :=
  ⟨buildable_of_toGrammar, toGrammar_ofGrammar⟩

end GrammarSection

end Sentential
