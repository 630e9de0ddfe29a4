import Mathlib.Data.List.Nodup
import Sentential.Proofs.Grammar.Building

/-!
# Validation is exact

An edit asks for a candidate, and what stands in its way is nothing but the invariants: it is accepted
exactly if there is such a candidate and the candidate satisfies them all. The candidate is described
here by what is in it, apart from the checks that edits make one after another.
-/

namespace Sentential

/-- The candidates that an edit asks for. A symbol to be added and the left-hand side of a rule have to
be one character. What is added comes last; what is removed has to be there, and all else stays in
order. -/
inductive Edit.Makes (g : Grammar) : Edit → Grammar → Prop
  | addTerminal {input : String} {c : Char} : input.toList = [c] →
      Makes g (.addTerminal input) { g with terminals := g.terminals ++ [c] }
  | addNonTerminal {input : String} {c : Char} : input.toList = [c] →
      Makes g (.addNonTerminal input) { g with nonTerminals := g.nonTerminals ++ [c] }
  | removeTerminal {c : Char} {before after : List Char} : g.terminals = before ++ c :: after →
      Makes g (.removeTerminal c) { g with terminals := before ++ after }
  | removeNonTerminal {c : Char} {before after : List Char} :
      g.nonTerminals = before ++ c :: after →
      Makes g (.removeNonTerminal c) { g with nonTerminals := before ++ after }
  | addRule {left right : String} {r : Rule} : left.toList = [r.left] → right.toList = r.right →
      Makes g (.addRule left right) { g with rules := g.rules ++ [r] }
  | removeRule {n : Ordinal} {before after : List Rule} {r : Rule} :
      g.rules = before ++ r :: after → n.toNat = before.length + 1 →
      Makes g (.removeRule n) { g with rules := before ++ after }

/-- The invariants of a grammar under construction, whichever place the start symbol has among the
non-terminals. -/
structure Grammar.Lawful (g : Grammar) : Prop where
  terminals_nodup : g.terminals.Nodup
  terminals_letters : ∀ c ∈ g.terminals, Symbol.isTerminal c = true
  nonTerminals_nodup : g.nonTerminals.Nodup
  nonTerminals_letters : ∀ c ∈ g.nonTerminals, Symbol.isNonTerminal c = true
  start_mem : Symbol.start ∈ g.nonTerminals
  rules_admitted : ∀ r ∈ g.rules, g.Admits r
  rules_nodup : g.rules.Nodup
  rules_length : g.rules.length ≤ Grammar.maxRules

namespace Grammar

variable {g g' : Grammar} {e : Edit}

theorem WellFormed.lawful (h : g.WellFormed) : g.Lawful :=
  { h with start_mem := List.mem_of_mem_head? h.start_first }

/-- No rule mentions a character other than a blank that neither alphabet lists. -/
theorem Lawful.mentions_eq_false (h : g.Lawful) {c : Char} (hblank : c ≠ Symbol.blank)
    (ht : c ∉ g.terminals) (hn : c ∉ g.nonTerminals) : ∀ r ∈ g.rules, r.mentions c = false := by
  intro r hr
  have hadmits := h.rules_admitted r hr
  have hleft : r.left ≠ c := fun heq => hn (heq ▸ hadmits.left_mem)
  have hright : c ∉ r.right := by
    intro hc
    rcases hadmits.right_declared c hc with hc | hc | hc
    · exact hblank hc
    · exact ht hc
    · exact hn hc
  simp [Rule.mentions, hleft, hright]

theorem not_mem_of_nodup_append {α : Type} {xs : List α} {x : α} (h : (xs ++ [x]).Nodup) :
    x ∉ xs := by
  intro hx
  exact (List.nodup_append.mp h).2.2 x hx x List.mem_cons_self rfl

/-! ### Removals -/

section Removals

variable {c : Char} {alphabet before after : List Char}

/-- Erasing a letter from an alphabet takes out its only occurrence. -/
theorem erase_of_split (hn : alphabet.Nodup) (hsplit : alphabet = before ++ c :: after) :
    c ∉ before ++ after ∧ alphabet.erase c = before ++ after := by
  rw [hsplit] at hn ⊢
  have hnot := (List.nodup_cons.mp (List.nodup_middle.mp hn)).1
  have hbefore : c ∉ before := fun hc => hnot (List.mem_append_left after hc)
  exact ⟨hnot, by rw [List.erase_append_right _ hbefore, List.erase_cons_head]⟩

theorem eraseIdx_of_split {α : Type} (before after : List α) (x : α) :
    (before ++ x :: after).eraseIdx before.length = before ++ after := by
  rw [List.eraseIdx_append_of_length_le (Nat.le_refl _), Nat.sub_self, List.eraseIdx_cons_zero]

theorem removeTerminal_of_split (hwf : g.WellFormed) (hsplit : g.terminals = before ++ c :: after)
    (h : Lawful { g with terminals := before ++ after }) :
    g.removeTerminal c = .ok { g with terminals := before ++ after } := by
  have hmem : c ∈ g.terminals := by simp [hsplit]
  obtain ⟨hnot, herase⟩ := erase_of_split hwf.terminals_nodup hsplit
  have hunused := h.mentions_eq_false (hwf.ne_blank (.inl hmem)) hnot (hwf.disjoint hmem)
  exact removeTerminal_eq_ok_iff.mpr ⟨hmem, hunused, by rw [herase]⟩

theorem removeNonTerminal_of_split (hwf : g.WellFormed)
    (hsplit : g.nonTerminals = before ++ c :: after)
    (h : Lawful { g with nonTerminals := before ++ after }) :
    g.removeNonTerminal c = .ok { g with nonTerminals := before ++ after } := by
  have hmem : c ∈ g.nonTerminals := by simp [hsplit]
  obtain ⟨hnot, herase⟩ := erase_of_split hwf.nonTerminals_nodup hsplit
  have hstart : c ≠ Symbol.start := fun heq => hnot (heq ▸ h.start_mem)
  have hunused := h.mentions_eq_false (hwf.ne_blank (.inr hmem))
    (fun ht => hwf.disjoint ht hmem) hnot
  exact removeNonTerminal_eq_ok_iff.mpr ⟨hstart, hmem, hunused, by rw [herase]⟩

end Removals

/-! ### Edits -/

/-- What an accepted edit leaves is a candidate that it asks for. -/
theorem makes_of_edit (hwf : g.WellFormed) (he : g.edit e = .ok g') : e.Makes g g' := by
  cases e with
  | addTerminal input =>
    obtain ⟨c, hc, -, -, rfl⟩ := addTerminal_eq_ok_iff.mp he
    exact .addTerminal hc
  | addNonTerminal input =>
    obtain ⟨c, hc, -, -, rfl⟩ := addNonTerminal_eq_ok_iff.mp he
    exact .addNonTerminal hc
  | removeTerminal c =>
    obtain ⟨hc, -, rfl⟩ := removeTerminal_eq_ok_iff.mp he
    obtain ⟨before, after, hsplit⟩ := List.append_of_mem hc
    rw [(erase_of_split hwf.terminals_nodup hsplit).2]
    exact .removeTerminal hsplit
  | removeNonTerminal c =>
    obtain ⟨-, hc, -, rfl⟩ := removeNonTerminal_eq_ok_iff.mp he
    obtain ⟨before, after, hsplit⟩ := List.append_of_mem hc
    rw [(erase_of_split hwf.nonTerminals_nodup hsplit).2]
    exact .removeNonTerminal hsplit
  | addRule left right =>
    obtain ⟨r, hleft, hright, -, -, -, rfl⟩ := addRule_eq_ok_iff.mp he
    exact .addRule hleft hright
  | removeRule n =>
    obtain ⟨hpos, hle, rfl⟩ := removeRule_eq_ok_iff.mp he
    have hlt : n.toNat - 1 < g.rules.length := by omega
    have hsplit : g.rules = g.rules.take (n.toNat - 1) ++ g.rules[n.toNat - 1] ::
        g.rules.drop (n.toNat - 1 + 1) := by
      rw [List.getElem_cons_drop, List.take_append_drop]
    rw [List.eraseIdx_eq_take_drop_succ]
    exact .removeRule hsplit (by rw [List.length_take]; omega)

/-- A candidate that satisfies the invariants is accepted. -/
theorem edit_of_makes (hwf : g.WellFormed) (hmakes : e.Makes g g') (h : g'.Lawful) :
    g.edit e = .ok g' := by
  cases hmakes with
  | @addTerminal input c hinput =>
    exact addTerminal_eq_ok_iff.mpr ⟨c, hinput, h.terminals_letters c (by simp),
      not_mem_of_nodup_append h.terminals_nodup, rfl⟩
  | @addNonTerminal input c hinput =>
    exact addNonTerminal_eq_ok_iff.mpr ⟨c, hinput, h.nonTerminals_letters c (by simp),
      not_mem_of_nodup_append h.nonTerminals_nodup, rfl⟩
  | removeTerminal hsplit => exact removeTerminal_of_split hwf hsplit h
  | removeNonTerminal hsplit => exact removeNonTerminal_of_split hwf hsplit h
  | @addRule left right r hleft hright =>
    have hadmits : g.Admits r := (h.rules_admitted r (by simp)).of_alphabets (fun _ hc _ => hc)
      fun _ hc _ => hc
    have hroom := h.rules_length
    rw [List.length_append, List.length_singleton] at hroom
    exact addRule_eq_ok_iff.mpr ⟨r, hleft, hright, hadmits,
      not_mem_of_nodup_append h.rules_nodup, hroom, rfl⟩
  | @removeRule n before after r hsplit hn =>
    refine removeRule_eq_ok_iff.mpr ⟨by omega, ?_, ?_⟩
    · rw [hsplit, List.length_append, List.length_cons]
      omega
    · rw [hsplit, hn, Nat.add_sub_cancel, eraseIdx_of_split]

/-- An edit of a well-formed grammar is accepted exactly for the candidates that satisfy the
invariants. -/
theorem edit_eq_ok_iff (hwf : g.WellFormed) : g.edit e = .ok g' ↔ e.Makes g g' ∧ g'.Lawful :=
  ⟨fun he => ⟨makes_of_edit hwf he, (edit_wellFormed hwf he).lawful⟩,
    fun ⟨hmakes, h⟩ => edit_of_makes hwf hmakes h⟩

/-- An edit asks for at most one candidate. -/
theorem eq_of_makes (hwf : g.WellFormed) {g₁ g₂ : Grammar} (h₁ : e.Makes g g₁)
    (h₂ : e.Makes g g₂) : g₁ = g₂ := by
  cases h₁ with
  | addTerminal hinput =>
    cases h₂ with
    | addTerminal hinput' =>
      obtain ⟨rfl, -⟩ := List.cons.inj (hinput.symm.trans hinput')
      rfl
  | addNonTerminal hinput =>
    cases h₂ with
    | addNonTerminal hinput' =>
      obtain ⟨rfl, -⟩ := List.cons.inj (hinput.symm.trans hinput')
      rfl
  | removeTerminal hsplit =>
    cases h₂ with
    | removeTerminal hsplit' =>
      rw [← (erase_of_split hwf.terminals_nodup hsplit).2,
        (erase_of_split hwf.terminals_nodup hsplit').2]
  | removeNonTerminal hsplit =>
    cases h₂ with
    | removeNonTerminal hsplit' =>
      rw [← (erase_of_split hwf.nonTerminals_nodup hsplit).2,
        (erase_of_split hwf.nonTerminals_nodup hsplit').2]
  | @addRule left right r hleft hright =>
    cases h₂ with
    | @addRule _ _ r' hleft' hright' =>
      obtain ⟨l, w⟩ := r
      obtain ⟨l', w'⟩ := r'
      obtain ⟨rfl, -⟩ := List.cons.inj (hleft.symm.trans hleft')
      obtain rfl : w = w' := hright.symm.trans hright'
      rfl
  | removeRule hsplit hn =>
    cases h₂ with
    | removeRule hsplit' hn' =>
      have hlength := Nat.succ.inj (hn.symm.trans hn')
      obtain ⟨rfl, hrest⟩ := List.append_inj (hsplit.symm.trans hsplit') hlength
      rw [(List.cons.inj hrest).2]

end Grammar

namespace Builder

/-- An edit is accepted exactly if it asks for a candidate that satisfies the invariants, and then the
draft is this candidate from there on. -/
theorem submit_accepts_iff {b : Builder} (hb : b.Reachable) (now : Nat) (e : Edit) :
    ((b.submit now e).1 = none ↔ ∃ g, e.Makes b.draft g ∧ g.Lawful) ∧
      ((b.submit now e).1 = none → ∀ g, e.Makes b.draft g ↔ g = (b.submit now e).2.draft) := by
  have hwf := hb.draft_wellFormed
  cases he : b.draft.edit e with
  | ok g =>
    rw [submit_of_ok now he]
    obtain ⟨hmakes, h⟩ := (Grammar.edit_eq_ok_iff hwf).mp he
    refine ⟨iff_of_true rfl ⟨g, hmakes, h⟩, ?_⟩
    intro _ g'
    constructor
    · exact fun hmakes' => Grammar.eq_of_makes hwf hmakes' hmakes
    · rintro rfl
      exact hmakes
  | error cause =>
    rw [submit_of_error now he]
    refine ⟨iff_of_false (by simp) ?_, by simp⟩
    rintro ⟨g, hmakes, h⟩
    rw [(Grammar.edit_eq_ok_iff hwf).mpr ⟨hmakes, h⟩] at he
    cases he

/-- From the small grammar the terminal `ъ` cannot be removed, but a rule with a blank can be added. -/
theorem submit_accepts_iff_sample :
    ∃ b : Builder, b.Reachable ∧ b.draft = Grammar.sample ∧
      (¬ ∃ g, (Edit.removeTerminal 'ъ').Makes b.draft g ∧ g.Lawful) ∧
      (Edit.addRule "A" "а б").Makes b.draft (b.submit 0 (.addRule "A" "а б")).2.draft := by
  obtain ⟨b, now, hb, hbuild⟩ := Grammar.sample_buildable
  obtain ⟨hdraft, -⟩ := eq_draft_of_build hbuild
  have hrejected : b.draft.edit (.removeTerminal 'ъ') = .error (.symbolInUse 'ъ') := by
    rw [← hdraft]
    rfl
  have haccepted : b.draft.edit (.addRule "A" "а б") =
      .ok { Grammar.sample with rules := Grammar.sample.rules ++ [⟨'A', ['а', ' ', 'б']⟩] } := by
    rw [← hdraft]
    rfl
  refine ⟨b, hb, hdraft.symm, fun hlawful => ?_, ?_⟩
  · have hnone := (submit_accepts_iff hb 0 _).1.mpr hlawful
    rw [submit_of_error 0 hrejected] at hnone
    cases hnone
  · exact ((submit_accepts_iff hb 0 _).2 (by rw [submit_of_ok 0 haccepted]) _).mpr rfl

end Builder

end Sentential
