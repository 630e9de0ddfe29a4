import Sentential.Grammar.Builder
import Sentential.Proofs.Grammar.Edit

/-!
# Grammars that authoring can produce

A builder is reachable if it results from edits of any kind, accepted or rejected, starting from
the bare grammar or from a grammar that was itself built. Whatever such a builder holds is well
formed, and what it builds is complete besides.
-/

namespace Sentential

/-- The builders that authoring can arrive at, with any window for the notices. -/
inductive Builder.Reachable : Builder → Prop
  | empty (window : Nat) : Reachable (Builder.empty window)
  | ofGrammar {b : Builder} {now : Nat} {g : Grammar} (window : Nat) :
      Reachable b → b.build now = .ok g → Reachable (Builder.ofGrammar g window)
  | submit {b : Builder} (now : Nat) (e : Edit) : Reachable b → Reachable (b.submit now e).2
  | clear {b : Builder} : Reachable b → Reachable b.clear
  | dismiss {b : Builder} : Reachable b → Reachable b.dismiss
  | rewindow {b : Builder} (window : Nat) : Reachable b → Reachable { b with window }

/-- A grammar that some reachable builder builds. -/
def Grammar.Buildable (g : Grammar) : Prop :=
  ∃ b : Builder, ∃ now : Nat, b.Reachable ∧ b.build now = .ok g

namespace Builder

/-- Only the draft itself can be built, and only when nothing is missing from it and no rejection is
live. -/
theorem build_eq_ok_iff {b : Builder} {now : Nat} {g : Grammar} :
    b.build now = .ok g ↔ b.draft = g ∧ b.draft.missingPart? = none ∧ b.pending? now = none := by
  unfold build
  cases b.draft.missingPart? with
  | some part => simp
  | none => cases b.pending? now <;> simp

theorem eq_draft_of_build {b : Builder} {now : Nat} {g : Grammar} (h : b.build now = .ok g) :
    g = b.draft ∧ b.draft.missingPart? = none :=
  have hbuild := build_eq_ok_iff.mp h
  ⟨hbuild.1.symm, hbuild.2.1⟩

theorem submit_of_ok {b : Builder} {e : Edit} {g : Grammar} (now : Nat)
    (he : b.draft.edit e = .ok g) :
    b.submit now e = (none, { b with draft := g, rejection := none }) := by
  rw [submit, he]

theorem submit_of_error {b : Builder} {e : Edit} {cause : GrammarError} (now : Nat)
    (he : b.draft.edit e = .error cause) :
    b.submit now e = (some cause, { b with rejection := some ⟨cause, now⟩ }) := by
  rw [submit, he]

/-- A submitted edit leaves the draft that the edit makes, or the old one if it is rejected. -/
theorem submit_draft_wellFormed {b : Builder} (now : Nat) (e : Edit) (h : b.draft.WellFormed) :
    (b.submit now e).2.draft.WellFormed := by
  unfold submit
  split
  next g he => exact Grammar.edit_wellFormed h he
  next => exact h

theorem Reachable.draft_wellFormed {b : Builder} (h : b.Reachable) : b.draft.WellFormed := by
  induction h with
  | empty window => exact Grammar.bare_wellFormed
  | ofGrammar window _ hbuild ih =>
    obtain ⟨rfl, -⟩ := eq_draft_of_build hbuild
    exact ih
  | submit now e _ ih => exact submit_draft_wellFormed now e ih
  | clear _ _ => exact Grammar.bare_wellFormed
  | dismiss _ ih => exact ih
  | rewindow window _ ih => exact ih

end Builder

namespace Grammar

variable {g : Grammar}

theorem Buildable.wellFormed (h : g.Buildable) : g.WellFormed := by
  obtain ⟨b, now, hb, hbuild⟩ := h
  obtain ⟨rfl, -⟩ := Builder.eq_draft_of_build hbuild
  exact hb.draft_wellFormed

theorem Buildable.complete (h : g.Buildable) : g.missingPart? = none := by
  obtain ⟨b, now, hb, hbuild⟩ := h
  obtain ⟨rfl, hpart⟩ := Builder.eq_draft_of_build hbuild
  exact hpart

/-- Edits that are accepted one after another lead from a reachable draft to a reachable one. -/
theorem reachable_of_edits {es : List Edit} {b : Builder} (hb : b.Reachable)
    (h : es.foldlM Grammar.edit b.draft = .ok g) :
    ∃ b' : Builder, b'.Reachable ∧ b'.draft = g := by
  induction es generalizing b with
  | nil => exact ⟨b, hb, Except.ok.inj h⟩
  | cons e rest ih =>
    rw [List.foldlM_cons] at h
    obtain ⟨g₁, he, hrest⟩ := bind_eq_ok_iff.mp h
    have hnext := hb.submit 0 e
    rw [Builder.submit_of_ok 0 he] at hnext
    exact ih hnext hrest

/-- A complete grammar that accepted edits make of the bare one is buildable. -/
theorem buildable_of_edits {es : List Edit} (h : es.foldlM Grammar.edit Grammar.bare = .ok g)
    (hpart : g.missingPart? = none) : g.Buildable := by
  obtain ⟨b, hb, rfl⟩ := reachable_of_edits (Builder.Reachable.empty 0) h
  refine ⟨b.dismiss, 0, hb.dismiss, ?_⟩
  simp [Builder.build, Builder.dismiss, hpart, Builder.pending?]

theorem WellFormed.rules_length_lt (h : g.WellFormed) : g.rules.length < UInt64.size :=
  Nat.lt_of_le_of_lt h.rules_length (by decide)

/-- No rule of a well-formed grammar replaces a symbol that is not a non-terminal. -/
theorem WellFormed.ne_left (h : g.WellFormed) {c : Char} (hc : c ∉ g.nonTerminals) :
    ∀ r ∈ g.rules, c ≠ r.left := by
  rintro r hr rfl
  exact hc (h.rules_admitted r hr).left_mem

theorem WellFormed.ne_blank (h : g.WellFormed) {c : Char}
    (hc : c ∈ g.terminals ∨ c ∈ g.nonTerminals) : c ≠ Symbol.blank := by
  rintro rfl
  rcases hc with hc | hc
  · exact absurd (h.terminals_letters _ hc) (by decide)
  · exact absurd (h.nonTerminals_letters _ hc) (by decide)

/-- No letter belongs to both alphabets. -/
theorem WellFormed.disjoint (h : g.WellFormed) {c : Char} (ht : c ∈ g.terminals) :
    c ∉ g.nonTerminals := by
  intro hn
  have hother := Symbol.isNonTerminal_eq_false_of_isTerminal (h.terminals_letters c ht)
  rw [h.nonTerminals_letters c hn] at hother
  cases hother

/-- Edits that each make the grammar of one item more are accepted together. -/
theorem foldlM_edit_map {α : Type} (xs : List α) (toEdit : α → Edit) (upTo : List α → Grammar)
    (hstep : ∀ before x after, before ++ x :: after = xs →
      (upTo before).edit (toEdit x) = .ok (upTo (before ++ [x]))) :
    (xs.map toEdit).foldlM Grammar.edit (upTo []) = .ok (upTo xs) := by
  -- The items already added are a prefix of the list, which the induction extends.
  have hrest (before after : List α) (hxs : before ++ after = xs) :
      (after.map toEdit).foldlM Grammar.edit (upTo before) = .ok (upTo xs) := by
    induction after generalizing before with
    | nil =>
      rw [← hxs, List.append_nil]
      rfl
    | cons x after ih =>
      rw [List.map_cons, List.foldlM_cons, hstep before x after hxs]
      exact ih (before ++ [x]) (by simpa using hxs)
  exact hrest [] xs rfl

/-- Conversely, if each edit is accepted only as the written form of an item that it adds, then
edits that are accepted together are the written forms of the items added. -/
theorem exists_of_foldlM_edit_map {α β : Type} {toEdit : α → Edit} {write : β → α}
    (upTo : List β → Grammar)
    (hstep : ∀ before x g₁, (upTo before).edit (toEdit x) = .ok g₁ →
      ∃ y, x = write y ∧ g₁ = upTo (before ++ [y]))
    {xs : List α} {before : List β}
    (h : (xs.map toEdit).foldlM Grammar.edit (upTo before) = .ok g) :
    ∃ ys, ys.map write = xs ∧ g = upTo (before ++ ys) := by
  induction xs generalizing before with
  | nil => exact ⟨[], rfl, by simpa using (Except.ok.inj h).symm⟩
  | cons x rest ih =>
    rw [List.map_cons, List.foldlM_cons] at h
    obtain ⟨g₁, hx, hrest⟩ := bind_eq_ok_iff.mp h
    obtain ⟨y, rfl, rfl⟩ := hstep before x g₁ hx
    obtain ⟨ys, rfl, rfl⟩ := ih hrest
    exact ⟨y :: ys, rfl, by simp⟩

theorem not_mem_before {α : Type} {before after xs : List α} {x : α} (hxs : xs.Nodup)
    (heq : before ++ x :: after = xs) : x ∉ before := by
  subst heq
  intro hx
  exact (List.nodup_append.mp hxs).2.2 x hx x List.mem_cons_self rfl

theorem addTerminals_eq_ok (h : g.WellFormed) :
    (g.terminals.map fun c => Edit.addTerminal (String.singleton c)).foldlM Grammar.edit bare =
      .ok { bare with terminals := g.terminals } := by
  refine foldlM_edit_map g.terminals _ (fun cs => { bare with terminals := cs }) ?_
  intro before c after heq
  have hletter := h.terminals_letters c (heq ▸ List.mem_append_right _ List.mem_cons_self)
  exact addTerminal_eq_ok_iff.mpr
    ⟨c, String.toList_singleton c, hletter, not_mem_before h.terminals_nodup heq, rfl⟩

theorem addNonTerminals_eq_ok (h : g.WellFormed) :
    (g.nonTerminals.tail.map fun c => Edit.addNonTerminal (String.singleton c)).foldlM Grammar.edit
      { bare with terminals := g.terminals } = .ok { g with rules := [] } := by
  obtain ⟨rest, hrest⟩ := List.head?_eq_some_iff.mp h.start_first
  rw [hrest, List.tail_cons]
  have hadd := foldlM_edit_map rest (fun c => Edit.addNonTerminal (String.singleton c))
    (fun cs => ⟨g.terminals, Symbol.start :: cs, []⟩) ?_
  · exact hadd
  · intro before c after heq
    have hnodup := h.nonTerminals_nodup
    rw [hrest] at hnodup
    have hletter : Symbol.isNonTerminal c = true := by
      refine h.nonTerminals_letters c ?_
      rw [hrest, ← heq]
      simp
    have hnew : c ∉ Symbol.start :: before :=
      not_mem_before hnodup (congrArg (Symbol.start :: ·) heq)
    exact addNonTerminal_eq_ok_iff.mpr ⟨c, String.toList_singleton c, hletter, hnew, rfl⟩

theorem addRules_eq_ok (h : g.WellFormed) :
    (g.rules.map fun r => Edit.addRule (String.singleton r.left) (String.ofList r.right)).foldlM
      Grammar.edit { g with rules := [] } = .ok g := by
  refine foldlM_edit_map g.rules _ (fun rs => { g with rules := rs }) ?_
  intro before r after heq
  have hadmits := h.rules_admitted r (heq ▸ List.mem_append_right _ List.mem_cons_self)
  have hroom : before.length < maxRules := by
    have hlength := h.rules_length
    rw [← heq, List.length_append, List.length_cons] at hlength
    omega
  exact addRule_eq_ok_iff.mpr
    ⟨r, String.toList_singleton r.left, String.toList_ofList,
      hadmits.of_alphabets (fun _ hd _ => hd) (fun _ hd _ => hd),
      not_mem_before h.rules_nodup heq, hroom, rfl⟩

/-- The edits that author a grammar from the bare one, which has the start symbol already. -/
def authoring (g : Grammar) : List Edit :=
  g.terminals.map (fun c => .addTerminal (String.singleton c))
    ++ g.nonTerminals.tail.map (fun c => .addNonTerminal (String.singleton c))
    ++ g.rules.map fun r => .addRule (String.singleton r.left) (String.ofList r.right)

theorem foldlM_authoring (h : g.WellFormed) :
    g.authoring.foldlM Grammar.edit bare = .ok g := by
  simp only [authoring, List.foldlM_append, bind_eq_ok_iff]
  exact ⟨_, ⟨_, addTerminals_eq_ok h, addNonTerminals_eq_ok h⟩, addRules_eq_ok h⟩

theorem missingPart?_eq_none_iff :
    g.missingPart? = none ↔
      g.terminals ≠ [] ∧ Symbol.start ∈ g.nonTerminals ∧ g.rules ≠ [] := by
  fun_cases missingPart? <;> grind

/-- Exactly the well-formed grammars from which nothing is missing can be built. -/
theorem buildable_iff : g.Buildable ↔ g.WellFormed ∧ g.missingPart? = none :=
  ⟨fun h => ⟨h.wellFormed, h.complete⟩,
    fun ⟨hwf, hpart⟩ => buildable_of_edits (foldlM_authoring hwf) hpart⟩

/-- Authoring arrives at exactly the well-formed grammars, whichever edits are tried and whichever of
them are rejected, and it builds exactly those of them from which nothing is missing. -/
theorem authored_iff_wellFormed (g : Grammar) :
    ((∃ b : Builder, b.Reachable ∧ b.draft = g) ↔ g.WellFormed) ∧
      ((∃ b : Builder, ∃ now : Nat, b.Reachable ∧ b.build now = .ok g) ↔
        g.WellFormed ∧ g.missingPart? = none) := by
  refine ⟨⟨?_, fun hwf => ?_⟩, buildable_iff⟩
  · rintro ⟨b, hb, rfl⟩
    exact hb.draft_wellFormed
  · exact reachable_of_edits (Builder.Reachable.empty 0) (foldlM_authoring hwf)

instance (g : Grammar) (r : Rule) : Decidable (g.Admits r) :=
  decidable_of_iff (r.left ∈ g.nonTerminals ∧ r.right ≠ [] ∧
      (r.right.all fun c => c == Symbol.blank || g.declares c) = true ∧ r.right ≠ [r.left])
    ⟨fun ⟨hleft, hne, hdeclared, hdiffer⟩ =>
        ⟨hleft, hne, all_declared_iff.mp hdeclared, hdiffer⟩,
      fun h => ⟨h.left_mem, h.right_ne_nil, all_declared_iff.mpr h.right_declared,
        h.right_ne_left⟩⟩

instance (g : Grammar) : Decidable g.WellFormed :=
  decidable_of_iff (g.terminals.Nodup ∧ g.terminals.all Symbol.isTerminal = true ∧
      g.nonTerminals.Nodup ∧ g.nonTerminals.all Symbol.isNonTerminal = true ∧
      g.nonTerminals.head? = some Symbol.start ∧ (g.rules.all fun r => g.Admits r) = true ∧
      g.rules.Nodup ∧ g.rules.length ≤ maxRules)
    ⟨fun ⟨ht, htl, hn, hnl, hs, ha, hr, hl⟩ =>
        ⟨ht, List.all_eq_true.mp htl, hn, List.all_eq_true.mp hnl, hs, by simpa using ha, hr, hl⟩,
      fun h => ⟨h.terminals_nodup, List.all_eq_true.mpr h.terminals_letters,
        h.nonTerminals_nodup, List.all_eq_true.mpr h.nonTerminals_letters, h.start_first,
        by simpa using h.rules_admitted, h.rules_nodup, h.rules_length⟩⟩

instance (g : Grammar) : Decidable g.Buildable :=
  decidable_of_iff _ buildable_iff.symm

/-- A small grammar with a rule of two non-terminals and a rule for the empty word. -/
def sample : Grammar where
  terminals := ['а', 'б', 'ъ']
  nonTerminals := ['S', 'A']
  rules := [⟨'S', ['A', 'A']⟩, ⟨'A', ['а', 'A']⟩, ⟨'A', ['ъ']⟩, ⟨'S', ['б', 'A', 'б']⟩]

theorem sample_buildable : sample.Buildable := by
  decide

end Grammar

end Sentential
