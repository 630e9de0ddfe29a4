import Sentential.Display
import Sentential.Proofs.Derivation.Chain
import Sentential.Proofs.Text.Digits

/-!
# Chains are told apart by what is shown of them

A form cannot always be read off what is shown of it, since the empty word looks like the word `ъ`.
A chain can be, given the grammar. Nothing shown for a form holds the blank in front of an arrow,
nothing shown for an ordinal holds the bracket behind it, and no two ordinals are shown alike. So the
ordinals can be read off a chain, and they determine its forms.
-/

namespace Sentential

namespace Ordinal

variable {m n : Ordinal} {c : Char}

theorem label?_eq_some_iff : label? n = some c ↔ n ≠ 0 ∧ labels[n.toNat - 1]? = some c := by
  unfold label?
  split
  next hzero => simp [hzero]
  next hne => simp [hne]

theorem mem_labels_of_label? (h : label? n = some c) : c ∈ labels :=
  List.mem_of_getElem? (label?_eq_some_iff.mp h).2

/-- The ordinals without a label are zero and those past the last label. -/
theorem label?_eq_none_iff : label? n = none ↔ n = 0 ∨ labels.length < n.toNat := by
  unfold label?
  split
  next hzero => simp [hzero]
  next hne =>
    have hpos : 0 < n.toNat := toNat_pos hne
    rw [List.getElem?_eq_none_iff, or_iff_right hne]
    omega

theorem eq_of_label? (hm : label? m = some c) (hn : label? n = some c) : m = n := by
  obtain ⟨hm0, hmget⟩ := label?_eq_some_iff.mp hm
  obtain ⟨hn0, hnget⟩ := label?_eq_some_iff.mp hn
  exact eq_of_getElem? (by decide) ⟨toNat_pos hm0, hmget⟩ ⟨toNat_pos hn0, hnget⟩

end Ordinal

namespace Display

/-! ### Ordinals -/

theorem toDigits_injective : Function.Injective (Nat.toDigits 10) := by
  intro m n h
  rw [← Text.foldl_toDigits m, h, Text.foldl_toDigits]

/-- A number that is shown in digits does not look like a label, for it is zero or has two digits. -/
theorem toDigits_ne_of_label? {m n : Ordinal} {c : Char} (hm : Ordinal.label? m = some c)
    (hn : Ordinal.label? n = none) : Nat.toDigits 10 n.toNat ≠ [c] := by
  intro h
  rcases Ordinal.label?_eq_none_iff.mp hn with rfl | hlarge
  · obtain rfl : '0' = c := (List.cons.inj h).1
    exact absurd (Ordinal.mem_labels_of_label? hm) (by decide)
  · have hten : ¬ n.toNat < 10 := by
      have hlength : Ordinal.labels.length = 35 := rfl
      omega
    rw [Nat.toDigits_eq_if (by decide), if_neg hten] at h
    have hfirst : Nat.toDigits 10 (n.toNat / 10) = [] := (List.append_eq_singleton_iff.mp h).elim
      (fun h => h.1) fun h => by simp at h
    exact Nat.toDigits_ne_nil hfirst

/-- No two ordinals are shown alike, whether by label or by number. -/
theorem ordinalChars_injective : Function.Injective ordinalChars := by
  intro m n h
  unfold ordinalChars at h
  cases hm : Ordinal.label? m with
  | some c =>
    cases hn : Ordinal.label? n with
    | some c' =>
      simp only [hm, hn, List.cons.injEq, and_true] at h
      exact Ordinal.eq_of_label? hm (h ▸ hn)
    | none =>
      simp only [hm, hn] at h
      exact absurd h.symm (toDigits_ne_of_label? hm hn)
  | none =>
    cases hn : Ordinal.label? n with
    | some c =>
      simp only [hm, hn] at h
      exact absurd h (toDigits_ne_of_label? hn hm)
    | none =>
      simp only [hm, hn] at h
      exact UInt64.toNat_inj.mp (toDigits_injective h)

/-! ### Separators -/

theorem blank_ne_symbol (c : Char) : ' ' ≠ symbol wordBlank c := by
  unfold symbol
  split
  next => decide
  next =>
    split
    next => decide
    next hne => exact Ne.symm hne

/-- Blanks inside a form are shown by another character. -/
theorem blank_not_mem_formChars (w : Word) : ' ' ∉ formChars w := by
  unfold formChars
  split
  next => decide
  next =>
    intro h
    obtain ⟨c, -, hc⟩ := List.mem_map.mp h
    exact blank_ne_symbol c hc.symm

theorem bracket_not_mem_ordinalChars (n : Ordinal) : ')' ∉ ordinalChars n := by
  unfold ordinalChars
  split
  next c hc =>
    intro h
    obtain rfl := List.mem_singleton.mp h
    exact absurd (Ordinal.mem_labels_of_label? hc) (by decide)
  next =>
    intro h
    exact absurd (Text.isDigit_of_mem_toDigits _ h) (by decide)

/-! ### Chains -/

/-- What is shown of some moves, each with its arrow in front. -/
def moveChars (ms : List Move) : List Char :=
  ms.flatMap fun m => stepChars m.toStep

theorem moveChars_cons (m : Move) (ms : List Move) : moveChars (m :: ms) =
    ' ' :: arrow :: '(' :: (ordinalChars m.ordinal ++ ')' :: ' ' ::
      (formChars m.form ++ moveChars ms)) := by
  simp [moveChars, stepChars, Move.toStep]

/-- A form alone is not shown like one with moves behind it, which would bring a blank into the form. -/
theorem formChars_ne_append (w w' : Word) (m : Move) (ms : List Move) :
    formChars w ≠ formChars w' ++ moveChars (m :: ms) := by
  intro h
  refine blank_not_mem_formChars w ?_
  rw [h, moveChars_cons]
  simp

/-- The ordinals of some moves can be read off what is shown of them behind any form. -/
theorem ordinals_eq_of_chars {ms ns : List Move} {w w' : Word}
    (h : formChars w ++ moveChars ms = formChars w' ++ moveChars ns) :
    ms.map Move.ordinal = ns.map Move.ordinal := by
  induction ms generalizing w w' ns with
  | nil =>
    cases ns with
    | nil => rfl
    | cons n ns => exact absurd (by simpa [moveChars] using h) (formChars_ne_append w w' n ns)
  | cons m ms ih =>
    cases ns with
    | nil => exact absurd (by simpa [moveChars] using h.symm) (formChars_ne_append w' w m ms)
    | cons n ns =>
      rw [moveChars_cons, moveChars_cons, append_cons_eq_iff (blank_not_mem_formChars w)
        (blank_not_mem_formChars w')] at h
      have hlabels := (List.cons.inj (List.cons.inj h.2).2).2
      rw [append_cons_eq_iff (bracket_not_mem_ordinalChars m.ordinal)
        (bracket_not_mem_ordinalChars n.ordinal)] at hlabels
      obtain ⟨hordinal, hrest⟩ := hlabels
      rw [List.map_cons, List.map_cons, ordinalChars_injective hordinal,
        ih (List.cons.inj hrest).2]

theorem chain_steps (d : Derivation) :
    chain d.steps = String.ofList (formChars [Symbol.start] ++ moveChars d.moves.reverse) := by
  rw [chain, Derivation.steps, List.flatMap_cons, List.flatMap_map]
  rfl

/-- The stack of ordinals can be read off the chain that is shown, whatever the forms. -/
theorem stack_eq_of_chain_eq {d d' : Derivation} (h : chain d.steps = chain d'.steps) :
    d.stack = d'.stack := by
  rw [chain_steps, chain_steps, String.ofList_inj] at h
  have hordinals := ordinals_eq_of_chars h
  rwa [List.map_reverse, List.map_reverse, List.reverse_inj] at hordinals

end Display

namespace Derivation

variable {g : Grammar} {d d' : Derivation}

/-- Derivations that follow are the same if they apply the same rules in the same order. -/
theorem Follows.eq_of_stack_eq (hd : d.Follows g) (hd' : d'.Follows g) (h : d.stack = d'.stack) :
    d = d' := by
  have hsteps : some d.steps = some d'.steps := by
    rw [← hd.chainOf?_stack, h, hd'.chainOf?_stack]
  have hreplay := hd.replay_steps
  rw [Option.some.inj hsteps, hd'.replay_steps] at hreplay
  exact (Except.ok.inj hreplay).symm

/-- Stored chains that replay are shown alike only if they are the same, with the same forms and the
same ordinals. This holds of every grammar, though the empty word is shown like the word `ъ` and the
ordinals past the last label are shown in digits. -/
theorem chain_eq_iff_of_replay {steps steps' : List Step} (h : replay g steps = .ok d)
    (h' : replay g steps' = .ok d') :
    (Display.chain steps = Display.chain steps' ↔ steps = steps') ∧
      (Display.chain steps = Display.chain steps' ↔ d = d') := by
  obtain ⟨hd, rfl⟩ := replay_eq_ok_iff.mp h
  obtain ⟨hd', rfl⟩ := replay_eq_ok_iff.mp h'
  have heq (hchain : Display.chain d.steps = Display.chain d'.steps) : d = d' :=
    hd.eq_of_stack_eq hd' (Display.stack_eq_of_chain_eq hchain)
  exact ⟨⟨fun hchain => congrArg steps (heq hchain), congrArg Display.chain⟩,
    ⟨heq, fun hsame => congrArg (fun d => Display.chain d.steps) hsame⟩⟩

/-- A grammar that derives the empty word and also the word `ъ`. -/
def emptyAndSign : Grammar where
  terminals := ['ъ']
  nonTerminals := ['S', 'A']
  rules := [⟨'S', ['ъ', 'A']⟩, ⟨'S', ['A']⟩, ⟨'A', ['ъ']⟩]

/-- Its two words are shown alike, but not the chains that lead to them. -/
theorem chain_eq_iff_of_replay_emptyAndSign :
    ∃ steps steps' d d', replay emptyAndSign steps = .ok d ∧ replay emptyAndSign steps' = .ok d' ∧
      d.current = [] ∧ d'.current = ['ъ'] ∧ Display.form d.current = Display.form d'.current ∧
      Display.chain steps ≠ Display.chain steps' := by
  let steps : List Step := [⟨['S'], none⟩, ⟨['A'], some 2⟩, ⟨[], some 3⟩]
  let steps' : List Step := [⟨['S'], none⟩, ⟨['ъ', 'A'], some 1⟩, ⟨['ъ'], some 3⟩]
  have hreplay : replay emptyAndSign steps = .ok ⟨[⟨3, []⟩, ⟨2, ['A']⟩]⟩ := rfl
  have hreplay' : replay emptyAndSign steps' = .ok ⟨[⟨3, ['ъ']⟩, ⟨1, ['ъ', 'A']⟩]⟩ := rfl
  refine ⟨steps, steps', _, _, hreplay, hreplay', rfl, rfl, rfl, fun hchain => ?_⟩
  exact absurd ((chain_eq_iff_of_replay hreplay hreplay').1.mp hchain) (by decide)

end Derivation

end Sentential
