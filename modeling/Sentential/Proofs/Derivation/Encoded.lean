import Mathlib.Logic.ExistsUnique
import Sentential.Proofs.Derivation.Leftmost
import Sentential.Proofs.Text.Utf8
import Sentential.Rule.Encoded

/-!
# Rewriting bytes is rewriting symbols

The bytes of a character are found in a text only where the character stands, for its first byte
continues no character and its encoding is the start of no other. So the search by bytes finds the
leftmost occurrence of a symbol, both cuts lie between characters, and the room set aside is exactly what
the rewritten form takes.
-/

namespace Sentential

open Fingerprint

namespace Encoded

theorem isContinuation_iff {b : UInt8} : isContinuation b = true ↔ 128 ≤ b.toNat ∧ b.toNat < 192 := by
  simp only [isContinuation, Bool.and_eq_true, decide_eq_true_eq, UInt8.le_iff_toNat_le,
    UInt8.lt_iff_toNat_lt]
  exact Iff.rfl

/-- Only the first byte of a character does not continue one. -/
theorem exists_utf8EncodeChar (c : Char) : ∃ b more, String.utf8EncodeChar c = b :: more ∧
    isContinuation b = false ∧ ∀ x ∈ more, isContinuation x = true := by
  have hlead {n : Nat} (h : n % 256 < 128 ∨ 192 ≤ n % 256) : isContinuation (UInt8.ofNat n) = false := by
    rw [Bool.eq_false_iff, ne_eq, isContinuation_iff, UInt8.toNat_ofNat']
    omega
  have hrest (n : Nat) : isContinuation (UInt8.ofNat (n % 64 + 128)) = true := by
    rw [isContinuation_iff, UInt8.toNat_ofNat']
    omega
  fun_cases String.utf8EncodeChar c with
  | _ =>
    refine ⟨_, _, rfl, hlead (by omega), ?_⟩
    simp only [List.forall_mem_cons, hrest, List.not_mem_nil, false_imp_iff, implies_true, and_self]

/-! ### Cuts -/

theorem isBoundary_length (front back : Word) :
    isBoundary (utf8 front ++ utf8 back) (utf8 front).length = true := by
  unfold isBoundary
  cases back with
  | nil => simp [utf8_nil]
  | cons c rest =>
    obtain ⟨b, more, hc, hb, -⟩ := exists_utf8EncodeChar c
    rw [utf8_cons, hc]
    simp [hb]

theorem cutBefore_utf8 (front back : Word) :
    cutBefore (utf8 front ++ utf8 back) (utf8 front).length = .ok (utf8 front) := by
  rw [cutBefore, if_pos (isBoundary_length front back), List.take_left]

theorem cutBehind_utf8 (front back : Word) :
    cutBehind (utf8 front ++ utf8 back) (utf8 front).length = .ok (utf8 back) := by
  rw [cutBehind, if_pos (isBoundary_length front back), List.drop_left]

/-! ### Searching -/

theorem isPrefixOf_utf8_iff {c d : Char} {rest : List UInt8} :
    (String.utf8EncodeChar c).isPrefixOf (String.utf8EncodeChar d ++ rest) = true ↔ c = d := by
  rw [List.isPrefixOf_iff_prefix]
  constructor
  · rintro ⟨after, h⟩
    exact (utf8EncodeChar_append_inj h).1
  · rintro rfl
    exact List.prefix_append _ _

/-- Bytes that start like a character are not found inside another. -/
theorem offsetOf?_continuation {b : UInt8} {more front : List UInt8} (hb : isContinuation b = false)
    (hfront : ∀ x ∈ front, isContinuation x = true) (text : List UInt8) :
    offsetOf? (b :: more) (front ++ text) =
      (offsetOf? (b :: more) text).map (· + front.length) := by
  induction front with
  | nil => simp
  | cons x rest ih =>
    obtain ⟨hx, hrest⟩ := List.forall_mem_cons.mp hfront
    have hne : (b == x) = false := by
      rw [beq_eq_false_iff_ne]
      rintro rfl
      rw [hb] at hx
      cases hx
    rw [List.cons_append, offsetOf?, List.isPrefixOf_cons_cons, hne, Bool.false_and, if_neg (by simp),
      ih hrest, Option.map_map]
    rfl

theorem offsetOf?_utf8_cons_self (c : Char) (rest : List UInt8) :
    offsetOf? (String.utf8EncodeChar c) (String.utf8EncodeChar c ++ rest) = some 0 := by
  have hprefix : (String.utf8EncodeChar c).isPrefixOf (String.utf8EncodeChar c ++ rest) = true :=
    isPrefixOf_utf8_iff.mpr rfl
  obtain ⟨b, more, hc, -, -⟩ := exists_utf8EncodeChar c
  rw [hc, List.cons_append] at hprefix ⊢
  rw [offsetOf?, if_pos hprefix]

/-- The search for a character passes over others as a whole. -/
theorem offsetOf?_utf8_cons_of_ne {c d : Char} (hne : c ≠ d) (rest : List UInt8) :
    offsetOf? (String.utf8EncodeChar c) (String.utf8EncodeChar d ++ rest) =
      (offsetOf? (String.utf8EncodeChar c) rest).map (· + (String.utf8EncodeChar d).length) := by
  have hprefix : ¬ (String.utf8EncodeChar c).isPrefixOf (String.utf8EncodeChar d ++ rest) = true :=
    fun h => hne (isPrefixOf_utf8_iff.mp h)
  obtain ⟨b, more, hc, hb, -⟩ := exists_utf8EncodeChar c
  obtain ⟨x, others, hd, -, hothers⟩ := exists_utf8EncodeChar d
  rw [hc, hd, List.cons_append] at hprefix ⊢
  rw [offsetOf?, if_neg hprefix, offsetOf?_continuation hb hothers, Option.map_map]
  rfl

/-- The search for a character passes over everything in front of its first occurrence. -/
theorem offsetOf?_utf8_append {c : Char} {front : Word} (hfront : c ∉ front) (rest : List UInt8) :
    offsetOf? (String.utf8EncodeChar c) (utf8 front ++ rest) =
      (offsetOf? (String.utf8EncodeChar c) rest).map (· + (utf8 front).length) := by
  induction front with
  | nil => simp [utf8_nil]
  | cons d more ih =>
    obtain ⟨hne, hmore⟩ := not_or.mp fun hmem => hfront (List.mem_cons.mpr hmem)
    rw [utf8_cons, List.append_assoc, offsetOf?_utf8_cons_of_ne hne, ih hmore, Option.map_map,
      List.length_append]
    congr 1
    funext offset
    simp only [Function.comp_apply]
    omega

theorem offsetOf?_eq_none {c : Char} {form : Word} (h : c ∉ form) :
    offsetOf? (String.utf8EncodeChar c) (utf8 form) = none := by
  rw [← List.append_nil (utf8 form), offsetOf?_utf8_append h]
  rfl

theorem offsetOf?_eq_some {c : Char} {front : Word} (h : c ∉ front) (back : Word) :
    offsetOf? (String.utf8EncodeChar c) (utf8 (front ++ c :: back)) = some (utf8 front).length := by
  rw [utf8_append, utf8_cons, offsetOf?_utf8_append h, offsetOf?_utf8_cons_self, Option.map_some,
    Nat.zero_add]

end Encoded

namespace Rule

open Encoded

/-- A form and what stands in it in front of the leftmost occurrence of the left-hand symbol and behind
it. -/
structure Splits (r : Rule) (form front back : Word) : Prop where
  form_eq : form = front ++ r.left :: back
  leftmost : r.left ∉ front

variable {r : Rule} {form front back : Word}

theorem exists_splits (h : r.left ∈ form) : ∃ front back, r.Splits form front back := by
  obtain ⟨front, back, hform, hfront⟩ := List.eq_append_cons_of_mem h
  exact ⟨front, back, hform, hfront⟩

namespace Splits

theorem mem (h : r.Splits form front back) : r.left ∈ form := by
  rw [h.form_eq]
  exact List.mem_append_right _ List.mem_cons_self

theorem unique {front' back' : Word} (h : r.Splits form front back)
    (h' : r.Splits form front' back') : front' = front ∧ back' = back :=
  (append_cons_eq_iff h'.leftmost h.leftmost).mp (h'.form_eq.symm.trans h.form_eq)

theorem applyLeftmost?_eq (h : r.Splits form front back) :
    r.applyLeftmost? form = some (front ++ r.replacement ++ back) := by
  rw [h.form_eq, applyLeftmost?_append_cons h.leftmost]

theorem offsetOf?_eq (h : r.Splits form front back) :
    offsetOf? (String.utf8EncodeChar r.left) (utf8 form) = some (utf8 front).length := by
  rw [h.form_eq, offsetOf?_eq_some h.leftmost]

/-- The offset behind the symbol is that of what follows it. -/
theorem stop_eq (front : Word) (c : Char) :
    (utf8 front).length + (String.utf8EncodeChar c).length = (utf8 (front ++ [c])).length := by
  rw [utf8_append, utf8_cons, utf8_nil, List.append_nil, List.length_append]

theorem utf8_eq (h : r.Splits form front back) :
    utf8 form = utf8 (front ++ [r.left]) ++ utf8 back := by
  rw [h.form_eq, ← utf8_append, List.append_assoc, List.singleton_append]

theorem cutBefore_eq (h : r.Splits form front back) :
    cutBefore (utf8 form) (utf8 front).length = .ok (utf8 front) := by
  rw [h.form_eq, utf8_append, cutBefore_utf8]

theorem cutBehind_eq (h : r.Splits form front back) :
    cutBehind (utf8 form) ((utf8 front).length + (String.utf8EncodeChar r.left).length) =
      .ok (utf8 back) := by
  rw [stop_eq, h.utf8_eq, cutBehind_utf8]

/-- No fault occurs, and the room is just what the rewritten form takes. -/
theorem rewriteEncoded?_eq (h : r.Splits form front back) :
    r.rewriteEncoded? (utf8 form) =
      .ok (some ⟨(utf8 (front ++ r.replacement ++ back)).length,
        utf8 (front ++ r.replacement ++ back)⟩) := by
  have hlength : (utf8 form).length =
      (utf8 front).length + (String.utf8EncodeChar r.left).length + (utf8 back).length := by
    rw [stop_eq, h.utf8_eq, List.length_append]
  rw [rewriteEncoded?, h.offsetOf?_eq]
  dsimp only
  rw [if_neg (by omega), h.cutBefore_eq, h.cutBehind_eq]
  refine congrArg (fun buffer => Except.ok (some buffer)) ?_
  rw [Buffer.mk.injEq, utf8_append, utf8_append, List.length_append, List.length_append]
  exact ⟨by omega, rfl⟩

end Splits

theorem mem_iff_existsUnique_splits :
    r.left ∈ form ↔ ∃! split : Word × Word, r.Splits form split.1 split.2 := by
  constructor
  · intro hmem
    obtain ⟨front, back, h⟩ := exists_splits hmem
    exact ⟨(front, back), h, fun split hsplit => Prod.ext_iff.mpr (h.unique hsplit)⟩
  · rintro ⟨split, h, -⟩
    exact h.mem

theorem applyLeftmost?_eq_some_iff_splits {next : Word} :
    r.applyLeftmost? form = some next ↔
      ∃ front back, r.Splits form front back ∧ next = front ++ r.replacement ++ back := by
  rw [applyLeftmost?_eq_some_iff]
  constructor
  · rintro ⟨front, back, hform, hfront, hnext⟩
    exact ⟨front, back, ⟨hform, hfront⟩, hnext⟩
  · rintro ⟨front, back, h, hnext⟩
    exact ⟨front, back, h.form_eq, h.leftmost, hnext⟩

/-- The offset that is found, and the one behind the symbol, are lengths of encoded characters. -/
theorem offsetOf?_eq_some_iff_splits {start : Nat} :
    offsetOf? (String.utf8EncodeChar r.left) (utf8 form) = some start ↔
      ∃ front back, r.Splits form front back ∧ start = (utf8 front).length ∧
        start + (String.utf8EncodeChar r.left).length = (utf8 (front ++ [r.left])).length := by
  constructor
  · intro hstart
    by_cases hmem : r.left ∈ form
    · obtain ⟨front, back, h⟩ := exists_splits hmem
      obtain rfl := Option.some.inj (h.offsetOf?_eq.symm.trans hstart)
      exact ⟨front, back, h, rfl, Splits.stop_eq front r.left⟩
    · rw [offsetOf?_eq_none hmem] at hstart
      cases hstart
  · rintro ⟨front, back, h, rfl, -⟩
    exact h.offsetOf?_eq

theorem rewriteEncoded?_eq (r : Rule) (form : Word) :
    r.rewriteEncoded? (utf8 form) =
      .ok ((r.applyLeftmost? form).map fun next => ⟨(utf8 next).length, utf8 next⟩) := by
  by_cases hmem : r.left ∈ form
  · obtain ⟨front, back, h⟩ := exists_splits hmem
    rw [h.rewriteEncoded?_eq, h.applyLeftmost?_eq]
    rfl
  · rw [rewriteEncoded?, offsetOf?_eq_none hmem, applyLeftmost?_eq_none_iff.mpr hmem]
    rfl

/-- Rewriting the bytes of a form never fails and gives the bytes of the form with its leftmost
occurrence of the symbol replaced, in a buffer of their size. The form splits there in one way, and both
offsets are those of the characters around that occurrence. -/
theorem rewriteEncoded?_exact (r : Rule) (form : Word) :
    r.rewriteEncoded? (utf8 form) =
        .ok ((r.applyLeftmost? form).map fun next => ⟨(utf8 next).length, utf8 next⟩) ∧
      (∀ next, r.applyLeftmost? form = some next ↔
        ∃ front back, r.Splits form front back ∧ next = front ++ r.replacement ++ back) ∧
      (r.applyLeftmost? form = none ↔ r.left ∉ form) ∧
      (r.left ∈ form ↔ ∃! split : Word × Word, r.Splits form split.1 split.2) ∧
      ∀ start, offsetOf? (String.utf8EncodeChar r.left) (utf8 form) = some start ↔
        ∃ front back, r.Splits form front back ∧ start = (utf8 front).length ∧
          start + (String.utf8EncodeChar r.left).length = (utf8 (front ++ [r.left])).length :=
  ⟨rewriteEncoded?_eq r form, fun _ => applyLeftmost?_eq_some_iff_splits,
    applyLeftmost?_eq_none_iff, mem_iff_existsUnique_splits, fun _ => offsetOf?_eq_some_iff_splits⟩

-- The symbol and the one in front of it take several bytes, and the replacement holds the symbol again.
example : (⟨'€', ['€', 'S']⟩ : Rule).rewriteEncoded? (utf8 ['я', '€', '€']) =
    .ok (some ⟨9, utf8 ['я', '€', 'S', '€']⟩) := by
  rfl

end Rule

end Sentential
