import Sentential.Json.Printer
import Sentential.Json.Reader
import Sentential.Proofs.Text.Digits

/-!
# Reading printed strings and numbers

A printed string literal is read back behind its opening quote, whatever follows it. A number in
decimal is read back if what follows cannot continue it.
-/

namespace Sentential.Json

open Text (StopsDigits)

theorem hexValue?_hexDigit : ∀ d < 16, hexValue? (hexDigit d) = some d := by
  decide

theorem quadValue?_hexQuad {code : Nat} (h : code < 65536) :
    quadValue? (hexDigit (code / 4096 % 16)) (hexDigit (code / 256 % 16))
      (hexDigit (code / 16 % 16)) (hexDigit (code % 16)) = some code := by
  have hdigit (n : Nat) : hexValue? (hexDigit (n % 16)) = some (n % 16) :=
    hexValue?_hexDigit _ (Nat.mod_lt n (by decide))
  have hsum : ((code / 4096 % 16 * 16 + code / 256 % 16) * 16 + code / 16 % 16) * 16 + code % 16
      = code := by omega
  simp only [quadValue?, hdigit]
  exact congrArg some hsum

/-- A character below the blank is printed by its code and read back from it. -/
theorem ofCode_toNat {c : Char} (h : c.toNat < 0x20) : StringPart.ofCode c.toNat = .char c := by
  have hhalf : (isHighHalf c.toNat || isLowHalf c.toNat) = false := by
    simp [isHighHalf, isLowHalf]
    omega
  rw [StringPart.ofCode, hhalf]
  simp [Char.ofNat_toNat]

theorem readParts_unicode {code : Nat} (h : code < 65536) (rest : List Char) :
    readParts ('\\' :: 'u' :: hexQuad code ++ rest) =
      (readParts rest).map fun (ps, after) => (StringPart.ofCode code :: ps, after) := by
  simp only [hexQuad, List.cons_append, List.nil_append, readParts, quadValue?_hexQuad h]

theorem readParts_plain {c : Char} (hquote : c ≠ '"') (hbackslash : c ≠ '\\')
    (hcontrol : ¬ c.toNat < 0x20) (rest : List Char) :
    readParts (c :: rest) = (readParts rest).map fun (ps, after) => (.char c :: ps, after) := by
  rw [readParts]
  · rw [if_neg hcontrol]
  · exact hquote
  · rintro _ _ _ _ _ rfl
    exact absurd rfl hbackslash
  · rintro _ _ rfl
    exact absurd rfl hbackslash

/-- A character as printed inside a literal is read back as one part. -/
theorem readParts_escapeChar (c : Char) (rest : List Char) :
    readParts (escapeChar c ++ rest) =
      (readParts rest).map fun (ps, after) => (.char c :: ps, after) := by
  -- The order is that of the printer; only the last two cases are about more than one character.
  by_cases hquote : c = '"'
  · subst hquote; rfl
  by_cases hbackslash : c = '\\'
  · subst hbackslash; rfl
  by_cases hnewline : c = '\n'
  · subst hnewline; rfl
  by_cases hreturn : c = '\r'
  · subst hreturn; rfl
  by_cases htab : c = '\t'
  · subst htab; rfl
  by_cases hback : c = '\x08'
  · subst hback; rfl
  by_cases hfeed : c = '\x0c'
  · subst hfeed; rfl
  simp only [escapeChar, hquote, hbackslash, hnewline, hreturn, htab, hback, hfeed, ↓reduceIte]
  by_cases hcontrol : c.toNat < 0x20
  · rw [if_pos hcontrol, readParts_unicode (by omega), ofCode_toNat hcontrol]
  · rw [if_neg hcontrol]
    exact readParts_plain hquote hbackslash hcontrol rest

/-- A string literal is read back from behind its opening quote. -/
theorem readParts_quoted (cs rest : List Char) :
    readParts ((partsOf cs).flatMap StringPart.chars ++ '"' :: rest) = some (partsOf cs, rest) := by
  induction cs with
  | nil => rfl
  | cons c cs ih =>
    have hcons : (partsOf (c :: cs)).flatMap StringPart.chars =
        escapeChar c ++ (partsOf cs).flatMap StringPart.chars := rfl
    rw [hcons, List.append_assoc, readParts_escapeChar, ih]
    rfl

/-- What may follow a number: nothing that continues it. -/
structure StopsNumber (cs : List Char) : Prop where
  digits : StopsDigits cs
  point : ∀ rest, cs ≠ '.' :: rest
  exponent : ∀ c rest, cs = c :: rest → c ≠ 'e' ∧ c ≠ 'E'

theorem stopsNumber_nil : StopsNumber [] where
  digits := Text.stopsDigits_nil
  point := by simp
  exponent := by simp

theorem stopsNumber_cons {c : Char} {rest : List Char} (hdigit : c.isDigit = false)
    (hpoint : c ≠ '.') (hexponent : c ≠ 'e' ∧ c ≠ 'E') : StopsNumber (c :: rest) where
  digits := Text.stopsDigits_cons hdigit
  point := by
    rintro after heq
    exact hpoint (List.cons.inj heq).1
  exponent := by
    rintro d after heq
    obtain ⟨rfl, -⟩ := List.cons.inj heq
    exact hexponent

theorem readFraction_of_stops {rest : List Char} (h : StopsNumber rest) :
    readFraction rest = some ([], rest) := by
  unfold readFraction
  split
  next after => exact absurd rfl (h.point after)
  next => rfl

theorem readExponent_of_stops {rest : List Char} (h : StopsNumber rest) :
    readExponent rest = some ([], rest) := by
  unfold readExponent
  split
  next e sign after =>
    obtain ⟨hlower, hupper⟩ := h.exponent e _ rfl
    simp [hlower, hupper]
  next e =>
    obtain ⟨hlower, hupper⟩ := h.exponent e _ rfl
    simp [hlower, hupper]
  next => rfl

theorem readWhole_toDigits (n : Nat) {rest : List Char} (h : StopsNumber rest) :
    readWhole (Nat.toDigits 10 n ++ rest) = some (Nat.toDigits 10 n, rest) := by
  cases n with
  | zero =>
    rw [Nat.toDigits_zero]
    rfl
  | succ n =>
    have hdigits : readDigits (Nat.toDigits 10 (n + 1) ++ rest) =
        some (Nat.toDigits 10 (n + 1), rest) := by
      rw [readDigits, spanDigits, Text.takeWhile_digits Text.isDigit_of_mem_toDigits h.digits,
        Text.dropWhile_digits Text.isDigit_of_mem_toDigits h.digits]
      split
      next heq => exact absurd (Prod.mk.inj heq).1 Nat.toDigits_ne_nil
      next => rfl
    cases hcons : Nat.toDigits 10 (n + 1) with
    | nil => exact absurd hcons Nat.toDigits_ne_nil
    | cons c ds =>
      have hc := Text.head_toDigits_ne_zero (Nat.succ_pos n) hcons
      rw [← hcons, readWhole, hdigits]
      intro after heq
      rw [hcons, List.cons_append] at heq
      exact hc (List.cons.inj heq).1

theorem readNumber_toDigits (n : Nat) {rest : List Char} (h : StopsNumber rest) :
    readNumber (Nat.toDigits 10 n ++ rest) = some (Nat.toDigits 10 n, rest) := by
  have hmagnitude : readMagnitude (Nat.toDigits 10 n ++ rest) =
      some (Nat.toDigits 10 n, rest) := by
    simp [readMagnitude, readWhole_toDigits n h, readFraction_of_stops h, readExponent_of_stops h]
  cases hcons : Nat.toDigits 10 n with
  | nil => exact absurd hcons Nat.toDigits_ne_nil
  | cons c ds =>
    have hmem : c ∈ Nat.toDigits 10 n := hcons ▸ List.mem_cons_self
    have hc := Text.isDigit_of_mem_toDigits c hmem
    rw [← hcons, readNumber, hmagnitude]
    intro after heq
    rw [hcons, List.cons_append] at heq
    obtain ⟨rfl, -⟩ := List.cons.inj heq
    revert hc
    decide

end Sentential.Json
