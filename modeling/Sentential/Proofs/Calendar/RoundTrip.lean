import Sentential.Calendar.Reader
import Sentential.Proofs.Text.Digits

/-!
# Reading stored times

The stored text of an instant is read back as that instant. Every field of it is a run of digits
that either has its full width or stops before a mark, and no blank stands anywhere, so the
freedoms of the reader do not come into play.
-/

namespace Sentential.Calendar

open Text (StopsDigits skipBlanks isBlank)

section Padding

variable {width n : Nat}

theorem isDigit_of_mem_padded : ∀ c ∈ padded width n, c.isDigit = true := by
  intro c hc
  rcases List.mem_append.mp hc with hc | hc
  · rw [List.eq_of_mem_replicate hc]
    decide
  · exact Text.isDigit_of_mem_toDigits c hc

theorem padded_eq_cons (width n : Nat) : ∃ c ds, padded width n = c :: ds ∧ c.isDigit = true := by
  cases hcons : padded width n with
  | nil => exact absurd (List.append_eq_nil_iff.mp hcons).2 Nat.toDigits_ne_nil
  | cons c ds => exact ⟨c, ds, rfl, isDigit_of_mem_padded c (hcons ▸ List.mem_cons_self)⟩

theorem padded_append_ne_cons {c : Char} (hc : c.isDigit = false) (rest after : List Char) :
    padded width n ++ rest ≠ c :: after := by
  obtain ⟨d, ds, hcons, hd⟩ := padded_eq_cons width n
  rw [hcons, List.cons_append]
  intro heq
  rw [(List.cons.inj heq).1, hc] at hd
  cases hd

/-- A number that fits takes exactly the width it is padded to. -/
theorem length_padded (hwidth : 0 < width) (h : n < Nat.pow 10 width) :
    (padded width n).length = width := by
  have hdigits : (Nat.toDigits 10 n).length ≤ width :=
    (Nat.length_toDigits_le_iff (by decide) hwidth).mpr h
  simp only [padded, List.length_append, List.length_replicate]
  omega

theorem value_padded : Reader.value (padded width n) = n := by
  change Nat.ofDigitChars 10 (padded width n) 0 = n
  rw [padded, Nat.ofDigitChars_append, Nat.ofDigitChars_replicate_zero, Nat.mul_zero,
    Nat.ofDigitChars_ten_toDigits]

theorem value_padded_zeros (width n count : Nat) :
    Reader.value (padded width n ++ List.replicate count '0') = n * Nat.pow 10 count := by
  change Nat.ofDigitChars 10 (padded width n ++ List.replicate count '0') 0 = _
  rw [Nat.ofDigitChars_append, Nat.ofDigitChars_replicate_zero, Nat.mul_comm]
  exact congrArg (· * _) value_padded

end Padding

namespace Reader

theorem isBlank_of_isDigit {c : Char} (h : c.isDigit = true) : isBlank c = false := by
  simp only [Char.isDigit, Bool.and_eq_true, decide_eq_true_eq] at h
  have hlow : 48 ≤ c.toNat := h.1
  have hhigh : c.toNat ≤ 57 := h.2
  simp [isBlank, Text.blankRanges]
  omega

theorem skipBlanks_cons {c : Char} (h : isBlank c = false) (cs : List Char) :
    skipBlanks (c :: cs) = c :: cs := by
  rw [skipBlanks, List.dropWhile_cons_of_neg (by simp [h])]

theorem skipBlanks_padded {width n : Nat} (rest : List Char) :
    skipBlanks (padded width n ++ rest) = padded width n ++ rest := by
  obtain ⟨c, ds, hcons, hc⟩ := padded_eq_cons width n
  rw [hcons, List.cons_append, skipBlanks_cons (isBlank_of_isDigit hc)]

/-- A run of digits is split off whole if it is as long as allowed, or if no digit follows. -/
theorem digits_append {ds rest : List Char} {most : Nat} (hds : ∀ c ∈ ds, c.isDigit = true)
    (hmost : ds.length ≤ most) (hrest : ds.length = most ∨ StopsDigits rest) :
    digits most (ds ++ rest) = (ds, rest) := by
  induction ds generalizing most with
  | nil =>
    rcases hrest with hfull | hstop
    · rw [← hfull]
      cases rest <;> rfl
    · cases rest with
      | nil => cases most <;> rfl
      | cons c after =>
        cases most with
        | zero => rfl
        | succ most => simp [digits, hstop c after rfl]
  | cons c ds ih =>
    obtain ⟨most, rfl⟩ := Nat.exists_eq_succ_of_ne_zero (Nat.ne_zero_of_lt hmost)
    have htail := ih (fun d hd => hds d (List.mem_cons_of_mem c hd))
      (Nat.le_of_succ_le_succ hmost) (hrest.imp_left Nat.succ.inj)
    simp [digits, hds c List.mem_cons_self, htail]

theorem number_padded {width most n : Nat} {rest : List Char}
    (hmost : (padded width n).length ≤ most)
    (hrest : (padded width n).length = most ∨ StopsDigits rest) :
    number most (padded width n ++ rest) = some (n, rest) := by
  have hvalue : value (padded width n) = n := value_padded
  obtain ⟨c, ds, hcons, -⟩ := padded_eq_cons width n
  rw [number, digits_append isDigit_of_mem_padded hmost hrest]
  rw [hcons] at hvalue ⊢
  simp only [hvalue]

theorem field_padded {n : Nat} (h : n < 100) (rest : List Char) :
    field (padded 2 n ++ rest) = some (n, rest) := by
  have hlength : (padded 2 n).length = 2 := length_padded (by decide) h
  rw [field, skipBlanks_padded, number_padded (Nat.le_of_eq hlength) (.inl hlength)]

theorem spacedMark_self {c : Char} (h : isBlank c = false) (rest : List Char) :
    spacedMark c (c :: rest) = some rest := by
  rw [spacedMark, skipBlanks_cons h, mark, if_pos rfl]

/-- Years are read back before a hyphen. One without a sign has four digits, one with a sign may
have any number. -/
theorem year_yearChars (y : Int) (rest : List Char) :
    year (yearChars y ++ '-' :: rest) = some (y, '-' :: rest) := by
  have hstop : StopsDigits ('-' :: rest) := Text.stopsDigits_cons (by decide)
  have hsigned : number (padded 4 y.natAbs ++ '-' :: rest).length
      (padded 4 y.natAbs ++ '-' :: rest) = some (y.natAbs, '-' :: rest) :=
    number_padded (by simp) (.inr hstop)
  rw [year, yearChars]
  -- With a sign the digits end at the hyphen, without one after the fourth.
  by_cases hnegative : y < 0
  · rw [if_pos hnegative, List.cons_append, skipBlanks_cons (by decide)]
    simp only [hsigned, Option.map_some]
    rw [show -(y.natAbs : Int) = y by omega]
  rw [if_neg hnegative]
  by_cases hplain : y ≤ 9999
  · have hfour : y.natAbs < 10000 := by omega
    have hlength : (padded 4 y.natAbs).length = 4 := length_padded (by decide) hfour
    have hunsigned : number 4 (padded 4 y.natAbs ++ '-' :: rest) =
        some (y.natAbs, '-' :: rest) := number_padded (Nat.le_of_eq hlength) (.inl hlength)
    rw [if_pos hplain, skipBlanks_padded]
    split
    next heq => exact absurd heq (padded_append_ne_cons (by decide) _ _)
    next heq => exact absurd heq (padded_append_ne_cons (by decide) _ _)
    next =>
      simp only [hunsigned, Option.map_some]
      rw [show (y.natAbs : Int) = y by omega]
  · rw [if_neg hplain, List.cons_append, skipBlanks_cons (by decide)]
    simp only [hsigned, Option.map_some]
    rw [show (y.natAbs : Int) = y by omega]

theorem date_chars (d : Date) (rest : List Char) : date (d.chars ++ rest) = some (d, rest) := by
  obtain ⟨-, ⟨-, hmonth⟩, -, hday⟩ := d.isDate
  have hlast : daysInMonth d.year d.month ≤ 31 := by
    unfold daysInMonth
    split
    · split <;> decide
    · split <;> decide
  simp only [date, Date.chars, List.append_assoc, List.cons_append, year_yearChars,
    Option.bind_eq_bind, Option.bind_some, spacedMark_self (c := '-') (by decide),
    field_padded (show d.month < 100 by omega), field_padded (show d.day < 100 by omega),
    Date.ofParts?_self]
  rfl

/-- A fraction of a given number of digits is filled up to nanoseconds. -/
theorem fraction_padded {width n : Nat} (hwidth : 0 < width) (hmost : width ≤ 9)
    (h : n < Nat.pow 10 width) :
    fraction ('.' :: padded width n ++ ['Z']) = some (n * Nat.pow 10 (9 - width), ['Z']) := by
  have hlength := length_padded hwidth h
  have hvalue := value_padded_zeros width n (9 - width)
  have hstop : StopsDigits ['Z'] := Text.stopsDigits_cons (by decide)
  have hdigits : digits 9 (padded width n ++ ['Z']) = (padded width n, ['Z']) :=
    digits_append isDigit_of_mem_padded (by rw [hlength]; exact hmost) (.inr hstop)
  obtain ⟨c, ds, hcons, -⟩ := padded_eq_cons width n
  rw [List.cons_append, fraction, hdigits]
  rw [hcons] at hvalue hlength ⊢
  simp only [hvalue, hlength]
  rfl

theorem fraction_fractionChars {ns : Nat} (h : ns < 1000000000) :
    fraction (Timestamp.fractionChars ns ++ ['Z']) = some (ns, ['Z']) := by
  rw [Timestamp.fractionChars]
  by_cases hzero : ns = 0
  · subst hzero
    rfl
  rw [if_neg hzero]
  by_cases hmillis : ns % 1000000 = 0
  · have hlt : ns / 1000000 < 1000 := by omega
    have hfilled : ns / 1000000 * 1000000 = ns := by omega
    rw [if_pos hmillis, fraction_padded (by decide) (by decide) hlt]
    exact congrArg (fun n => some (n, ['Z'])) hfilled
  rw [if_neg hmillis]
  by_cases hmicros : ns % 1000 = 0
  · have hlt : ns / 1000 < 1000000 := by omega
    have hfilled : ns / 1000 * 1000 = ns := by omega
    rw [if_pos hmicros, fraction_padded (by decide) (by decide) hlt]
    exact congrArg (fun n => some (n, ['Z'])) hfilled
  · rw [if_neg hmicros, fraction_padded (by decide) (by decide) h]
    exact congrArg (fun n => some (n, ['Z'])) (Nat.mul_one ns)

theorem clock_clockChars (t : Timestamp) :
    clock (t.clockChars ++ (Timestamp.fractionChars t.nanosecond ++ ['Z'])) =
      some (⟨t.hour, t.minute, t.second, t.nanosecond⟩, ['Z']) := by
  have hhour := t.hour_lt
  have hminute := t.minute_lt
  have hsecond := t.second_le
  simp only [clock, Timestamp.clockChars, List.append_assoc, List.cons_append,
    Option.bind_eq_bind, Option.bind_some, spacedMark_self (c := ':') (by decide),
    field_padded (show t.hour < 100 by omega), field_padded (show t.minute < 100 by omega),
    field_padded (show t.second < 100 by omega), fraction_fractionChars t.nanosecond_lt]
  rfl

theorem instant?_zero (t : Timestamp) :
    instant? t.date ⟨t.hour, t.minute, t.second, t.nanosecond⟩ 0 = some t := by
  have hhour := t.hour_lt
  have hminute := t.minute_lt
  rw [instant?, dif_pos ⟨hhour, hminute, t.second_le, t.nanosecond_lt, by decide⟩]
  have hcivil : ¬ (60 * (t.hour : Int) + t.minute - 0 < 0) := by omega
  have hday : ¬ (dayMinutes ≤ 60 * (t.hour : Int) + t.minute - 0) := by
    rw [dayMinutes]
    omega
  have hminutes : ((60 * (t.hour : Int) + t.minute - 0) % dayMinutes).toNat =
      60 * t.hour + t.minute := by
    rw [dayMinutes]
    omega
  simp only [if_neg hcivil, if_neg hday, hminutes, Option.map_some]
  congr 2 <;> omega

end Reader

/-- A stored time is read back as the instant it was written for. -/
theorem Timestamp.ofChars?_chars (t : Timestamp) : Timestamp.ofChars? t.chars = some t := by
  have hzone : Reader.offset (skipBlanks ['Z']) = some (0, []) := rfl
  simp only [Timestamp.ofChars?, Timestamp.chars, List.append_assoc, List.cons_append,
    Option.bind_eq_bind, Reader.date_chars, Option.bind_some, Reader.separator]
  simp only [Reader.clock_clockChars, hzone, Option.bind_some, Reader.instant?_zero, true_or,
    ↓reduceIte]
  rfl

/-- A leap second long before year one, with a fraction. -/
example : Timestamp.text ⟨⟨-262143, 12, 31, by decide⟩, 23, 59, 60, 120000000, by decide, by decide,
    by decide, by decide⟩ = "-262143-12-31T23:59:60.120Z" := by
  decide

end Sentential.Calendar
