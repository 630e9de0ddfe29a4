/-!
# Decimal digits

A number in decimal consists of digits, starts with a zero only if it is zero, and denotes itself.
A run of digits ends where something else stands.
-/

namespace Sentential.Text

/-- What may follow a run of digits: nothing, or something that starts with another character. -/
def StopsDigits (cs : List Char) : Prop :=
  ∀ c rest, cs = c :: rest → c.isDigit = false

theorem stopsDigits_nil : StopsDigits [] := by
  intro c rest h
  cases h

theorem stopsDigits_cons {c : Char} {rest : List Char} (h : c.isDigit = false) :
    StopsDigits (c :: rest) := by
  intro d after heq
  cases heq
  exact h

theorem isDigit_of_mem_toDigits {n : Nat} : ∀ c ∈ Nat.toDigits 10 n, c.isDigit = true :=
  fun _ hc => Nat.isDigit_of_mem_toDigits (by decide) (by decide) hc

theorem foldl_toDigits (n : Nat) :
    (Nat.toDigits 10 n).foldl (fun n c => 10 * n + (c.toNat - '0'.toNat)) 0 = n :=
  Nat.ofDigitChars_ten_toDigits

theorem head_toDigits_ne_zero {n : Nat} (hn : 0 < n) {c : Char} {rest : List Char}
    (h : Nat.toDigits 10 n = c :: rest) : c ≠ '0' := by
  induction n using Nat.strongRecOn generalizing c rest with
  | ind n ih =>
    rw [Nat.toDigits_eq_if (by decide)] at h
    split at h
    next hlt =>
      obtain ⟨rfl, -⟩ := List.cons.inj h
      intro hzero
      have hval := Nat.toNat_digitChar_of_lt_ten hlt
      rw [hzero] at hval
      have hchar : '0'.toNat = 48 := rfl
      omega
    next hge =>
      cases hdigits : Nat.toDigits 10 (n / 10) with
      | nil => exact absurd hdigits Nat.toDigits_ne_nil
      | cons d ds =>
        rw [hdigits, List.cons_append] at h
        obtain ⟨rfl, -⟩ := List.cons.inj h
        exact ih (n / 10) (by omega) (by omega) hdigits

section Runs

variable {ds rest : List Char} (hds : ∀ c ∈ ds, c.isDigit = true) (hrest : StopsDigits rest)

include hds hrest

theorem takeWhile_digits : (ds ++ rest).takeWhile Char.isDigit = ds := by
  rw [List.takeWhile_append_of_pos hds]
  cases rest with
  | nil => simp
  | cons c after => simp [hrest c after rfl]

theorem dropWhile_digits : (ds ++ rest).dropWhile Char.isDigit = rest := by
  rw [List.dropWhile_append_of_pos hds]
  cases rest with
  | nil => rfl
  | cons c after => simp [hrest c after rfl]

end Runs

end Sentential.Text
