import Sentential.Calendar.Timestamp

/-!
# Moments in memory

A timestamp is what a text tells. In memory a time is held as a second of a day and the nanoseconds that
have passed since it began, and a leap second is held as another thousand million nanoseconds of the
second before it. The leap seconds of Universal Time end a minute, but in memory one may be held behind
any second. No text tells such a moment: it is written as the second after it.
-/

namespace Sentential.Calendar

/-- A moment of Universal Time as it is held in memory. Nanoseconds from a thousand million on are those
of a leap second behind the second. -/
structure Moment where
  date : Date
  hour : Nat
  minute : Nat
  second : Nat
  nanosecond : Nat
  hour_lt : hour < 24
  minute_lt : minute < 60
  second_lt : second < 60
  nanosecond_lt : nanosecond < 2000000000

/-- What is written of a moment. A leap second is counted as the second after the one before it. -/
def Moment.toTimestamp (m : Moment) : Timestamp where
  date := m.date
  hour := m.hour
  minute := m.minute
  second := m.second + m.nanosecond / 1000000000
  nanosecond := m.nanosecond % 1000000000
  hour_lt := m.hour_lt
  minute_lt := m.minute_lt
  second_le := by
    have hsecond := m.second_lt
    have hnanosecond := m.nanosecond_lt
    omega
  nanosecond_lt := Nat.mod_lt _ (by decide)

/-- How a timestamp that was read is held. -/
def Timestamp.toMoment (t : Timestamp) : Moment where
  date := t.date
  hour := t.hour
  minute := t.minute
  second := min t.second 59
  nanosecond := 1000000000 * (t.second - 59) + t.nanosecond
  hour_lt := t.hour_lt
  minute_lt := t.minute_lt
  second_lt := by omega
  nanosecond_lt := by
    have hsecond := t.second_le
    have hnanosecond := t.nanosecond_lt
    omega

/-- A moment that is no leap second, or a leap second that ends a minute. -/
def Moment.Regular (m : Moment) : Prop :=
  m.nanosecond < 1000000000 ∨ m.second = 59

instance (m : Moment) : Decidable m.Regular :=
  inferInstanceAs (Decidable (_ ∨ _))

/-- A moment with a leap second that does not end a minute counted as the second after it. -/
def Moment.regularize (m : Moment) : Moment :=
  if h : m.Regular then m
  else
    { m with
      second := m.second + 1
      nanosecond := m.nanosecond - 1000000000
      second_lt := by
        have hsecond := m.second_lt
        simp only [Regular, not_or] at h
        omega
      nanosecond_lt := by
        have hnanosecond := m.nanosecond_lt
        omega }

theorem Moment.regularize_eq_self_iff (m : Moment) : m.regularize = m ↔ m.Regular := by
  by_cases h : m.Regular
  · simp [regularize, h]
  · -- A later second is another moment.
    have hsecond : m.regularize.second = m.second + 1 := by rw [regularize, dif_neg h]
    refine iff_of_false (fun heq => ?_) h
    rw [heq] at hsecond
    omega

/-- A timestamp that was read is written as it was. -/
theorem Timestamp.toTimestamp_toMoment (t : Timestamp) : t.toMoment.toTimestamp = t := by
  obtain ⟨date, hour, minute, second, nanosecond, -, -, hsecond, hnanosecond⟩ := t
  simp only [toMoment, Moment.toTimestamp, mk.injEq, true_and]
  omega

/-- What is read of a moment that was written. -/
theorem Moment.toMoment_toTimestamp (m : Moment) : m.toTimestamp.toMoment = m.regularize := by
  obtain ⟨date, hour, minute, second, nanosecond, -, -, hsecond, hnanosecond⟩ := m
  unfold regularize
  split
  next hregular =>
    simp only [Regular] at hregular
    simp only [toTimestamp, Timestamp.toMoment, mk.injEq, true_and]
    omega
  next hleap =>
    simp only [Regular, not_or] at hleap
    simp only [toTimestamp, Timestamp.toMoment, mk.injEq, true_and]
    omega

/-- No timestamp tells a leap second that does not end a minute. -/
theorem Timestamp.regular_toMoment (t : Timestamp) : t.toMoment.Regular := by
  rw [← Moment.regularize_eq_self_iff, ← Moment.toMoment_toTimestamp, toTimestamp_toMoment]

end Sentential.Calendar
