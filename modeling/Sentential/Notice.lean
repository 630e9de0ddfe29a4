/-!
# Transient notices

A notice is a message that stays live for a fixed window of time after it was raised
and lapses on its own. Times are milliseconds on one clock; an instant before the
notice was raised counts as the instant it was raised.
-/

namespace Sentential

/-- A message together with the time it was raised. -/
structure Notice (α : Type) where
  message : α
  raised : Nat

namespace Notice

variable {α : Type}

/-- How long a notice stays live unless told otherwise: three seconds. -/
def standardWindow : Nat := 3000

/-- A notice has lapsed once the whole window has gone by. -/
def hasLapsed (n : Notice α) (window now : Nat) : Bool :=
  window ≤ now - n.raised

/-- The message while the notice is live. -/
def live? (n : Notice α) (window now : Nat) : Option α :=
  if n.hasLapsed window now then none else some n.message

/-- With a window of nothing no notice is ever live. -/
theorem live?_zero (n : Notice α) (now : Nat) : n.live? 0 now = none := by
  simp [live?, hasLapsed]

theorem hasLapsed_mono (n : Notice α) (window : Nat) {t u : Nat} (htu : t ≤ u)
    (h : n.hasLapsed window t = true) : n.hasLapsed window u = true := by
  simp only [hasLapsed, decide_eq_true_eq] at h ⊢
  omega

end Notice

end Sentential
