/-!
# Computations that may fail

When a computation has a result and when it fails, told of the parts that it is made of.
-/

namespace Sentential

/-- A computation that may fail has a result exactly if both of its parts have. -/
theorem bind_eq_ok_iff {ε α β : Type} {x : Except ε α} {f : α → Except ε β} {b : β} :
    x >>= f = .ok b ↔ ∃ a, x = .ok a ∧ f a = .ok b := by
  cases x with
  | error e => simp [bind, Except.bind]
  | ok a => simp [bind, Except.bind]

/-- A check in front of a computation lets it begin exactly if it does not fail. -/
theorem check_eq_ok_iff {ε β : Type} {p : Prop} [Decidable p] {e : ε} {rest : Except ε β} {b : β} :
    (if p then ((throw e : Except ε PUnit) >>= fun _ => rest) else rest) = .ok b ↔
      ¬ p ∧ rest = .ok b := by
  by_cases hp : p
  · simp [hp, throw, throwThe, MonadExceptOf.throw, bind, Except.bind]
  · simp [hp]

/-- A computation fails exactly if its first part does, or its second part after the first. -/
theorem bind_eq_error_iff {ε α β : Type} {x : Except ε α} {f : α → Except ε β} {e : ε} :
    x >>= f = .error e ↔ x = .error e ∨ ∃ a, x = .ok a ∧ f a = .error e := by
  cases x with
  | error e' => simp [bind, Except.bind]
  | ok a => simp [bind, Except.bind]

theorem check_eq_error_iff {ε β : Type} {p : Prop} [Decidable p] {e e' : ε} {rest : Except ε β} :
    (if p then ((throw e : Except ε PUnit) >>= fun _ => rest) else rest) = .error e' ↔
      p ∧ e' = e ∨ ¬ p ∧ rest = .error e' := by
  by_cases hp : p
  · simp [hp, throw, throwThe, MonadExceptOf.throw, bind, Except.bind, eq_comm]
  · simp [hp]

theorem map_eq_ok_iff {ε α β : Type} {x : Except ε α} {f : α → β} {b : β} :
    x.map f = .ok b ↔ ∃ a, x = .ok a ∧ f a = b := by
  cases x with
  | error e => simp [Except.map]
  | ok a => simp [Except.map]

theorem pure_eq_ok_iff {ε α : Type} {a b : α} : (pure a : Except ε α) = .ok b ↔ b = a := by
  simp [pure, Except.pure, eq_comm]

theorem toOption_eq_some_iff {ε α : Type} {x : Except ε α} {a : α} :
    x.toOption = some a ↔ x = .ok a := by
  cases x with
  | error e => simp [Except.toOption]
  | ok b => simp [Except.toOption]

end Sentential
