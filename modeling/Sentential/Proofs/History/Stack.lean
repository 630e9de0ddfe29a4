import Sentential.Proofs.History.Coherence

/-!
# The derivation in progress as a stack

Calls on a history act on its derivation as pushes and pops of ordinals, and the chain of steps
is at every moment the one that these ordinals make of the start symbol. A word can only stand
at the end of it.
-/

namespace Sentential

namespace History

variable {g : Grammar} {h next : History}

/-- A failed call leaves the history alone; a successful one does to the ordinals what it does
to a stack, where an applied index becomes the ordinal one above it. -/
theorem call_onStack (h : History) (c : Call) :
    match h.call g c with
    | (none, next) => c.onStack h.derivation.stack = some next.derivation.stack
    | (some _, next) => next = h := by
  cases c with
  | apply stamp index =>
    cases ha : h.apply g stamp index with
    | error cause => simp [call, ha]
    | ok pair =>
      obtain ⟨outcome, next⟩ := pair
      obtain ⟨s, hd⟩ := apply_derivation ha
      obtain ⟨r, form, -, -, -, -, hpush⟩ := Derivation.apply_eq_ok_iff.mp hd
      simp [call, ha, hpush, Call.onStack]
  | undo =>
    cases hu : h.undo with
    | error cause => simp [call, hu]
    | ok pair =>
      obtain ⟨s, next⟩ := pair
      obtain ⟨m, earlier, hmoves, -, rfl⟩ := undo_eq_ok_iff.mp hu
      simp [call, hu, Derivation.stack, hmoves, Call.onStack]
  | reset => rfl
  | clear => rfl
  | remove id => rfl

/-- Every reachable history carries its derivation as a stack of ordinals: its chain is what the
ordinals make of the start symbol, and every call acts on them as on a stack. Only the last form
can be a word, where nothing applies any more, and before which a derivation is in progress. -/
theorem reachable_derivation_is_stack (hg : g.Buildable) (hr : h.Reachable g) :
    g.chainOf? h.derivation.stack = some h.derivation.steps ∧
      (∀ c : Call, match h.call g c with
        | (none, next) => c.onStack h.derivation.stack = some next.derivation.stack
        | (some _, next) => next = h) ∧
      (∀ stamp index outcome next, h.apply g stamp index = .ok (outcome, next) →
        (index + 1).toNat = index.toNat + 1) ∧
      (∀ s ∈ h.derivation.steps.dropLast, ∃ c ∈ s.form, c ∈ g.nonTerminals) ∧
      (h.progress g = .completed →
        ∀ stamp index, ∃ cause, h.apply g stamp index = .error cause) ∧
      ∀ s next, h.undo = .ok (s, next) → next.progress g = .inProgress := by
  have hwf := hg.wellFormed
  have hc := hr.coherent hwf
  refine ⟨hc.follows.chainOf?_stack, call_onStack h, ?_, hc.follows.exists_nonTerminal hwf, ?_,
    fun s next hu => (hc.undo hwf hu).2⟩
  · intro stamp index outcome next ha
    obtain ⟨s, hd⟩ := apply_derivation ha
    obtain ⟨r, form, hindex, -, -, -, -⟩ := Derivation.apply_eq_ok_iff.mp hd
    exact Ordinal.toNat_succ hindex
  · intro hdone stamp index
    cases ha : h.apply g stamp index with
    | error cause => exact ⟨cause, rfl⟩
    | ok pair =>
      obtain ⟨s, hd⟩ := apply_derivation ha
      have hbefore := Derivation.progress_eq_inProgress_of_apply hwf hd
      rw [progress, hbefore] at hdone
      cases hdone

/-- The run that completes `а` ends with the ordinals 1, 2, 3 and 3 on its stack, and no rule
applies any more. -/
theorem reachable_derivation_is_stack_sample :
    Grammar.sample.Buildable ∧ sampleRun.Reachable Grammar.sample ∧
      sampleRun.derivation.stack = [3, 3, 2, 1] ∧
      Grammar.sample.chainOf? [3, 3, 2, 1] = some sampleRun.derivation.steps ∧
      ∀ stamp index, ∃ cause, sampleRun.apply Grammar.sample stamp index = .error cause := by
  obtain ⟨hchain, -, -, -, hdone, -⟩ :=
    reachable_derivation_is_stack Grammar.sample_buildable sampleRun_reachable
  exact ⟨Grammar.sample_buildable, sampleRun_reachable, rfl, hchain, hdone rfl⟩

end History

end Sentential
