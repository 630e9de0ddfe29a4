import Sentential.Proofs.Grammar.Building

/-!
# Rejections and their windows

A rejected edit changes nothing but the notice of a builder. What is pending at an instant is therefore
the outcome of the latest edit, unless it has been dismissed or cleared since, and only while the window
that the builder has by then is open. An instant before the edit counts as that of the edit.
-/

namespace Sentential

namespace Notice

variable {α : Type}

theorem live?_eq (n : Notice α) (window now : Nat) :
    n.live? window now = if now - n.raised < window then some n.message else none := by
  simp only [live?, hasLapsed, decide_eq_true_eq]
  by_cases h : now - n.raised < window
  · rw [if_pos h, if_neg (Nat.not_le_of_lt h)]
  · rw [if_neg h, if_pos (Nat.le_of_not_lt h)]

end Notice

namespace Builder

/-- What a builder goes through while a grammar is authored. -/
inductive Action where
  | submit (now : Nat) (e : Edit)
  | clear
  | dismiss
  | rewindow (window : Nat)

/-- Whether an action decides anew what is pending. Another window does not: it only changes how long. -/
def Action.decides : Action → Bool
  | .rewindow _ => false
  | _ => true

def perform (b : Builder) : Action → Builder
  | .submit now e => (b.submit now e).2
  | .clear => b.clear
  | .dismiss => b.dismiss
  | .rewindow window => { b with window }

def run (b : Builder) (actions : List Action) : Builder :=
  actions.foldl perform b

/-- The rejection in which an action ends, with its time. -/
def outcome? (b : Builder) : Action → Option (Notice GrammarError)
  | .submit now e => (b.submit now e).1.map fun cause => ⟨cause, now⟩
  | _ => none

theorem run_append (b : Builder) (first rest : List Action) :
    b.run (first ++ rest) = (b.run first).run rest :=
  List.foldl_append

/-- What is pending is the notice of the builder while its window is open. -/
theorem pending?_eq (b : Builder) (now : Nat) : b.pending? now =
    b.rejection.bind fun n => if now - n.raised < b.window then some n.message else none := by
  simp only [pending?, Notice.live?_eq]

/-! ### One action -/

/-- An action that decides leaves its own outcome and nothing of what was pending before. -/
theorem perform_rejection (b : Builder) {a : Action} (ha : a.decides = true) :
    (b.perform a).rejection = b.outcome? a := by
  cases a with
  | submit now e =>
    rw [perform, outcome?]
    cases he : b.draft.edit e with
    | ok g => rw [submit_of_ok now he, Option.map_none]
    | error cause => rw [submit_of_error now he, Option.map_some]
  | clear => rfl
  | dismiss => rfl
  | rewindow window => cases ha

/-- An edit that is rejected leaves the draft and the window as they are. -/
theorem submit_of_rejected {b : Builder} {now : Nat} {e : Edit} {cause : GrammarError}
    (h : (b.submit now e).1 = some cause) :
    (b.submit now e).2 = { b with rejection := some ⟨cause, now⟩ } := by
  cases he : b.draft.edit e with
  | ok g =>
    rw [submit_of_ok now he] at h
    cases h
  | error cause' =>
    rw [submit_of_error now he] at h ⊢
    rw [Option.some.inj h]

/-! ### Runs -/

theorem run_rejection (b : Builder) {later : List Action}
    (hlater : ∀ a ∈ later, a.decides = false) : (b.run later).rejection = b.rejection := by
  induction later generalizing b with
  | nil => rfl
  | cons a rest ih =>
    have hrest := ih (b.perform a) fun a' ha' => hlater a' (List.mem_cons_of_mem a ha')
    refine hrest.trans ?_
    have ha := hlater a List.mem_cons_self
    cases a with
    | rewindow window => rfl
    | _ => cases ha

/-- After a run, the notice is the outcome of the latest action that decides. -/
theorem run_rejection_of_latest (b : Builder) (before : List Action) {a : Action}
    {later : List Action} (ha : a.decides = true) (hlater : ∀ a' ∈ later, a'.decides = false) :
    (b.run (before ++ a :: later)).rejection = (b.run before).outcome? a := by
  rw [run_append, run, List.foldl_cons]
  exact (run_rejection _ hlater).trans (perform_rejection _ ha)

/-- A rejected edit leaves the draft as it is, and its cause is pending at all instants that are less than
the window after it, and at no others; an accepted edit leaves nothing pending at any instant. Whatever
else has been done with a builder, what is pending is the outcome of the latest edit, dismissal or
clearing, in the window of the builder. -/
theorem pending?_of_latest (b : Builder) :
    (∀ now e cause, (b.submit now e).1 = some cause → (b.submit now e).2.draft = b.draft ∧
        ∀ t, (b.submit now e).2.pending? t = if t - now < b.window then some cause else none) ∧
      (∀ now e, (b.submit now e).1 = none → ∀ t, (b.submit now e).2.pending? t = none) ∧
      ∀ before a later, a.decides = true → (∀ a' ∈ later, a'.decides = false) → ∀ t,
        (b.run (before ++ a :: later)).pending? t = ((b.run before).outcome? a).bind fun n =>
          if t - n.raised < (b.run (before ++ a :: later)).window then some n.message else none := by
  refine ⟨?_, ?_, ?_⟩
  · intro now e cause h
    rw [submit_of_rejected h]
    exact ⟨rfl, fun t => pending?_eq _ t⟩
  · intro now e h t
    have hnotice : (b.submit now e).2.rejection = none := by
      have hperform := b.perform_rejection (a := .submit now e) rfl
      rwa [outcome?, h] at hperform
    rw [pending?_eq, hnotice]
    rfl
  · intro before a later ha hlater t
    rw [pending?_eq, run_rejection_of_latest b before ha hlater]

/-- A rejection that follows an accepted edit and a dismissal is pending for the window that is set
later, also at an instant before the edit. -/
theorem pending?_of_latest_rewindowed :
    let before : List Action := [.submit 0 (.addTerminal "а"), .dismiss]
    let rejected : Edit := .addTerminal "z"
    let cause : GrammarError := .invalidSymbol "z" .terminal
    let b := (empty 500).run (before ++ .submit 100 rejected :: [.rewindow 2000])
    (((empty 500).run before).submit 100 rejected).1 = some cause ∧ b.draft.terminals = ['а'] ∧
      b.pending? 0 = some cause ∧ b.pending? 2099 = some cause ∧ b.pending? 2100 = none := by
  intro before rejected cause b
  have hcause : (((empty 500).run before).submit 100 rejected).1 = some cause := rfl
  have hpending (t : Nat) : b.pending? t = if t - 100 < 2000 then some cause else none :=
    (pending?_of_latest (empty 500)).2.2 before (.submit 100 rejected) [.rewindow 2000] rfl
      (by simp [Action.decides]) t
  exact ⟨hcause, rfl, hpending 0, hpending 2099, hpending 2100⟩

end Builder

end Sentential
