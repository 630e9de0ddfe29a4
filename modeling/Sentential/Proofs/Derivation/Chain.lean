import Sentential.Proofs.Derivation.Leftmost
import Sentential.Proofs.Grammar.Building

/-!
# Chains and stacks of ordinals

A derivation is determined by the ordinals of the rules applied so far, a stack with the latest
on top. This module defines the chain that such a stack stands for, singles out the derivations
whose steps are this chain, and shows that replaying accepts exactly their chains.
-/

namespace Sentential

namespace Grammar

/-- The form to which the ordinals on a stack rewrite the start symbol, bottom first. -/
def formOf? (g : Grammar) : List Ordinal → Option Word
  | [] => some [Symbol.start]
  | n :: earlier => do (← g.rule? n).applyLeftmost? (← g.formOf? earlier)

/-- The chain of forms on the way there, each with the ordinal that led to it. -/
def chainOf? (g : Grammar) : List Ordinal → Option (List Step)
  | [] => some [Step.initial]
  | n :: earlier => do return (← g.chainOf? earlier) ++ [⟨← g.formOf? (n :: earlier), some n⟩]

end Grammar

namespace Derivation

variable {g g' : Grammar} {d d' : Derivation}

/-- The ordinals of the rules applied so far, the latest first. -/
def stack (d : Derivation) : List Ordinal :=
  d.moves.map Move.ordinal

@[simp]
theorem stack_start : start.stack = [] := rfl

@[simp]
theorem stack_push (d : Derivation) (m : Move) : (d.push m).stack = m.ordinal :: d.stack := rfl

theorem dropLast_steps_concat (d : Derivation) : d.steps.dropLast ++ [d.last] = d.steps := by
  obtain ⟨moves⟩ := d
  cases moves with
  | nil => rfl
  | cons m earlier =>
    change (push ⟨earlier⟩ m).steps.dropLast ++ [m.toStep] = (push ⟨earlier⟩ m).steps
    rw [steps_push, List.dropLast_concat]

/-- Every move is an application of the rule it names to the form before it. -/
inductive Follows (g : Grammar) : Derivation → Prop
  | start : Follows g start
  | push {d : Derivation} {n : Ordinal} {r : Rule} {form : Word} : Follows g d →
      g.rule? n = some r → r.applyLeftmost? d.current = some form →
      Follows g (d.push ⟨n, form⟩)

/-- The form and the chain of such a derivation are what its stack of ordinals stands for. -/
theorem Follows.formOf?_stack (h : d.Follows g) : g.formOf? d.stack = some d.current := by
  induction h with
  | start => rfl
  | push _ hrule happly ih => simp [Grammar.formOf?, hrule, ih, happly]

theorem Follows.chainOf?_stack (h : d.Follows g) : g.chainOf? d.stack = some d.steps := by
  induction h with
  | start => rfl
  | push hd hrule happly ih =>
    have hform := (Follows.push hd hrule happly).formOf?_stack
    rw [stack_push, current_push] at hform
    simp [Grammar.chainOf?, ih, hform, Move.toStep]

/-- Whether a derivation follows depends on the rules alone. -/
theorem Follows.of_rules_eq (hrules : g.rules = g'.rules) (h : d.Follows g) : d.Follows g' := by
  induction h with
  | start => exact .start
  | push _ hrule happly ih =>
    refine .push ih ?_ happly
    rwa [Grammar.rule?, ← hrules]

/-- Following stored steps asks of a grammar only its rules. -/
theorem follow_of_rules_eq (hrules : g.rules = g'.rules) (d : Derivation) (position : Nat)
    (steps : List Step) : follow g d position steps = follow g' d position steps := by
  have hrule (n : Ordinal) : g.rule? n = g'.rule? n := by rw [Grammar.rule?, hrules, Grammar.rule?]
  induction steps generalizing d position with
  | nil => rfl
  | cons s rest ih => simp only [follow, hrule, ih]

theorem replay_of_rules_eq (hrules : g.rules = g'.rules) (steps : List Step) :
    replay g steps = replay g' steps := by
  cases steps with
  | nil => rfl
  | cons s rest => simp only [replay, follow_of_rules_eq hrules]

/-- Every step of a derivation that follows is the last one of a derivation that follows. -/
theorem Follows.exists_of_mem_steps (h : d.Follows g) {s : Step} (hs : s ∈ d.steps) :
    ∃ e : Derivation, e.Follows g ∧ e.last = s := by
  induction h with
  | start => exact ⟨Derivation.start, .start, (List.mem_singleton.mp hs).symm⟩
  | @push d n r form hd hrule happly ih =>
    rw [steps_push] at hs
    rcases List.mem_append.mp hs with hearlier | hlast
    · exact ih hearlier
    · exact ⟨_, hd.push hrule happly, (List.mem_singleton.mp hlast).symm⟩

/-- The latest move of a derivation that follows can be taken back to one that follows. -/
theorem Follows.of_push {m : Move} (h : (d.push m).Follows g) :
    d.Follows g ∧ ∃ r, g.rule? m.ordinal = some r ∧ r.applyLeftmost? d.current = some m.form := by
  generalize he : d.push m = e at h
  cases h with
  | start => cases he
  | push hd hrule happly =>
    obtain ⟨rfl, hmoves⟩ := List.cons.inj (congrArg moves he)
    obtain rfl : d = _ := congrArg Derivation.mk hmoves
    exact ⟨hd, _, hrule, happly⟩

/-- Following stored steps adds exactly these steps, each of them an application of its rule. -/
theorem follow_sound {position : Nat} {steps : List Step} (hd : d.Follows g)
    (h : follow g d position steps = .ok d') : d'.Follows g ∧ d'.steps = d.steps ++ steps := by
  induction steps generalizing d position with
  | nil =>
    obtain rfl := Except.ok.inj h
    exact ⟨hd, by simp⟩
  | cons s rest ih =>
    obtain ⟨form, ordinal⟩ := s
    rw [follow] at h
    split at h
    next => cases h
    next n hn =>
      obtain rfl : ordinal = some n := hn
      split at h
      next => cases h
      next r hrule =>
        split at h
        next happly =>
          obtain ⟨hfollows, hsteps⟩ := ih (hd.push hrule happly) h
          exact ⟨hfollows, by simpa [Move.toStep] using hsteps⟩
        next => cases h

theorem follow_append {position : Nat} {first second : List Step} :
    follow g d position (first ++ second) =
      (follow g d position first).bind fun e => follow g e (position + first.length) second := by
  induction first generalizing d position with
  | nil => rfl
  | cons s rest ih =>
    simp only [List.cons_append, follow, List.length_cons]
    split
    next => rfl
    next =>
      split
      next => rfl
      next =>
        split
        next =>
          rw [ih, Nat.add_right_comm, Nat.add_assoc]
        next => rfl

theorem follow_push {n : Ordinal} {r : Rule} {form : Word} (hrule : g.rule? n = some r)
    (happly : r.applyLeftmost? d.current = some form) (position : Nat) :
    follow g d position [⟨form, some n⟩] = .ok (d.push ⟨n, form⟩) := by
  simp [follow, hrule, happly]

/-- Replaying accepts the chain of every derivation whose moves are applications. -/
theorem Follows.replay_steps (h : d.Follows g) : replay g d.steps = .ok d := by
  induction h with
  | start => rfl
  | @push d n r form _ hrule happly ih =>
    have hfollow : follow g Derivation.start 1 (d.moves.reverse.map Move.toStep) = .ok d := by
      simpa [replay, steps] using ih
    have hsteps : (d.push ⟨n, form⟩).steps =
        Step.initial :: (d.moves.reverse.map Move.toStep ++ [⟨form, some n⟩]) := by
      simp [steps, Derivation.push, Move.toStep]
    rw [hsteps, replay, if_pos rfl, follow_append, hfollow]
    exact follow_push hrule happly _

/-- Replaying accepts exactly the chains of derivations whose moves are applications. -/
theorem replay_eq_ok_iff {steps : List Step} :
    replay g steps = .ok d ↔ d.Follows g ∧ d.steps = steps := by
  constructor
  · intro h
    cases steps with
    | nil => cases h
    | cons s rest =>
      rw [replay] at h
      split at h
      next hs =>
        obtain ⟨hfollows, hsteps⟩ := follow_sound Follows.start h
        exact ⟨hfollows, by rw [hsteps, hs, steps_start, List.singleton_append]⟩
      next => cases h
  · rintro ⟨hfollows, rfl⟩
    exact hfollows.replay_steps

/-- A successful application extends a derivation that follows to one that follows. -/
theorem Follows.apply (hd : d.Follows g) {index : UInt64} {s : Step}
    (h : d.apply g index = .ok (s, d')) : d'.Follows g := by
  obtain ⟨r, form, hindex, hrule, happly, -, rfl⟩ := apply_eq_ok_iff.mp h
  exact hd.push ((Grammar.rule?_succ hindex).trans hrule) happly

end Derivation

end Sentential
