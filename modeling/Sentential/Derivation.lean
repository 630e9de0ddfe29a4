import Sentential.Grammar

/-!
# Derivations

A derivation starts from the bare start symbol and applies one rule at a time, always to
the leftmost occurrence of the rule's left-hand symbol. It is kept as the moves made so
far, the latest first; the chain of steps that users see and files store is a view of it.
A stored chain is believed only after it has been replayed.
-/

namespace Sentential

/-- One entry of a chain: a form and the ordinal of the rule that produced it, which the
first entry lacks. -/
structure Step where
  form : Word
  ordinal : Option Ordinal
deriving DecidableEq

def Step.initial : Step where
  form := [Symbol.start]
  ordinal := none

/-- Whether a form still holds a non-terminal. -/
inductive Progress where
  | inProgress
  | completed
deriving DecidableEq

/-- Why a derivation cannot take a step, or a stored chain is not one. An overflow is not an answer: an
index that has no ordinal stops the program. -/
inductive DerivationError where
  | notApplicable (ordinal : Ordinal) (left : Char) (form : Word)
  | nothingToUndo
  | outOfRange (ordinal : Ordinal)
  | inconsistent (position : Nat)
  | overflow
deriving DecidableEq

def DerivationError.message : DerivationError → String
  | .notApplicable n left form =>
    s!"rule {n.toNat} cannot be applied: '{left}' does not occur in \"" ++ String.ofList form
      ++ "\""
  | .nothingToUndo => "nothing to undo: the derivation is at its initial step"
  | .outOfRange n => s!"the grammar has no rule {n.toNat}"
  | .inconsistent n =>
    s!"step {n} of the stored derivation does not follow from the step before it"
  | .overflow => "attempt to add with overflow"

/-- A rule as offered for a form. -/
structure Offer where
  ordinal : Ordinal
  rule : Rule
  available : Bool
deriving DecidableEq

namespace Grammar

def progress (g : Grammar) (form : Word) : Progress :=
  if g.isWord form then .completed else .inProgress

/-- All rules with their ordinals, in the grammar's order. -/
def numbered (g : Grammar) : List (Ordinal × Rule) :=
  g.rules.zipIdx.map fun (r, i) => (UInt64.ofNat (i + 1), r)

/-- The rules as offered for a form: those that apply come first, and each group keeps the
grammar's order. -/
def offers (g : Grammar) (form : Word) : List Offer :=
  let all := g.numbered.map fun (n, r) => (⟨n, r, r.applies form⟩ : Offer)
  all.filter (·.available) ++ all.filter (!·.available)

end Grammar

/-- The step that a rule at a given index, counted from zero, makes from a form. Its ordinal is found
first, whether or not the rule applies. -/
def Rule.step (r : Rule) (index : UInt64) (form : Word) : Except DerivationError Step :=
  match Ordinal.ofIndex? index with
  | none => .error .overflow
  | some n =>
    match r.applyLeftmost? form with
    | some next => .ok ⟨next, some n⟩
    | none => .error (.notApplicable n r.left form)

/-- A rule application that has been made, with the form it led to. -/
structure Move where
  ordinal : Ordinal
  form : Word
deriving DecidableEq

def Move.toStep (m : Move) : Step where
  form := m.form
  ordinal := some m.ordinal

/-- The moves made from the start symbol, the latest first. -/
structure Derivation where
  moves : List Move
deriving DecidableEq

namespace Derivation

/-- The derivation that has not left the start symbol. -/
def start : Derivation where
  moves := []

/-- The chain of steps, from the start symbol to the current form. -/
def steps (d : Derivation) : List Step :=
  Step.initial :: d.moves.reverse.map Move.toStep

def last (d : Derivation) : Step :=
  match d.moves with
  | [] => Step.initial
  | m :: _ => m.toStep

def current (d : Derivation) : Word :=
  d.last.form

/-- The number of steps, which is never zero. -/
def length (d : Derivation) : Nat :=
  d.moves.length + 1

def push (d : Derivation) (m : Move) : Derivation where
  moves := m :: d.moves

/-- Applies the rule at an index counted from zero. -/
def apply (g : Grammar) (index : UInt64) (d : Derivation) :
    Except DerivationError (Step × Derivation) :=
  -- The ordinal is found even if the error that would name it does not occur.
  match Ordinal.ofIndex? index with
  | none => .error .overflow
  | some n =>
    match g.rules[index.toNat]? with
    | none => .error (.outOfRange n)
    | some r =>
      match r.step index d.current with
      | .error cause => .error cause
      | .ok s => .ok (s, d.push ⟨n, s.form⟩)

def undo (d : Derivation) : Except DerivationError (Step × Derivation) :=
  match d.moves with
  | [] => .error .nothingToUndo
  | m :: earlier => .ok (m.toStep, ⟨earlier⟩)

/-- Continues a derivation along stored steps, of which the first has a given position in its
chain. Each step has to name a rule and to be what that rule makes of the form before it. -/
def follow (g : Grammar) (d : Derivation) (position : Nat) :
    List Step → Except DerivationError Derivation
  | [] => .ok d
  | s :: rest =>
    match s.ordinal with
    | none => .error (.inconsistent position)
    | some n =>
      match g.rule? n with
      | none => .error (.inconsistent position)
      | some r =>
        if r.applyLeftmost? d.current = some s.form then
          follow g (d.push ⟨n, s.form⟩) (position + 1) rest
        else .error (.inconsistent position)

/-- Rebuilds a derivation from a stored chain; a chain that fails names the first position
that does not follow. -/
def replay (g : Grammar) : List Step → Except DerivationError Derivation
  | [] => .error (.inconsistent 0)
  | s :: rest =>
    if s = Step.initial then follow g start 1 rest else .error (.inconsistent 0)

@[simp]
theorem steps_start : start.steps = [Step.initial] := rfl

@[simp]
theorem current_start : start.current = [Symbol.start] := rfl

@[simp]
theorem steps_push (d : Derivation) (m : Move) : (d.push m).steps = d.steps ++ [m.toStep] := by
  simp [steps, push]

@[simp]
theorem current_push (d : Derivation) (m : Move) : (d.push m).current = m.form := rfl

/-- Taking back a move that has just been made restores the derivation. -/
theorem undo_push (d : Derivation) (m : Move) : (d.push m).undo = .ok (m.toStep, d) := rfl

end Derivation

end Sentential
