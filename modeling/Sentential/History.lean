import Sentential.Calendar.Timestamp
import Sentential.Derivation

/-!
# Derivation histories

A history holds the derivation in progress and the completed derivations of one grammar.
A completed derivation is recorded once: two records are the same derivation exactly when
their chains are equal, whatever their names and times. The record made by the step that
completed the current form stays staged until that form is left.
-/

namespace Sentential

open Calendar (Timestamp)

/-- A completed derivation as it is kept: a name, its chain, the time, and its word. -/
structure Entry (τ : Type := Timestamp) where
  id : String
  steps : List Step
  timestamp : τ
  finalWord : Word
deriving DecidableEq

/-- A fresh name and the present time, for an entry that may have to be recorded. -/
structure Stamp where
  id : String
  time : Timestamp
deriving DecidableEq

/-- Records a chain under a stamp. The word is the last form, or empty if there is none. -/
def Entry.freeze (stamp : Stamp) (steps : List Step) : Entry where
  id := stamp.id
  steps := steps
  timestamp := stamp.time
  finalWord := (steps.getLast?.map (·.form)).getD []

/-- What became of a completed chain: a new entry, or the entry that already has it. -/
inductive Completion where
  | added (id : String)
  | duplicate (id : String)
deriving DecidableEq

def Completion.id : Completion → String
  | .added id => id
  | .duplicate id => id

/-- The result of a rule application; only a step that completes a derivation has a
completion. -/
structure Outcome where
  step : Step
  progress : Progress
  completion : Option Completion
deriving DecidableEq

structure Snapshot (τ : Type := Timestamp) where
  steps : List Step
  saved : List (Entry τ)
  isCompleted : Bool
  grammarId : String
deriving DecidableEq

/-- The derivation in progress and the completed derivations of one grammar. -/
structure History where
  grammarId : String
  derivation : Derivation
  saved : List Entry
  stagedId : Option String
deriving DecidableEq

namespace History

/-- The history of a grammar with which nothing has been derived. -/
def new (g : Grammar) : History where
  grammarId := g.id
  derivation := Derivation.start
  saved := []
  stagedId := none

def progress (g : Grammar) (h : History) : Progress :=
  g.progress h.derivation.current

/-- The entry recorded by the step that produced the current form. -/
def staged (h : History) : Option Entry :=
  h.stagedId.bind fun id => h.saved.find? (·.id = id)

/-- Keeps an entry unless one with the same chain is kept already. -/
def record (entry : Entry) (h : History) : Completion × History :=
  match h.saved.find? (·.steps = entry.steps) with
  | some existing => (.duplicate existing.id, h)
  | none => (.added entry.id, { h with saved := h.saved ++ [entry] })

/-- Keeps several entries, each unless its chain is kept already. -/
def recordAll (entries : List Entry) (h : History) : History :=
  entries.foldl (fun h entry => (h.record entry).2) h

/-- The history a snapshot stands for. One taken under other rules is dropped, and a chain
that does not replay leaves a fresh derivation; a completed chain stages its entry. -/
def restore (g : Grammar) : Option Snapshot → History
  | none => new g
  | some s =>
    if s.grammarId = g.id then
      -- Entries are taken over whether or not the chain replays.
      let kept := (new g).recordAll s.saved
      let h :=
        match Derivation.replay g s.steps with
        | .ok d => { kept with derivation := d }
        | .error _ => kept
      match h.progress g with
      | .inProgress => h
      | .completed =>
        { h with stagedId := (h.saved.find? (·.steps = h.derivation.steps)).map (·.id) }
    else new g

def snapshot (g : Grammar) (h : History) : Snapshot where
  steps := h.derivation.steps
  saved := h.saved
  isCompleted := h.progress g = .completed
  grammarId := h.grammarId

/-- Applies the rule at an index counted from zero. A step that completes the derivation
records its chain under the stamp and stages the entry. -/
def apply (g : Grammar) (stamp : Stamp) (index : UInt64) (h : History) :
    Except DerivationError (Outcome × History) :=
  match h.derivation.apply g index with
  | .error cause => .error cause
  | .ok (step, d) =>
    let moved := { h with derivation := d }
    match h.progress g, moved.progress g with
    | .inProgress, .completed =>
      let (completion, kept) := moved.record (Entry.freeze stamp d.steps)
      .ok (⟨step, .completed, some completion⟩, { kept with stagedId := some completion.id })
    | _, after => .ok (⟨step, after, none⟩, moved)

/-- Takes back the latest step; nothing is staged afterwards. -/
def undo (h : History) : Except DerivationError (Step × History) :=
  match h.derivation.undo with
  | .error cause => .error cause
  | .ok (step, d) => .ok (step, { h with derivation := d, stagedId := none })

/-- Starts over from the start symbol; completed derivations stay. -/
def reset (h : History) : History :=
  { h with derivation := Derivation.start, stagedId := none }

/-- Drops the derivation in progress, which is to start over; completed derivations stay. -/
def clear (h : History) : History :=
  h.reset

def remove (id : String) (h : History) : Bool × History :=
  let kept := h.saved.filter (·.id ≠ id)
  (kept.length ≠ h.saved.length,
    { h with
      saved := kept
      stagedId := if h.stagedId = some id then none else h.stagedId })

end History

end Sentential
