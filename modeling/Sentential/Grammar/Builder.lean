import Sentential.Grammar.Edit
import Sentential.Notice

/-!
# Building a grammar

A builder holds the grammar under construction and, as a notice, the rejection of the
latest edit. A rejected edit changes nothing else; while its notice is live the grammar
cannot be saved.
-/

namespace Sentential

structure Builder where
  draft : Grammar
  rejection : Option (Notice GrammarError)
  window : Nat

namespace Builder

/-- A builder that knows the start symbol alone. -/
def empty (window : Nat) : Builder where
  draft := Grammar.bare
  rejection := none
  window := window

def ofGrammar (g : Grammar) (window : Nat) : Builder where
  draft := g
  rejection := none
  window := window

/-- Tries an edit at a given time: an accepted edit leaves no notice behind, a rejected one
leaves its own. -/
def submit (b : Builder) (now : Nat) (e : Edit) : Option GrammarError × Builder :=
  match b.draft.edit e with
  | .ok g => (none, { b with draft := g, rejection := none })
  | .error cause => (some cause, { b with rejection := some ⟨cause, now⟩ })

def clear (b : Builder) : Builder :=
  { b with draft := Grammar.bare, rejection := none }

def dismiss (b : Builder) : Builder :=
  { b with rejection := none }

/-- The rejection that is still live at a given time. -/
def pending? (b : Builder) (now : Nat) : Option GrammarError :=
  b.rejection.bind (·.live? b.window now)

/-- Whether the grammar can be saved at a given time. -/
def isValid (b : Builder) (now : Nat) : Bool :=
  b.draft.missingPart?.isNone && (b.pending? now).isNone

/-- The finished grammar: a missing part is reported before a live rejection. -/
def build (b : Builder) (now : Nat) : Except GrammarError Grammar :=
  match b.draft.missingPart?, b.pending? now with
  | some part, _ => .error (.incomplete part)
  | none, some cause => .error cause
  | none, none => .ok b.draft

end Builder

end Sentential
