import Sentential.Symbol

/-!
# Production rules

A rule replaces one symbol by a word. Applied to a form it replaces the leftmost
occurrence of its left-hand symbol and leaves all else in place.
-/

namespace Sentential

/-- A production `left → right`; a right-hand side of `ъ` alone stands for the empty word. -/
structure Rule where
  left : Char
  right : Word
deriving DecidableEq

namespace Rule

/-- An epsilon rule replaces its left-hand symbol by nothing. -/
def isEpsilon (r : Rule) : Bool :=
  r.right == [Symbol.epsilon]

def replacement (r : Rule) : Word :=
  if r.isEpsilon then [] else r.right

/-- A trivial rule replaces a symbol by itself. -/
def isTrivial (r : Rule) : Bool :=
  r.right == [r.left]

def mentions (r : Rule) (c : Char) : Bool :=
  r.left == c || r.right.contains c

def applies (r : Rule) (form : Word) : Bool :=
  form.contains r.left

/-- Replaces the leftmost occurrence of the left-hand symbol, if there is one. -/
def applyLeftmost? (r : Rule) : Word → Option Word
  | [] => none
  | c :: rest =>
    if c = r.left then some (r.replacement ++ rest)
    else (r.applyLeftmost? rest).map (c :: ·)

/-- The plain text of a rule, as messages quote it. -/
def text (r : Rule) : String :=
  s!"{r.left} -> {String.ofList r.right}"

/-- A rule applies exactly to the forms that hold its left-hand symbol. -/
theorem isSome_applyLeftmost? (r : Rule) (form : Word) :
    (r.applyLeftmost? form).isSome = r.applies form := by
  induction form with
  | nil => rfl
  | cons c rest ih =>
    simp only [applyLeftmost?, applies, List.contains_cons]
    split
    next h => simp [h]
    next h =>
      have hne : (r.left == c) = false := by simpa using fun heq => h heq.symm
      simp only [Option.isSome_map, ih, applies, hne, Bool.false_or]

end Rule

end Sentential
