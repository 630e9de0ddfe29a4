import Sentential.Derivation

/-!
# Display of rules, forms and chains

What users read differs from what is stored: the reserved terminal is shown as `ε`, and
blanks are made visible or unbreakable. These texts are never read back.
-/

namespace Sentential.Display

def epsilon : Char := 'ε'

/-- How a blank is shown inside a rule. -/
def ruleBlank : Char := '_'

/-- How a blank is shown inside a word: as a blank that does not break lines. -/
def wordBlank : Char := '\u00a0'

def arrow : Char := '⇒'

/-- Shows a symbol, with a given stand-in for blanks. -/
def symbol (blank c : Char) : Char :=
  if c = Symbol.epsilon then epsilon
  else if c = Symbol.blank then blank
  else c

def ruleRight (w : Word) : String :=
  String.ofList (w.map (symbol ruleBlank))

/-- The characters shown for a form; the empty one is shown as `ε`. -/
def formChars (w : Word) : List Char :=
  if w = [] then [epsilon] else w.map (symbol wordBlank)

def form (w : Word) : String :=
  String.ofList (formChars w)

def rule (r : Rule) : String :=
  s!"{r.left} → {ruleRight r.right}"

def numberedRule (n : Ordinal) (r : Rule) : String :=
  match Ordinal.label? n with
  | some c => s!"[{c}] {rule r}"
  | none => s!"[#{n.toNat}] {rule r}"

/-- How a chain names a rule: by its label, else by its number. -/
def ordinalChars (n : Ordinal) : List Char :=
  match Ordinal.label? n with
  | some c => [c]
  | none => Nat.toDigits 10 n.toNat

/-- The characters shown for one step of a chain. -/
def stepChars (s : Step) : List Char :=
  match s.ordinal with
  | some n => [' ', arrow, '('] ++ ordinalChars n ++ [')', ' '] ++ formChars s.form
  | none => formChars s.form

def chain (steps : List Step) : String :=
  String.ofList (steps.flatMap stepChars)

end Sentential.Display
