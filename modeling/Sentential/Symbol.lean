/-!
# Symbols

Every symbol of a grammar is exactly one character. Terminals are the lowercase
Cyrillic letters `а`–`я`, non-terminals the uppercase Latin letters `A`–`Z`, and a
blank may stand inside words without being declared. One terminal is reserved: alone
on the right of a rule it denotes the empty word.
-/

namespace Sentential

/-- A word or sentential form: its symbols from left to right. -/
abbrev Word := List Char

namespace Symbol

def epsilon : Char := 'ъ'

def start : Char := 'S'

/-- The undeclared symbol that words carry along unchanged. -/
def blank : Char := ' '

/-- A terminal is a letter of the unbroken range `а`–`я`, which leaves out `ё`. -/
def isTerminal (c : Char) : Bool :=
  'а' ≤ c && c ≤ 'я'

/-- A non-terminal is a capital Latin letter. -/
def isNonTerminal (c : Char) : Bool :=
  'A' ≤ c && c ≤ 'Z'

inductive Kind where
  | terminal
  | nonTerminal
  | blank
deriving DecidableEq

def Kind.name : Kind → String
  | .terminal => "terminal"
  | .nonTerminal => "non-terminal"
  | .blank => "blank"

def Kind.admits : Kind → Char → Bool
  | .terminal, c => isTerminal c
  | .nonTerminal, c => isNonTerminal c
  | .blank, c => c == Symbol.blank

/-- The kind of a character; a character outside all three cannot occur in a grammar. -/
def kind? (c : Char) : Option Kind :=
  if isTerminal c then some .terminal
  else if isNonTerminal c then some .nonTerminal
  else if c = blank then some .blank
  else none

/-- The symbol that a text consists of, if it is exactly one. -/
def sole? : List Char → Option Char
  | [c] => some c
  | _ => none

theorem sole?_eq_some_iff {cs : List Char} {c : Char} : sole? cs = some c ↔ cs = [c] := by
  match cs with
  | [] => simp [sole?]
  | [d] => simp [sole?]
  | _ :: _ :: _ => simp [sole?]

/-- The alphabets of terminals and non-terminals share no letter. -/
theorem isNonTerminal_eq_false_of_isTerminal {c : Char} (h : isTerminal c = true) :
    isNonTerminal c = false := by
  simp only [isTerminal, Bool.and_eq_true, decide_eq_true_eq] at h
  simp only [isNonTerminal, Bool.and_eq_false_iff, decide_eq_false_iff_not]
  right
  intro hle
  exact absurd (Char.le_trans h.1 hle) (by decide)

end Symbol

end Sentential
