import Sentential.Fingerprint
import Sentential.Ordinal

/-!
# Grammars

A grammar lists its terminals, its non-terminals and its rules, each in the order of
authoring, and starts from the fixed start symbol. A grammar under construction has the
same shape; `Grammar.WellFormed` states what authoring maintains.
-/

namespace Sentential

/-- Two alphabets and an ordered list of rules. -/
structure Grammar where
  terminals : List Char
  nonTerminals : List Char
  rules : List Rule
deriving DecidableEq

namespace Grammar

def maxRules : Nat := 99

/-- The bare grammar, which knows the start symbol alone. -/
def bare : Grammar where
  terminals := []
  nonTerminals := [Symbol.start]
  rules := []

/-- The rule with a given ordinal, counted from one. -/
def rule? (g : Grammar) (n : Ordinal) : Option Rule :=
  if n = 0 then none else g.rules[n.toNat - 1]?

/-- Whether a symbol is one of the grammar's non-terminals. -/
def isNonTerminal (g : Grammar) (c : Char) : Bool :=
  g.nonTerminals.contains c

def declares (g : Grammar) (c : Char) : Bool :=
  g.terminals.contains c || g.nonTerminals.contains c

/-- Whether a form holds no non-terminal and is thus a word of the language. -/
def isWord (g : Grammar) (form : Word) : Bool :=
  !form.any g.isNonTerminal

/-- The identity under which history for this grammar is stored. -/
def id (g : Grammar) : String :=
  Fingerprint.ofRules g.rules

/-- A rule fits a grammar if its left-hand side is a declared non-terminal, its right-hand
side is a non-empty word over blanks and declared symbols, and the two sides differ. -/
structure Admits (g : Grammar) (r : Rule) : Prop where
  left_mem : r.left ∈ g.nonTerminals
  right_ne_nil : r.right ≠ []
  right_declared : ∀ c ∈ r.right, c = Symbol.blank ∨ c ∈ g.terminals ∨ c ∈ g.nonTerminals
  right_ne_left : r.right ≠ [r.left]

/-- The invariants of authoring: distinct letters in each alphabet, the start symbol first
among the non-terminals, and at most `maxRules` distinct rules that fit the alphabets. -/
structure WellFormed (g : Grammar) : Prop where
  terminals_nodup : g.terminals.Nodup
  terminals_letters : ∀ c ∈ g.terminals, Symbol.isTerminal c = true
  nonTerminals_nodup : g.nonTerminals.Nodup
  nonTerminals_letters : ∀ c ∈ g.nonTerminals, Symbol.isNonTerminal c = true
  start_first : g.nonTerminals.head? = some Symbol.start
  rules_admitted : ∀ r ∈ g.rules, g.Admits r
  rules_nodup : g.rules.Nodup
  rules_length : g.rules.length ≤ maxRules

theorem bare_wellFormed : bare.WellFormed where
  terminals_nodup := List.nodup_nil
  terminals_letters := by simp [bare]
  nonTerminals_nodup := by simp [bare]
  nonTerminals_letters := by simp [bare, Symbol.start, Symbol.isNonTerminal]
  start_first := rfl
  rules_admitted := by simp [bare]
  rules_nodup := List.nodup_nil
  rules_length := Nat.zero_le _

end Grammar

end Sentential
