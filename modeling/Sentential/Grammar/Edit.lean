import Sentential.Grammar

/-!
# Edits of a grammar

Authoring proceeds by single edits. Each is checked against the alphabets and rules as
they stand and either yields the next grammar or is rejected with its cause; the checks
follow a fixed order, so an edit with several faults reports the first.
-/

namespace Sentential

/-- A part without which a grammar cannot be saved. -/
inductive Grammar.Part where
  | terminals
  | nonTerminals
  | start
  | rules
deriving DecidableEq

/-- How a message names a missing part. -/
def Grammar.Part.absence : Grammar.Part → String
  | .terminals => "no terminals defined"
  | .nonTerminals => "no non-terminals defined"
  | .start => "start symbol missing"
  | .rules => "no rules defined"

/-- Why an edit was rejected or a grammar cannot be saved. -/
inductive GrammarError where
  | invalidSymbol (input : String) (expected : Symbol.Kind)
  | duplicateSymbol (symbol : Char)
  | protectedSymbol (symbol : Char)
  | symbolNotFound (symbol : Char)
  | symbolInUse (symbol : Char)
  | invalidRuleLeft (input : String)
  | invalidRuleRight (input : String)
  | trivialRule (left : Char)
  | duplicateRule (rule : Rule)
  | ruleLimitExceeded
  | ruleNotFound (ordinal : Ordinal)
  | incomplete (part : Grammar.Part)
deriving DecidableEq

def GrammarError.message : GrammarError → String
  | .invalidSymbol input expected => s!"'{input}' is not a valid {expected.name}"
  | .duplicateSymbol c => s!"symbol '{c}' is already defined"
  | .protectedSymbol c => s!"the start symbol '{c}' cannot be removed"
  | .symbolNotFound c => s!"symbol '{c}' is not defined"
  | .symbolInUse c => s!"symbol '{c}' is used by an existing rule"
  | .invalidRuleLeft input =>
    s!"left-hand side '{input}' must be a single defined non-terminal"
  | .invalidRuleRight input =>
    s!"right-hand side '{input}' contains an undefined symbol or is empty"
  | .trivialRule c => s!"rule {c} -> {c} rewrites a symbol into itself"
  | .duplicateRule r => s!"rule {r.text} already exists"
  | .ruleLimitExceeded => s!"a grammar holds at most {Grammar.maxRules} rules"
  | .ruleNotFound n => s!"there is no rule {n.toNat}"
  | .incomplete part => s!"grammar is incomplete: {part.absence}"

/-- A single step of authoring. Symbols and rules are added as typed; the symbol or the rule
to remove is already known to be one symbol or one ordinal. -/
inductive Edit where
  | addTerminal (input : String)
  | addNonTerminal (input : String)
  | removeTerminal (symbol : Char)
  | removeNonTerminal (symbol : Char)
  | addRule (left right : String)
  | removeRule (ordinal : Ordinal)
deriving DecidableEq

namespace Grammar

def readSymbol (kind : Symbol.Kind) (input : String) : Except GrammarError Char :=
  match Symbol.sole? input.toList with
  | some c => if kind.admits c then .ok c else .error (.invalidSymbol input kind)
  | none => .error (.invalidSymbol input kind)

def addTerminal (g : Grammar) (input : String) : Except GrammarError Grammar := do
  let c ← readSymbol .terminal input
  if c ∈ g.terminals then throw (.duplicateSymbol c)
  return { g with terminals := g.terminals ++ [c] }

def addNonTerminal (g : Grammar) (input : String) : Except GrammarError Grammar := do
  let c ← readSymbol .nonTerminal input
  if c ∈ g.nonTerminals then throw (.duplicateSymbol c)
  return { g with nonTerminals := g.nonTerminals ++ [c] }

/-- A symbol may be removed from an alphabet that lists it unless some rule mentions it. -/
def checkRemoval (g : Grammar) (alphabet : List Char) (c : Char) : Except GrammarError Unit := do
  if c ∉ alphabet then throw (.symbolNotFound c)
  if g.rules.any (·.mentions c) then throw (.symbolInUse c)

/-- Removes a terminal that no rule mentions. -/
def removeTerminal (g : Grammar) (c : Char) : Except GrammarError Grammar := do
  g.checkRemoval g.terminals c
  return { g with terminals := g.terminals.erase c }

/-- Removes a non-terminal that no rule mentions; the start symbol always stays. -/
def removeNonTerminal (g : Grammar) (c : Char) : Except GrammarError Grammar := do
  if c = Symbol.start then throw (.protectedSymbol c)
  g.checkRemoval g.nonTerminals c
  return { g with nonTerminals := g.nonTerminals.erase c }

/-- Reads the left-hand side of a rule: one declared non-terminal. -/
def readLeft (g : Grammar) (input : String) : Except GrammarError Char :=
  match Symbol.sole? input.toList with
  | some c => if c ∈ g.nonTerminals then .ok c else .error (.invalidRuleLeft input)
  | none => .error (.invalidRuleLeft input)

/-- Reads the right-hand side of a rule: a non-empty word over blanks and declared symbols. -/
def readRight (g : Grammar) (input : String) : Except GrammarError Word :=
  let w := input.toList
  if w ≠ [] ∧ w.all fun c => c == Symbol.blank || g.declares c then .ok w
  else .error (.invalidRuleRight input)

/-- Appends a rule that is neither trivial nor listed already, while there is room. -/
def addRule (g : Grammar) (left right : String) : Except GrammarError Grammar := do
  let rule : Rule := ⟨← g.readLeft left, ← g.readRight right⟩
  -- The limit comes last, so a full grammar still reports a faulty rule.
  if rule.isTrivial then throw (.trivialRule rule.left)
  if rule ∈ g.rules then throw (.duplicateRule rule)
  if maxRules ≤ g.rules.length then throw .ruleLimitExceeded
  return { g with rules := g.rules ++ [rule] }

/-- Removes the rule with a given ordinal; later rules move up. -/
def removeRule (g : Grammar) (n : Ordinal) : Except GrammarError Grammar := do
  if n = 0 ∨ g.rules.length < n.toNat then throw (.ruleNotFound n)
  return { g with rules := g.rules.eraseIdx (n.toNat - 1) }

/-- Carries out one edit, or rejects it with the first thing wrong with it. -/
def edit (g : Grammar) : Edit → Except GrammarError Grammar
  | .addTerminal input => g.addTerminal input
  | .addNonTerminal input => g.addNonTerminal input
  | .removeTerminal c => g.removeTerminal c
  | .removeNonTerminal c => g.removeNonTerminal c
  | .addRule left right => g.addRule left right
  | .removeRule n => g.removeRule n

def missingPart? (g : Grammar) : Option Part :=
  if g.terminals = [] then some .terminals
  else if g.nonTerminals = [] then some .nonTerminals
  else if Symbol.start ∉ g.nonTerminals then some .start
  else if g.rules = [] then some .rules
  else none

end Grammar

end Sentential
