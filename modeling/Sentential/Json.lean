/-!
# JSON values as written

A value of this type records what a JSON text says without deciding more than its syntax
does. Numbers stay as their digits, and a string may hold halves of surrogate pairs, because
parts of a document that nobody reads only have to be well formed. Whoever reads a number or
a string decides what it denotes.
-/

namespace Sentential

/-- A piece of a string literal: a character, or half of a surrogate pair, which only an
escape can write. -/
inductive Json.StringPart where
  | char (c : Char)
  | half (code : Nat)
deriving DecidableEq

/-- A JSON value with its numbers as lexemes and its strings as parts. -/
inductive Json where
  | null
  | bool (b : Bool)
  | number (lexeme : List Char)
  | string (parts : List Json.StringPart)
  | array (items : List Json)
  | object (members : List (List Json.StringPart × Json))

namespace Json

def partsOf (cs : List Char) : List StringPart :=
  cs.map .char

/-- The code points below which the low halves begin and end. -/
def isHighHalf (code : Nat) : Bool := 0xd800 ≤ code && code < 0xdc00

def isLowHalf (code : Nat) : Bool := 0xdc00 ≤ code && code < 0xe000

/-- The text that parts denote; halves have to form pairs, the high one first. -/
def textOf? : List StringPart → Option (List Char)
  | [] => some []
  | .char c :: rest => (textOf? rest).map (c :: ·)
  | .half high :: .half low :: rest =>
    if isHighHalf high && isLowHalf low then
      (textOf? rest).map (Char.ofNat (0x10000 + (high - 0xd800) * 0x400 + (low - 0xdc00)) :: ·)
    else none
  | .half _ :: _ => none

@[simp]
theorem textOf?_partsOf (cs : List Char) : textOf? (partsOf cs) = some cs := by
  induction cs with
  | nil => rfl
  | cons c rest ih =>
    simp only [partsOf, List.map_cons, textOf?] at ih ⊢
    rw [ih]
    rfl

end Json

end Sentential
