import Sentential.Json

/-!
# Printing JSON

A value is printed on one line without blanks, or indented by two blanks a level with every
member and item on a line of its own. Empty lists and objects stay closed up. In strings the
quote, the backslash and the control characters are escaped, all else is written as it is.
-/

namespace Sentential.Json

/-- How the parts of a value are set out. -/
inductive Layout where
  | compact
  | indented
deriving DecidableEq

/-- What separates the parts of a list at a given depth: a line break with its indentation, or
nothing. -/
def Layout.gap : Layout → Nat → List Char
  | .compact, _ => []
  | .indented, depth => '\n' :: List.replicate (2 * depth) ' '

def Layout.colon : Layout → List Char
  | .compact => [':']
  | .indented => [':', ' ']

def hexDigit (n : Nat) : Char :=
  Nat.digitChar n

def hexQuad (code : Nat) : List Char :=
  [hexDigit (code / 4096 % 16), hexDigit (code / 256 % 16), hexDigit (code / 16 % 16),
    hexDigit (code % 16)]

/-- A character inside a string literal: short escapes where there is one, numbers for the
other control characters. -/
def escapeChar (c : Char) : List Char :=
  if c = '"' then ['\\', '"']
  else if c = '\\' then ['\\', '\\']
  else if c = '\n' then ['\\', 'n']
  else if c = '\r' then ['\\', 'r']
  else if c = '\t' then ['\\', 't']
  else if c = '\x08' then ['\\', 'b']
  else if c = '\x0c' then ['\\', 'f']
  else if c.toNat < 0x20 then '\\' :: 'u' :: hexQuad c.toNat
  else [c]

def StringPart.chars : StringPart → List Char
  | .char c => escapeChar c
  | .half code => '\\' :: 'u' :: hexQuad code

def quoted (parts : List StringPart) : List Char :=
  '"' :: parts.flatMap StringPart.chars ++ ['"']

mutual

/-- A value at a given depth. -/
def render (layout : Layout) (depth : Nat) : Json → List Char
  | .null => ['n', 'u', 'l', 'l']
  | .bool true => ['t', 'r', 'u', 'e']
  | .bool false => ['f', 'a', 'l', 's', 'e']
  | .number lexeme => lexeme
  | .string parts => quoted parts
  | .array [] => ['[', ']']
  | .array (v :: vs) =>
    '[' :: layout.gap (depth + 1) ++ render layout (depth + 1) v
      ++ renderItems layout (depth + 1) vs ++ layout.gap depth ++ [']']
  | .object [] => ['{', '}']
  | .object ((key, v) :: ms) =>
    '{' :: layout.gap (depth + 1) ++ quoted key ++ layout.colon
      ++ render layout (depth + 1) v
      ++ renderMembers layout (depth + 1) ms ++ layout.gap depth ++ ['}']

/-- The items of a list after the first, each behind a comma. -/
def renderItems (layout : Layout) (depth : Nat) : List Json → List Char
  | [] => []
  | v :: vs => ',' :: layout.gap depth ++ render layout depth v ++ renderItems layout depth vs

/-- The members of an object after the first, each behind a comma. -/
def renderMembers (layout : Layout) (depth : Nat) :
    List (List StringPart × Json) → List Char
  | [] => []
  | (key, v) :: ms =>
    ',' :: layout.gap depth ++ quoted key ++ layout.colon ++ render layout depth v
      ++ renderMembers layout depth ms

end

def print (layout : Layout) (v : Json) : String :=
  String.ofList (render layout 0 v)

end Sentential.Json
