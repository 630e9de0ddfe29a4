import Sentential.Json

/-!
# Reading JSON

The reader takes one value and leaves the rest of the text. It checks the whole syntax: the
form of numbers, the escapes, and that no control character stands bare in a string. What a
value means, whether halves of surrogate pairs match or a number is in range, is left to
those who read it.
-/

namespace Sentential.Json

/-- The blanks that may stand between tokens. -/
def isSpace (c : Char) : Bool :=
  c == ' ' || c == '\t' || c == '\n' || c == '\r'

def skipSpace (cs : List Char) : List Char :=
  cs.dropWhile isSpace

def hexValue? (c : Char) : Option Nat :=
  if '0' ≤ c ∧ c ≤ '9' then some (c.toNat - '0'.toNat)
  else if 'a' ≤ c ∧ c ≤ 'f' then some (c.toNat - 'a'.toNat + 10)
  else if 'A' ≤ c ∧ c ≤ 'F' then some (c.toNat - 'A'.toNat + 10)
  else none

/-- The code that four hexadecimal digits denote. -/
def quadValue? (a b c d : Char) : Option Nat := do
  return (((← hexValue? a) * 16 + (← hexValue? b)) * 16 + (← hexValue? c)) * 16 + (← hexValue? d)

/-- The part that a numeric escape denotes. -/
def StringPart.ofCode (code : Nat) : StringPart :=
  if isHighHalf code || isLowHalf code then .half code else .char (Char.ofNat code)

/-- The character that a short escape denotes. -/
def shortEscape? (c : Char) : Option Char :=
  if c = '"' then some '"'
  else if c = '\\' then some '\\'
  else if c = '/' then some '/'
  else if c = 'b' then some '\x08'
  else if c = 'f' then some '\x0c'
  else if c = 'n' then some '\n'
  else if c = 'r' then some '\r'
  else if c = 't' then some '\t'
  else none

/-- Reads a string literal from behind its opening quote. -/
def readParts : List Char → Option (List StringPart × List Char)
  | '"' :: rest => some ([], rest)
  | '\\' :: 'u' :: a :: b :: c :: d :: rest =>
    match quadValue? a b c d with
    | none => none
    -- A half is kept as it is, for pairs are formed when the text is asked for.
    | some code => (readParts rest).map fun (ps, after) => (StringPart.ofCode code :: ps, after)
  | '\\' :: e :: rest =>
    match shortEscape? e with
    | none => none
    | some c => (readParts rest).map fun (ps, after) => (.char c :: ps, after)
  | c :: rest =>
    if c.toNat < 0x20 then none
    else (readParts rest).map fun (ps, after) => (.char c :: ps, after)
  | [] => none

def spanDigits (cs : List Char) : List Char × List Char :=
  (cs.takeWhile Char.isDigit, cs.dropWhile Char.isDigit)

def readDigits (cs : List Char) : Option (List Char × List Char) :=
  match spanDigits cs with
  | ([], _) => none
  | split => some split

/-- Reads an integer part, which starts with a zero only if it is zero. -/
def readWhole : List Char → Option (List Char × List Char)
  | '0' :: rest => some (['0'], rest)
  | cs => readDigits cs

def readFraction : List Char → Option (List Char × List Char)
  | '.' :: rest => (readDigits rest).map fun (ds, after) => ('.' :: ds, after)
  | cs => some ([], cs)

def readExponent : List Char → Option (List Char × List Char)
  | e :: sign :: rest =>
    if e = 'e' ∨ e = 'E' then
      if sign = '+' ∨ sign = '-' then
        (readDigits rest).map fun (ds, after) => (e :: sign :: ds, after)
      else (readDigits (sign :: rest)).map fun (ds, after) => (e :: ds, after)
    else some ([], e :: sign :: rest)
  | [e] => if e = 'e' ∨ e = 'E' then none else some ([], [e])
  | [] => some ([], [])

def readMagnitude (cs : List Char) : Option (List Char × List Char) := do
  let (whole, cs) ← readWhole cs
  let (fraction, cs) ← readFraction cs
  let (exponent, cs) ← readExponent cs
  return (whole ++ fraction ++ exponent, cs)

/-- Reads a number and keeps it as written. -/
def readNumber : List Char → Option (List Char × List Char)
  | '-' :: rest => (readMagnitude rest).map fun (lexeme, after) => ('-' :: lexeme, after)
  | cs => readMagnitude cs

mutual

/-- Reads a value behind any blanks. -/
def readValue : Nat → List Char → Option (Json × List Char)
  | 0, _ => none
  | fuel + 1, cs =>
    match skipSpace cs with
    | 'n' :: 'u' :: 'l' :: 'l' :: rest => some (.null, rest)
    | 't' :: 'r' :: 'u' :: 'e' :: rest => some (.bool true, rest)
    | 'f' :: 'a' :: 'l' :: 's' :: 'e' :: rest => some (.bool false, rest)
    | '"' :: rest => (readParts rest).map fun (parts, after) => (.string parts, after)
    | '[' :: rest =>
      match skipSpace rest with
      | ']' :: after => some (.array [], after)
      | inner => (readItems fuel inner).map fun (items, after) => (.array items, after)
    | '{' :: rest =>
      match skipSpace rest with
      | '}' :: after => some (.object [], after)
      | inner => (readMembers fuel inner).map fun (members, after) => (.object members, after)
    -- Nothing else can begin a value, so what is no number is no value.
    | other => (readNumber other).map fun (lexeme, after) => (.number lexeme, after)

/-- Reads the items of a list up to its closing bracket. -/
def readItems : Nat → List Char → Option (List Json × List Char)
  | 0, _ => none
  | fuel + 1, cs =>
    match readValue fuel cs with
    | none => none
    | some (v, cs) =>
      match skipSpace cs with
      | ']' :: after => some ([v], after)
      | ',' :: rest => (readItems fuel rest).map fun (vs, after) => (v :: vs, after)
      | _ => none

/-- Reads the members of an object up to its closing brace. -/
def readMembers : Nat → List Char → Option (List (List StringPart × Json) × List Char)
  | 0, _ => none
  | fuel + 1, cs =>
    match skipSpace cs with
    | '"' :: rest =>
      match readParts rest with
      | none => none
      | some (key, cs) =>
        match skipSpace cs with
        | ':' :: rest =>
          match readValue fuel rest with
          | none => none
          | some (v, cs) =>
            match skipSpace cs with
            | '}' :: after => some ([(key, v)], after)
            | ',' :: rest =>
              (readMembers fuel rest).map fun (ms, after) => ((key, v) :: ms, after)
            | _ => none
        | _ => none
    | _ => none

end

/-- Reads a text that holds one value and nothing else but blanks. Every level of nesting
takes a character, so twice the length bounds the recursion. -/
def ofChars? (cs : List Char) : Option Json :=
  match readValue (2 * cs.length + 2) cs with
  | some (v, rest) => if skipSpace rest = [] then some v else none
  | none => none

def ofText? (text : String) : Option Json :=
  ofChars? text.toList

end Sentential.Json
