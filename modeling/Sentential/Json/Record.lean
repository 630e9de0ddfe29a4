import Sentential.Json

/-!
# Values inside JSON

How strings, numbers, lists and records are written as JSON values and found in them. A
record is an object, whose unknown members are ignored and whose known members occur at most
once, or a list of its fields in their fixed order. In an object a field may be absent; a
list may stop early only before fields that are declared optional at the end.
-/

namespace Sentential.Json

def ofChars (cs : List Char) : Json :=
  .string (partsOf cs)

def ofString (s : String) : Json :=
  ofChars s.toList

def ofNat (n : Nat) : Json :=
  .number (Nat.toDigits 10 n)

/-- A record of the fields that are present. -/
def ofFields (fields : List (String × Option Json)) : Json :=
  .object (fields.filterMap fun (name, v) => v.map fun v => (partsOf name.toList, v))

def chars? : Json → Option (List Char)
  | .string parts => textOf? parts
  | _ => none

def string? (v : Json) : Option String :=
  v.chars?.map String.ofList

def bool? : Json → Option Bool
  | .bool b => some b
  | _ => none

/-- The machine word that a value denotes: an integer literal without sign, fraction and
exponent, below `2 ^ 64`. -/
def word? : Json → Option UInt64
  | .number lexeme =>
    if lexeme.all Char.isDigit then
      let n := lexeme.foldl (fun n c => 10 * n + (c.toNat - '0'.toNat)) 0
      if n < UInt64.size then some (UInt64.ofNat n) else none
    else none
  | _ => none

def list? {α : Type} (item? : Json → Option α) : Json → Option (List α)
  | .array items => items.mapM item?
  | _ => none

def required {α : Type} (read? : Json → Option α) : Option Json → Option α
  | some v => read? v
  | none => none

/-- A field that may be absent or null. -/
def optional {α : Type} (read? : Json → Option α) : Option Json → Option (Option α)
  | none | some .null => some none
  | some v => (read? v).map some

/-- A field that may be absent and then has a given value, but must not be null. -/
def withDefault {α : Type} (default : α) (read? : Json → Option α) : Option Json → Option α
  | some v => read? v
  | none => some default

/-- The value under a key that occurs at most once. -/
def unique? (members : List (List Char × Json)) (name : String) : Option (Option Json) :=
  match members.filter (·.1 = name.toList) with
  | [] => some none
  | [(_, v)] => some (some v)
  | _ => none

/-- The fields of a record, in order. As a list it has at least `least` of them. -/
def record? (names : List String) (least : Nat) : Json → Option (List (Option Json))
  | .object members => do
    let members ← members.mapM fun (key, v) => (textOf? key).map fun key => (key, v)
    names.mapM (unique? members)
  | .array items =>
    if least ≤ items.length ∧ items.length ≤ names.length then
      some (items.map some ++ List.replicate (names.length - items.length) none)
    else none
  | _ => none

@[simp]
theorem chars?_ofChars (cs : List Char) : (ofChars cs).chars? = some cs := by
  simp [ofChars, chars?]

@[simp]
theorem string?_ofString (s : String) : (ofString s).string? = some s := by
  simp [ofString, string?]

end Sentential.Json
