/-!
# White space

Blanks around what users type are ignored. A character is blank if it has the Unicode
property `White_Space`; the zero-width space, the byte-order mark and the separators
U+001C–U+001F do not have it.
-/

namespace Sentential.Text

/-- The single code points and ranges of the property `White_Space`. -/
def blankRanges : List (Nat × Nat) :=
  [(0x09, 0x0d), (0x20, 0x20), (0x85, 0x85), (0xa0, 0xa0), (0x1680, 0x1680), (0x2000, 0x200a),
    (0x2028, 0x2029), (0x202f, 0x202f), (0x205f, 0x205f), (0x3000, 0x3000)]

def isBlank (c : Char) : Bool :=
  blankRanges.any fun (first, last) => first ≤ c.toNat && c.toNat ≤ last

def skipBlanks (cs : List Char) : List Char :=
  cs.dropWhile isBlank

def trimChars (cs : List Char) : List Char :=
  (skipBlanks (skipBlanks cs).reverse).reverse

def trim (s : String) : String :=
  String.ofList (trimChars s.toList)

/-- The pieces of a text between blanks, none of them empty. -/
def pieces (cs : List Char) : List (List Char) :=
  (cs.splitOnP isBlank).filter (· ≠ [])

end Sentential.Text
