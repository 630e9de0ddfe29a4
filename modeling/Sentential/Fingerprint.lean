import Sentential.Hash.Xx64
import Sentential.Rule

/-!
# Fingerprints of rule lists

A stored history belongs to one ordered list of rules, which it names by a fingerprint.
The rules are written as one byte string in which every part has a known length, so the
string determines the rules, and the fingerprint is its 64-bit digest in hexadecimal.
-/

namespace Sentential.Fingerprint

def utf8 (w : Word) : List UInt8 :=
  w.flatMap String.utf8EncodeChar

/-- A length as four bytes, least significant first. -/
def lengthBytes (n : Nat) : List UInt8 :=
  let word := UInt32.ofNat n
  [word.toUInt8, (word >>> 8).toUInt8, (word >>> 16).toUInt8, (word >>> 24).toUInt8]

/-- A rule as bytes: its left-hand symbol, the byte length of its right-hand side, and the
right-hand side. -/
def ruleBytes (r : Rule) : List UInt8 :=
  String.utf8EncodeChar r.left ++ lengthBytes (utf8 r.right).length ++ utf8 r.right

/-- The byte string that stands for a list of rules. -/
def bytes (rules : List Rule) : List UInt8 :=
  rules.flatMap ruleBytes

def digest (rules : List Rule) : UInt64 :=
  Hash.Xx64.digest (bytes rules)

/-- A word of 64 bits as sixteen lowercase hexadecimal digits. -/
def hexadecimal (word : UInt64) : String :=
  let digits := Nat.toDigits 16 word.toNat
  String.ofList (List.replicate (16 - digits.length) '0' ++ digits)

def ofRules (rules : List Rule) : String :=
  hexadecimal (digest rules)

end Sentential.Fingerprint
