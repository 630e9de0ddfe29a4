/-!
# Rule ordinals and their keys

Rules are numbered from one. The first thirty-five ordinals have a label of one
character, the digits `1`–`9` and then `A`–`Z`, which is also the key that selects the
rule. Later rules have no label and cannot be selected by a key.
-/

namespace Sentential

/-- The position of a rule in its grammar, counted from one, as a machine word. -/
abbrev Ordinal := UInt64

namespace Ordinal

/-- The ordinal of the rule at an index counted from zero. It is one above the index, and so the largest
index has none. -/
def ofIndex? (index : UInt64) : Option Ordinal :=
  if index.toNat + 1 < UInt64.size then some (index + 1) else none

/-- The labels of the ordinals from one on. -/
def labels : List Char := "123456789ABCDEFGHIJKLMNOPQRSTUVWXYZ".toList

/-- The label of an ordinal; zero and the ordinals past the last label have none. -/
def label? (n : Ordinal) : Option Char :=
  if n = 0 then none else labels[n.toNat - 1]?

/-- The ordinal a key selects. Letters select in either case; zero selects nothing. -/
def ofKey? (key : Char) : Option Ordinal :=
  if '1' ≤ key ∧ key ≤ '9' then some (UInt64.ofNat (key.toNat - '0'.toNat))
  else if 'a' ≤ key ∧ key ≤ 'z' then some (UInt64.ofNat (key.toNat - 'a'.toNat + 10))
  else if 'A' ≤ key ∧ key ≤ 'Z' then some (UInt64.ofNat (key.toNat - 'A'.toNat + 10))
  else none

/-- The ordinal a key selects among `count` rules. -/
def ofKeyWithin? (count : Nat) (key : Char) : Option Ordinal :=
  (ofKey? key).filter fun n => n.toNat ≤ count

end Ordinal

end Sentential
