import Sentential.Proofs.Json.Token
import Sentential.Proofs.Text.Utf8

/-!
# What a fingerprint stands for

The bytes that are hashed for a list of rules are records without any mark between them. Each can still
be told from what follows it: the encoding of its symbol tells its end, the length behind it has four
bytes, and the length tells where the right-hand side ends. So the bytes determine the rules, and since
sixteen digits determine a digest, two lists can only share a fingerprint if the hash takes two byte
strings to one digest.
-/

namespace Sentential.Fingerprint

/-! ### Records -/

theorem map_toNat_lengthBytes {n : Nat} (hn : n < UInt32.size) :
    (lengthBytes n).map UInt8.toNat =
      [n % 256, n / 256 % 256, n / 65536 % 256, n / 16777216 % 256] := by
  have hword : (UInt32.ofNat n).toNat = n := Nat.mod_eq_of_lt hn
  simp [lengthBytes, UInt32.toNat_toUInt8, UInt32.toNat_shiftRight, Nat.shiftRight_eq_div_pow, hword]

/-- A length is told by its bytes as long as it takes no more than four. -/
theorem lengthBytes_inj {m n : Nat} (hm : m < UInt32.size) (hn : n < UInt32.size)
    (h : lengthBytes m = lengthBytes n) : m = n := by
  have hvalues := congrArg (List.map UInt8.toNat) h
  rw [map_toNat_lengthBytes hm, map_toNat_lengthBytes hn] at hvalues
  simp only [List.cons.injEq, and_true] at hvalues
  unfold UInt32.size at hm hn
  omega

/-- A rule whose right-hand side is no longer than a record can tell. -/
def Fits (r : Rule) : Prop :=
  (utf8 r.right).length < UInt32.size

instance (r : Rule) : Decidable (Fits r) :=
  inferInstanceAs (Decidable (_ < _))

theorem ruleBytes_append_inj {r q : Rule} {x y : List UInt8} (hr : Fits r) (hq : Fits q)
    (h : ruleBytes r ++ x = ruleBytes q ++ y) : r = q ∧ x = y := by
  simp only [ruleBytes, List.append_assoc] at h
  obtain ⟨hleft, h⟩ := utf8EncodeChar_append_inj h
  obtain ⟨hlengthBytes, h⟩ := List.append_inj h rfl
  have hlength := lengthBytes_inj hr hq hlengthBytes
  obtain ⟨hright, hrest⟩ := List.append_inj h hlength
  refine ⟨?_, hrest⟩
  obtain ⟨left, right⟩ := r
  obtain ⟨left', right'⟩ := q
  rw [Rule.mk.injEq]
  exact ⟨hleft, utf8_injective hright⟩

theorem ruleBytes_ne_nil (r : Rule) : ruleBytes r ≠ [] := by
  simp [ruleBytes, String.utf8EncodeChar_ne_nil]

theorem bytes_cons (r : Rule) (rules : List Rule) : bytes (r :: rules) = ruleBytes r ++ bytes rules :=
  List.flatMap_cons

theorem bytes_inj {rules others : List Rule} (hrules : ∀ r ∈ rules, Fits r)
    (hothers : ∀ q ∈ others, Fits q) (h : bytes rules = bytes others) : rules = others := by
  induction rules generalizing others with
  | nil =>
    cases others with
    | nil => rfl
    | cons q rest =>
      rw [bytes_cons] at h
      exact absurd (List.append_eq_nil_iff.mp h.symm).1 (ruleBytes_ne_nil q)
  | cons r rest ih =>
    cases others with
    | nil =>
      rw [bytes_cons] at h
      exact absurd (List.append_eq_nil_iff.mp h).1 (ruleBytes_ne_nil r)
    | cons q rest' =>
      obtain ⟨hr, hrest⟩ := List.forall_mem_cons.mp hrules
      obtain ⟨hq, hrest'⟩ := List.forall_mem_cons.mp hothers
      rw [bytes_cons, bytes_cons] at h
      obtain ⟨rfl, hbytes⟩ := ruleBytes_append_inj hr hq h
      rw [ih hrest hrest' hbytes]

/-- A list of symbols, each spelled like a rule with that symbol and nothing on its right-hand side. -/
def spelled (cs : List Char) : Word :=
  cs.flatMap fun c => c :: List.replicate 4 '\x00'

theorem bytes_emptyRules (cs : List Char) : bytes (cs.map (⟨·, []⟩)) = utf8 (spelled cs) := by
  have hrule (c : Char) : ruleBytes ⟨c, []⟩ = utf8 (c :: List.replicate 4 '\x00') := by
    rw [utf8_cons, ruleBytes, utf8_nil, List.append_nil]
    rfl
  simp only [bytes, spelled, utf8, List.flatMap_map, List.flatMap_assoc]
  exact congrArg (cs.flatMap ·) (funext hrule)

theorem length_spelled_cons (c : Char) (cs : List Char) :
    (utf8 (spelled (c :: cs))).length = c.utf8Size + 4 + (utf8 (spelled cs)).length := by
  have hzeros : (utf8 (List.replicate 4 '\x00')).length = 4 := rfl
  rw [spelled, List.flatMap_cons, ← spelled, utf8_append, utf8_cons, List.length_append,
    List.length_append, String.length_utf8EncodeChar, hzeros]

theorem exists_length_spelled : ∃ cs, (utf8 (spelled cs)).length = UInt32.size := by
  have hstarts (n : Nat) : (utf8 (spelled (List.replicate n 'S'))).length = n * 5 := by
    induction n with
    | zero => rfl
    | succ n ih =>
      rw [List.replicate_succ, length_spelled_cons, ih]
      change 1 + 4 + n * 5 = _
      omega
  refine ⟨'я' :: List.replicate 858993458 'S', ?_⟩
  rw [length_spelled_cons, hstarts]
  rfl

/-- A right-hand side that is too long for its record can spell the records of other rules. -/
theorem bytes_not_injective : ¬ Function.Injective bytes := by
  intro hinjective
  obtain ⟨cs, hlength⟩ := exists_length_spelled
  have hbytes : bytes [⟨'S', spelled cs⟩] = bytes (('S' :: cs).map (⟨·, []⟩)) := by
    have hempty : ruleBytes ⟨'S', []⟩ = String.utf8EncodeChar 'S' ++ lengthBytes (UInt32.size) := by
      rfl
    rw [List.map_cons, bytes_cons, bytes_cons, bytes_emptyRules, hempty, ruleBytes, hlength]
    exact List.append_nil _
  have hrules := List.cons.inj (hinjective hbytes)
  have hright : spelled cs = [] := (Rule.mk.inj hrules.1).2
  rw [hright] at hlength
  cases hlength

/-! ### Digits -/

/-- The number that hexadecimal digits denote. -/
def hexNumber (cs : List Char) : Nat :=
  cs.foldl (fun n c => 16 * n + (Json.hexValue? c).getD 0) 0

theorem hexNumber_toDigits (n : Nat) : hexNumber (Nat.toDigits 16 n) = n := by
  induction n using Nat.strongRecOn with
  | ind n ih =>
    have hdigit {d : Nat} (hd : d < 16) : (Json.hexValue? (Nat.digitChar d)).getD 0 = d :=
      congrArg (Option.getD · 0) (Json.hexValue?_hexDigit d hd)
    rw [Nat.toDigits_eq_if (by decide)]
    split
    next hlt => simp [hexNumber, hdigit hlt]
    next hge =>
      rw [hexNumber, List.foldl_append, ← hexNumber, ih (n / 16) (by omega)]
      simp only [List.foldl_cons, List.foldl_nil, hdigit (Nat.mod_lt n (by decide))]
      omega

theorem hexNumber_zeros (k : Nat) (cs : List Char) :
    hexNumber (List.replicate k '0' ++ cs) = hexNumber cs := by
  have hzeros : (List.replicate k '0').foldl (fun n c => 16 * n + (Json.hexValue? c).getD 0) 0 = 0 := by
    induction k with
    | zero => rfl
    | succ k ih => exact ih
  rw [hexNumber, List.foldl_append, hzeros, hexNumber]

theorem hexadecimal_injective : Function.Injective hexadecimal := by
  intro a b h
  have hdigits := congrArg hexNumber (String.ofList_injective h)
  rw [hexNumber_zeros, hexNumber_zeros, hexNumber_toDigits, hexNumber_toDigits] at hdigits
  exact UInt64.toNat_inj.mp hdigits

/-! ### Fingerprints -/

/-- Two byte strings of which the hash makes one digest. -/
def Collide (x y : List UInt8) : Prop :=
  x ≠ y ∧ Hash.Xx64.digest x = Hash.Xx64.digest y

theorem ofRules_eq_iff {rules others : List Rule} :
    ofRules rules = ofRules others ↔ bytes rules = bytes others ∨ Collide (bytes rules) (bytes others) := by
  rw [ofRules, ofRules, hexadecimal_injective.eq_iff, digest, digest, Collide]
  constructor
  · intro h
    by_cases hbytes : bytes rules = bytes others
    · exact .inl hbytes
    · exact .inr ⟨hbytes, h⟩
  · rintro (hbytes | ⟨-, h⟩)
    · rw [hbytes]
    · exact h

/-- The bytes that are hashed determine the rules and their order. Two lists have one fingerprint only if
they are one list or if the hash takes their bytes to one digest. -/
theorem bytes_identify {rules others : List Rule} (hrules : ∀ r ∈ rules, Fits r)
    (hothers : ∀ q ∈ others, Fits q) :
    (bytes rules = bytes others ↔ rules = others) ∧
      (ofRules rules = ofRules others ↔
        rules = others ∨ Collide (bytes rules) (bytes others)) := by
  have hbytes : bytes rules = bytes others ↔ rules = others :=
    ⟨bytes_inj hrules hothers, congrArg bytes⟩
  exact ⟨hbytes, ofRules_eq_iff.trans (or_congr_left hbytes)⟩

/-- Two rules, and one rule that has the symbols of both in their order. -/
theorem bytes_identify_merged :
    (∀ r ∈ [⟨'S', ['а', 'A']⟩, ⟨'A', ['а']⟩], Fits r) ∧ (∀ q ∈ [⟨'S', ['а', 'A', 'A', 'а']⟩], Fits q) ∧
      bytes [⟨'S', ['а', 'A']⟩, ⟨'A', ['а']⟩] ≠ bytes [⟨'S', ['а', 'A', 'A', 'а']⟩] ∧
      (ofRules [⟨'S', ['а', 'A']⟩, ⟨'A', ['а']⟩] = ofRules [⟨'S', ['а', 'A', 'A', 'а']⟩] ↔
        Collide (bytes [⟨'S', ['а', 'A']⟩, ⟨'A', ['а']⟩]) (bytes [⟨'S', ['а', 'A', 'A', 'а']⟩])) := by
  have hsplit : ∀ r ∈ [⟨'S', ['а', 'A']⟩, ⟨'A', ['а']⟩], Fits r := by decide
  have hmerged : ∀ q ∈ [⟨'S', ['а', 'A', 'A', 'а']⟩], Fits q := by decide
  obtain ⟨hbytes, hfingerprint⟩ := bytes_identify hsplit hmerged
  have hne : ([⟨'S', ['а', 'A']⟩, ⟨'A', ['а']⟩] : List Rule) ≠ [⟨'S', ['а', 'A', 'A', 'а']⟩] := by
    decide
  exact ⟨hsplit, hmerged, hne ∘ hbytes.mp, hfingerprint.trans (or_iff_right hne)⟩

end Sentential.Fingerprint
