/-!
# The 64-bit xxHash

The digest of a byte string with seed zero. The input is cut into little-endian words
of eight bytes; four words at a time feed four accumulators, which are then merged, and
what is left over is mixed in word by word and byte by byte before a final avalanche.
All arithmetic is modulo `2 ^ 64`.
-/

namespace Sentential.Hash.Xx64

def prime1 : UInt64 := 0x9E3779B185EBCA87
def prime2 : UInt64 := 0xC2B2AE3D27D4EB4F
def prime3 : UInt64 := 0x165667B19E3779F9
def prime4 : UInt64 := 0x85EBCA77C2B2AE63
def prime5 : UInt64 := 0x27D4EB2F165667C5

/-- Rotates a word left by `k` bits, for `0 < k < 64`. -/
def rotateLeft (x k : UInt64) : UInt64 :=
  (x <<< k) ||| (x >>> (64 - k))

/-- The number whose bytes, least significant first, are the given ones. -/
def littleEndian (bytes : List UInt8) : UInt64 :=
  bytes.foldr (fun b acc => (acc <<< 8) ||| b.toUInt64) 0

/-- Cuts a byte string into words of eight bytes and the fewer than eight left over. -/
def words : List UInt8 → List UInt64 × List UInt8
  | a :: b :: c :: d :: e :: f :: g :: h :: rest =>
    let (later, odd) := words rest
    (littleEndian [a, b, c, d, e, f, g, h] :: later, odd)
  | odd => ([], odd)

def absorb (acc word : UInt64) : UInt64 :=
  rotateLeft (acc + word * prime2) 31 * prime1

/-- The four accumulators of the bulk phase. -/
structure Lanes where
  first : UInt64
  second : UInt64
  third : UInt64
  fourth : UInt64

/-- The accumulators before any input, for seed zero. -/
def Lanes.initial : Lanes :=
  ⟨prime1 + prime2, prime2, 0, 0 - prime1⟩

/-- Feeds whole groups of four words to the accumulators; up to three words remain. -/
def Lanes.absorbAll (l : Lanes) : List UInt64 → Lanes × List UInt64
  | a :: b :: c :: d :: rest =>
    Lanes.absorbAll
      ⟨absorb l.first a, absorb l.second b, absorb l.third c, absorb l.fourth d⟩ rest
  | remaining => (l, remaining)

/-- Folds one accumulator into the merged state. -/
def mergeLane (acc lane : UInt64) : UInt64 :=
  (acc ^^^ absorb 0 lane) * prime1 + prime4

/-- One state from the four accumulators. -/
def Lanes.merge (l : Lanes) : UInt64 :=
  let sum := rotateLeft l.first 1 + rotateLeft l.second 7 + rotateLeft l.third 12
    + rotateLeft l.fourth 18
  [l.first, l.second, l.third, l.fourth].foldl mergeLane sum

/-- Mixes in a word that did not fill a group of four. -/
def mixWord (acc word : UInt64) : UInt64 :=
  rotateLeft (acc ^^^ absorb 0 word) 27 * prime1 + prime4

def mixByte (acc : UInt64) (byte : UInt8) : UInt64 :=
  rotateLeft (acc ^^^ byte.toUInt64 * prime5) 11 * prime1

/-- Mixes in the fewer than eight bytes at the end, four of them at once if there are. -/
def mixOdd (acc : UInt64) : List UInt8 → UInt64
  | a :: b :: c :: d :: rest =>
    let half := rotateLeft (acc ^^^ littleEndian [a, b, c, d] * prime1) 23 * prime2 + prime3
    rest.foldl mixByte half
  | rest => rest.foldl mixByte acc

/-- Spreads every bit of the state over the whole word. -/
def avalanche (acc : UInt64) : UInt64 :=
  let acc := (acc ^^^ (acc >>> 33)) * prime2
  let acc := (acc ^^^ (acc >>> 29)) * prime3
  acc ^^^ (acc >>> 32)

def digest (bytes : List UInt8) : UInt64 :=
  let (words, odd) := words bytes
  let (bulk, remaining) :=
    -- Short input never reaches the lanes.
    if words.length < 4 then (prime5, words)
    else
      let (lanes, remaining) := Lanes.initial.absorbAll words
      (lanes.merge, remaining)
  let acc := remaining.foldl mixWord (bulk + UInt64.ofNat bytes.length)
  avalanche (mixOdd acc odd)

end Sentential.Hash.Xx64
