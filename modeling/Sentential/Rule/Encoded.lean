import Sentential.Fingerprint

/-!
# Rewriting an encoded form

A form is kept as UTF-8, and a rule is applied to its bytes. The leftmost occurrence of the left-hand
symbol is searched as a byte string, the form is cut in front of it and behind it, and the pieces are
joined in a buffer that was given its room beforehand. A cut inside a character or outside the form is
a fault, and so is room that would be less than none.
-/

namespace Sentential

namespace Encoded

/-- What cannot be done with an encoded text. -/
inductive Fault where
  | offBoundary (offset : Nat)
  | negativeRoom
deriving DecidableEq

/-- A byte that continues a character. -/
def isContinuation (b : UInt8) : Bool :=
  0x80 ≤ b && b < 0xC0

/-- Whether an offset lies between two characters or at an end of a text. -/
def isBoundary (text : List UInt8) (offset : Nat) : Bool :=
  match text[offset]? with
  | some b => offset == 0 || !isContinuation b
  | none => offset == text.length

/-- The least offset at which a text holds some bytes, of which there is at least one. -/
def offsetOf? (sought : List UInt8) : List UInt8 → Option Nat
  | [] => none
  | b :: rest =>
    if sought.isPrefixOf (b :: rest) then some 0 else (offsetOf? sought rest).map (· + 1)

def cutBefore (text : List UInt8) (offset : Nat) : Except Fault (List UInt8) :=
  if isBoundary text offset then .ok (text.take offset) else .error (.offBoundary offset)

def cutBehind (text : List UInt8) (offset : Nat) : Except Fault (List UInt8) :=
  if isBoundary text offset then .ok (text.drop offset) else .error (.offBoundary offset)

/-- What was written, and the room that was set aside for it. -/
structure Buffer where
  room : Nat
  bytes : List UInt8
deriving DecidableEq

end Encoded

open Encoded
open Fingerprint (utf8)

/-- Replaces the leftmost occurrence of the left-hand symbol in an encoded form, if there is one. -/
def Rule.rewriteEncoded? (r : Rule) (form : List UInt8) : Except Fault (Option Buffer) :=
  let symbol := String.utf8EncodeChar r.left
  let replacement := utf8 r.replacement
  match offsetOf? symbol form with
  | none => .ok none
  | some start => do
    if form.length < symbol.length then throw .negativeRoom
    let room := form.length - symbol.length + replacement.length
    let front ← cutBefore form start
    let back ← cutBehind form (start + symbol.length)
    return some ⟨room, front ++ replacement ++ back⟩

end Sentential
