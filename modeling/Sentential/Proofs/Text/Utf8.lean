import Sentential.Fingerprint

/-!
# Reading encoded characters

The encoding of a character tells where it ends, so no encoding is the start of another. The bytes of a
text therefore determine its characters, one after another.
-/

namespace Sentential.Fingerprint

/-- Behind the encoding of a character whatever follows can be told from it. -/
theorem utf8EncodeChar_append_inj {c d : Char} {x y : List UInt8}
    (h : String.utf8EncodeChar c ++ x = String.utf8EncodeChar d ++ y) : c = d ∧ x = y := by
  have hc : ((String.utf8EncodeChar c ++ x).toByteArray).utf8DecodeChar? 0 = some c := by
    rw [List.toByteArray_append, ByteArray.utf8DecodeChar?_utf8EncodeChar_append]
  have hd : ((String.utf8EncodeChar d ++ y).toByteArray).utf8DecodeChar? 0 = some d := by
    rw [List.toByteArray_append, ByteArray.utf8DecodeChar?_utf8EncodeChar_append]
  rw [h, hd] at hc
  obtain rfl := Option.some.inj hc
  exact ⟨rfl, List.append_cancel_left h⟩

theorem utf8_nil : utf8 [] = [] := rfl

theorem utf8_cons (c : Char) (w : Word) : utf8 (c :: w) = String.utf8EncodeChar c ++ utf8 w :=
  List.flatMap_cons

theorem utf8_append (v w : Word) : utf8 (v ++ w) = utf8 v ++ utf8 w :=
  List.flatMap_append

theorem utf8_injective : Function.Injective utf8 := by
  intro v w h
  have hbytes : (String.ofList v).toByteArray = (String.ofList w).toByteArray := by
    rw [String.toByteArray_ofList, String.toByteArray_ofList]
    exact congrArg List.toByteArray h
  exact String.ofList_injective (String.toByteArray_inj.mp hbytes)

end Sentential.Fingerprint
