import Sentential.Proofs.Disk.Files
import Sentential.Text.Lines

/-!
# Lines of a text

Cutting the bytes of a text at line feeds cuts the text at its line feeds, because no other
character has the byte of a line feed in its encoding. So a text that arrives as bytes has the lines
that it has as a text, and each of them is text again.
-/

namespace Sentential.Text

/-- The lines of a text. The last one need not end with a line feed, and there is none behind a final
line feed. -/
def textLines (text : String) : List String :=
  let lines := text.toList.splitOn '\n'
  (if lines.getLast? = some [] then lines.dropLast else lines).map String.ofList

theorem toList_loop_eq (bytes : ByteArray) (i : Nat) (before : List UInt8) :
    ByteArray.toList.loop bytes i before = before.reverse ++ bytes.data.toList.drop i := by
  fun_induction ByteArray.toList.loop bytes i before with
  | case1 i before hlt ih =>
    have hbound : i < bytes.data.toList.length := hlt
    have hbyte : bytes.get! i = bytes.data.toList[i] := by
      change bytes.data[i]! = _
      rw [getElem!_pos bytes.data i hlt, Array.getElem_toList]
    rw [ih, List.drop_eq_getElem_cons hbound, hbyte]
    simp
  | case2 i before hge =>
    have hbound : bytes.data.toList.length ≤ i := Nat.le_of_not_lt hge
    rw [List.drop_eq_nil_of_le hbound, List.append_nil]

theorem toList_toUTF8 (text : String) :
    text.toUTF8.toList = text.toList.flatMap String.utf8EncodeChar := by
  have hbytes : text.toUTF8 = (text.toList.flatMap String.utf8EncodeChar).toByteArray := by
    have htext : (String.ofList text.toList).toUTF8 = text.toList.utf8Encode :=
      String.toByteArray_ofList
    rwa [String.ofList_toList] at htext
  rw [hbytes, ByteArray.toList, toList_loop_eq, List.toList_data_toByteArray]
  rfl

/-- Only a line feed is encoded with the byte of a line feed. -/
theorem lineFeed_not_mem_utf8EncodeChar {c : Char} (hc : c ≠ '\n') :
    lineFeed ∉ String.utf8EncodeChar c := by
  have hval : c.val.toNat ≠ 10 := fun h => hc (Char.ext (UInt32.toNat_inj.mp h))
  have hbyte (n : Nat) : lineFeed = UInt8.ofNat n ↔ n % 256 = 10 := by
    rw [← UInt8.toNat_inj]
    exact eq_comm
  fun_cases String.utf8EncodeChar c with
  | _ =>
    simp only [List.mem_cons, List.not_mem_nil, or_false, hbyte]
    omega

/-- What stands before the first separator stays at the head of the first piece. -/
theorem splitOn_append_of_not_mem {α : Type} [BEq α] [LawfulBEq α] {a : α} {front : List α}
    (h : a ∉ front) (rest : List α) :
    (front ++ rest).splitOn a = (rest.splitOn a).modifyHead (front ++ ·) := by
  induction front with
  | nil => exact (congrFun List.modifyHead_id _).symm
  | cons c more ih =>
    obtain ⟨hc, hmore⟩ := not_or.mp fun hmem => h (List.mem_cons.mpr hmem)
    rw [List.cons_append, List.splitOn_cons_eq_if_modifyHead, if_neg (by simpa using Ne.symm hc),
      ih hmore, List.modifyHead_modifyHead]
    rfl

/-- Encoding character by character commutes with splitting, if the code of the separator is one
letter that no other code has. -/
theorem splitOn_flatMap {α β : Type} [BEq α] [LawfulBEq α] [BEq β] [LawfulBEq β] {code : α → List β}
    {a : α} {b : β} (hself : code a = [b]) (hother : ∀ c, c ≠ a → b ∉ code c) (cs : List α) :
    (cs.flatMap code).splitOn b = (cs.splitOn a).map (·.flatMap code) := by
  induction cs with
  | nil => simp
  | cons c rest ih =>
    rw [List.flatMap_cons, List.splitOn_cons_eq_if_modifyHead]
    by_cases hc : c = a
    · subst hc
      rw [hself, List.singleton_append, List.splitOn_cons_eq_if_modifyHead, ih]
      simp
    · rw [splitOn_append_of_not_mem (hother c hc), ih, if_neg (by simpa using hc)]
      cases rest.splitOn a <;> simp

theorem byteLines_toUTF8 (text : String) :
    (byteLines text.toUTF8.toList).map (·.toByteArray) = (textLines text).map (·.toUTF8) := by
  have hsplit : text.toUTF8.toList.splitOn lineFeed =
      (text.toList.splitOn '\n').map (·.flatMap String.utf8EncodeChar) := by
    have hself : String.utf8EncodeChar '\n' = [lineFeed] := rfl
    rw [toList_toUTF8, splitOn_flatMap hself fun _ => lineFeed_not_mem_utf8EncodeChar]
  have hlast : ((text.toList.splitOn '\n').map (·.flatMap String.utf8EncodeChar)).getLast? =
      some [] ↔ (text.toList.splitOn '\n').getLast? = some [] := by
    rw [List.getLast?_map]
    cases (text.toList.splitOn '\n').getLast? with
    | none => simp
    | some last => cases last <;> simp [String.utf8EncodeChar_ne_nil]
  have hcode (line : List Char) :
      (line.flatMap String.utf8EncodeChar).toByteArray = (String.ofList line).toUTF8 :=
    String.toByteArray_ofList.symm
  simp only [byteLines, textLines, hsplit, hlast]
  split <;> simp [← List.map_dropLast, Function.comp_def, hcode]

/-- A text that arrives as bytes has the lines of the text, and all of them can be read. -/
theorem lines_toUTF8 (text : String) : lines text.toUTF8 = (textLines text).map some := by
  have hread (line : String) : String.fromUTF8? line.toUTF8 = some line :=
    Disk.fromUTF8?_eq_some_iff.mpr rfl
  calc lines text.toUTF8
      = ((byteLines text.toUTF8.toList).map (·.toByteArray)).map String.fromUTF8? := by
        rw [List.map_map]; rfl
    _ = ((textLines text).map (·.toUTF8)).map String.fromUTF8? := by rw [byteLines_toUTF8]
    _ = (textLines text).map some := by
        rw [List.map_map]
        exact List.map_congr_left fun line _ => hread line

example : textLines "12\n\n:quit\n" = ["12", "", ":quit"] := by decide

end Sentential.Text
