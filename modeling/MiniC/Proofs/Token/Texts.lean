import MiniC.Token.Literal
import Mathlib.Tactic.Common
/-!
The bytes of string literals. Decoding a literal gives bytes, which are kept as the characters with
these codes; when they are used, the characters are encoded again. Main statement: a byte below 128 is
encoded as itself and any other byte as two, so a text spells the decoded bytes exactly if all of them
are below 128.
-/
namespace MiniC

namespace Bytes

theorem toList_loop (bytes : ByteArray) (i : Nat) (before : List UInt8) :
    ByteArray.toList.loop bytes i before = before.reverse ++ bytes.data.toList.drop i := by
  fun_induction ByteArray.toList.loop bytes i before with
  | case1 i before hlt ih =>
    have hi : i < bytes.data.toList.length := hlt
    have hget : bytes.get! i = bytes.data.toList[i] := getElem!_pos bytes.data i hlt
    rw [ih, List.drop_eq_getElem_cons hi, hget]
    simp
  | case2 i before hge =>
    have hle : bytes.data.toList.length ≤ i := Nat.le_of_not_lt hge
    rw [List.drop_eq_nil_of_le hle, List.append_nil]

theorem ofText_eq (s : String) : ofText s = s.toByteArray.data.toList := by
  rw [ofText, String.toUTF8_eq_toByteArray, ByteArray.toList, toList_loop]
  rfl

@[simp]
theorem length_ofText (s : String) : (ofText s).length = s.utf8ByteSize := by
  rw [ofText_eq, ← String.size_toByteArray]
  rfl

theorem ofText_append (s t : String) : ofText (s ++ t) = ofText s ++ ofText t := by
  rw [ofText_eq, ofText_eq, ofText_eq, String.toByteArray_append, ByteArray.toList_data_append]

theorem ofText_ofList (cs : List Char) :
    ofText (String.ofList cs) = cs.flatMap String.utf8EncodeChar := by
  rw [ofText_eq, String.toByteArray_ofList, List.utf8Encode, List.toList_data_toByteArray]

end Bytes

namespace Literal

/-- The text that is kept for decoded bytes. -/
def textOf (bytes : List UInt8) : String := String.ofList (bytes.map byteChar)

/-- How a byte of a literal is stored. -/
def stored (b : UInt8) : List UInt8 := if b < 128 then [b] else [b >>> 6 ||| 192, b &&& 63 ||| 128]

theorem utf8EncodeChar_byteChar (b : UInt8) : String.utf8EncodeChar (byteChar b) = stored b := by
  have hall : ∀ n : Fin 256,
      String.utf8EncodeChar (byteChar (UInt8.ofFin n)) = stored (UInt8.ofFin n) := by
    decide +kernel
  exact hall b.toFin

theorem string?_eq (body : List Char) : string? body = (unescape? (bytesOf body)).map textOf := rfl

/-- Adjacent literals are decoded one by one. -/
theorem textOf_append (bytes bytes' : List UInt8) :
    textOf bytes ++ textOf bytes' = textOf (bytes ++ bytes') := by
  rw [textOf, textOf, textOf, List.map_append, String.ofList_append]

theorem textOf_nil : textOf [] = "" := rfl

theorem ofText_textOf (bytes : List UInt8) : Bytes.ofText (textOf bytes) = bytes.flatMap stored := by
  rw [textOf, Bytes.ofText_ofList, List.flatMap_map]
  simp only [utf8EncodeChar_byteChar]

/-- Every byte from 128 on takes one more byte. -/
theorem utf8ByteSize_textOf (bytes : List UInt8) :
    (textOf bytes).utf8ByteSize = bytes.length + bytes.countP (128 ≤ ·) := by
  rw [← Bytes.length_ofText, ofText_textOf]
  induction bytes with
  | nil => rfl
  | cons b bytes ih =>
    rw [List.flatMap_cons, List.length_append, ih, List.length_cons, List.countP_cons]
    by_cases hb : b < 128
    · have hnot : ¬ 128 ≤ b := UInt8.not_le.mpr hb
      simp only [stored, if_pos hb, hnot, List.length_singleton, decide_false, Bool.false_eq_true,
        if_false]
      omega
    · have hle : 128 ≤ b := UInt8.not_lt.mp hb
      simp only [stored, if_neg hb, hle, List.length_cons, List.length_nil, decide_true, if_true]
      omega

/-- The text spells the decoded bytes exactly if all of them are below 128. -/
theorem ofText_textOf_eq_iff (bytes : List UInt8) :
    Bytes.ofText (textOf bytes) = bytes ↔ ∀ b ∈ bytes, b < 128 := by
  constructor
  · intro h
    have hlength := utf8ByteSize_textOf bytes
    rw [← Bytes.length_ofText, h] at hlength
    have hcount : bytes.countP (128 ≤ ·) = 0 := by omega
    intro b hb
    have hnot := List.countP_eq_zero.mp hcount b hb
    exact UInt8.not_le.mp (by simpa using hnot)
  · intro h
    rw [ofText_textOf]
    induction bytes with
    | nil => rfl
    | cons b bytes ih =>
      obtain ⟨hb, hbytes⟩ := List.forall_mem_cons.mp h
      rw [List.flatMap_cons, ih hbytes, stored, if_pos hb]
      rfl

end Literal

namespace Lexer

theorem lengthOf_eq (cs : List Char) : Bytes.lengthOf cs = (String.ofList cs).utf8ByteSize := by
  rw [← Bytes.length_ofText, Bytes.ofText_ofList]
  induction cs with
  | nil => rfl
  | cons c cs ih =>
    rw [Bytes.lengthOf, List.flatMap_cons, List.length_append, String.length_utf8EncodeChar, ih]

theorem lengthOf_append (cs cs' : List Char) :
    Bytes.lengthOf (cs ++ cs') = Bytes.lengthOf cs + Bytes.lengthOf cs' := by
  rw [lengthOf_eq, String.ofList_append, String.utf8ByteSize_append, ← lengthOf_eq, ← lengthOf_eq]

end Lexer

end MiniC
