import Crosslink.Proofs.Text.Splitting
import Crosslink.Text.Bytes

/-! What is known of bytes as texts.

The bytes of a text are those of its characters. A byte that stands alone in one
character is in no other, so that a text is cut at it as its bytes are. A text is
read from its bytes again, and only bytes that are a text are those of what is
read from them.
-/

set_option autoImplicit false

namespace Crosslink.Text

variable {text : String} {byte : UInt8} {c : Char} {front rest : List UInt8}

theorem bytes_eq_flatMap (text : String) :
    bytes text = text.toList.flatMap String.utf8EncodeChar := by
  unfold bytes
  rw [← String.utf8Encode_toList, List.utf8Encode]
  simp

theorem length_bytes (text : String) : (bytes text).length = text.utf8ByteSize := rfl

theorem bytes_append (first second : String) :
    bytes (first ++ second) = bytes first ++ bytes second := by
  simp [bytes_eq_flatMap]

theorem isText_iff {bytes : List UInt8} :
    bytes.toByteArray.IsValidUTF8 ↔ ∃ text, Text.bytes text = bytes := by
  constructor
  · rintro ⟨chars, encoded⟩
    refine ⟨.ofList chars, ?_⟩
    rw [Text.bytes, String.toByteArray_ofList, ← encoded]
    simp
  · rintro ⟨text, rfl⟩
    have same : (Text.bytes text).toByteArray = text.toByteArray := by
      simp [Text.bytes, ByteArray.ext_iff]
    rw [same]
    exact text.isValidUTF8

/-! ### Bytes that stand alone -/

-- Where a character takes several bytes, they are all above those that stand alone.
theorem code_of_mem (small : byte.toNat < 128) (member : byte ∈ String.utf8EncodeChar c) :
    c.toNat = byte.toNat := by
  have is_byte {number : Nat} : byte = UInt8.ofNat number ↔ number % 256 = byte.toNat := by
    rw [← UInt8.toNat_inj, UInt8.toNat_ofNat', eq_comm]
  show c.val.toNat = byte.toNat
  unfold String.utf8EncodeChar at member
  dsimp only at member
  split at member
  · simp only [List.mem_singleton, is_byte] at member
    omega
  · split at member
    · simp only [List.mem_cons, List.not_mem_nil, or_false, is_byte] at member
      omega
    · split at member
      · simp only [List.mem_cons, List.not_mem_nil, or_false, is_byte] at member
        omega
      · simp only [List.mem_cons, List.not_mem_nil, or_false, is_byte] at member
        omega

/-- A text is cut at a character as its bytes are cut at the byte of that character. -/
theorem splitOn_bytes {sep : Char} (alone : String.utf8EncodeChar sep = [byte])
    (small : byte.toNat < 128) (text : String) :
    (bytes text).splitOn byte =
      (text.toList.splitOn sep).map fun piece => bytes (.ofList piece) := by
  have same : sep.toNat = byte.toNat := code_of_mem small (by simp [alone])
  simp only [bytes_eq_flatMap, String.toList_ofList]
  generalize text.toList = chars
  induction chars with
  | nil => rfl
  | cons c rest ih =>
    rw [List.flatMap_cons, List.splitOn_cons_eq_if_modifyHead]
    by_cases here : c = sep
    · rw [here, alone, List.singleton_append, List.splitOn_cons_eq_if_modifyHead, ih]
      simp
    · have clear : byte ∉ String.utf8EncodeChar c := fun member =>
        here (Char.toNat_inj.mp ((code_of_mem small member).trans same.symm))
      rw [splitOn_append_of_clear clear, ih, if_neg (by simpa using here)]
      cases rest.splitOn sep <;> simp

theorem isText_of_mem_splitOn {sep : Char} {piece : List UInt8}
    (alone : String.utf8EncodeChar sep = [byte]) (small : byte.toNat < 128)
    (member : piece ∈ (bytes text).splitOn byte) : piece.toByteArray.IsValidUTF8 := by
  rw [splitOn_bytes alone small] at member
  obtain ⟨chars, _, same⟩ := List.mem_map.mp member
  exact isText_iff.mpr ⟨_, same⟩

/-! ### Reading bytes -/

theorem lossyFrom_append (front rest : List UInt8) :
    lossyFrom front.length (front ++ rest) = lossyFrom 0 rest := by
  induction front with
  | nil => rfl
  | cons first front ih => exact ih

theorem lossyFirst_encoded (c : Char) (rest : List UInt8) :
    lossyFirst (String.utf8EncodeChar c ++ rest) = (c, c.utf8Size) := by
  have whole : (String.utf8EncodeChar c).take 4 = String.utf8EncodeChar c :=
    List.take_of_length_le (by simpa using c.utf8Size_le_four)
  unfold lossyFirst
  rw [List.take_append, whole, List.toByteArray_append, ByteArray.utf8DecodeChar?_utf8EncodeChar_append]

theorem lossyFrom_encoded (c : Char) (rest : List UInt8) :
    lossyFrom 0 (String.utf8EncodeChar c ++ rest) = c :: lossyFrom 0 rest := by
  have read := lossyFirst_encoded c rest
  have size := String.length_utf8EncodeChar c
  cases encoded : String.utf8EncodeChar c with
  | nil =>
    rw [encoded] at size
    exact absurd size (Nat.ne_of_lt c.utf8Size_pos)
  | cons first others =>
    rw [encoded, List.cons_append] at read
    rw [encoded, List.length_cons] at size
    rw [List.cons_append, lossyFrom, read, ← size]
    dsimp only
    rw [Nat.add_sub_cancel, lossyFrom_append]

@[simp] theorem lossy_bytes (text : String) : lossy (bytes text) = text := by
  have read : lossyFrom 0 (bytes text) = text.toList := by
    rw [bytes_eq_flatMap]
    induction text.toList with
    | nil => rfl
    | cons c rest ih => rw [List.flatMap_cons, lossyFrom_encoded, ih]
  rw [lossy, read, String.ofList_toList]

/-- Just what is a text can be told from what it is read as. -/
theorem isText_iff_bytes_lossy {bytes : List UInt8} :
    bytes.toByteArray.IsValidUTF8 ↔ Text.bytes (lossy bytes) = bytes := by
  constructor
  · intro valid
    obtain ⟨text, rfl⟩ := isText_iff.mp valid
    rw [lossy_bytes]
  · exact fun same => isText_iff.mpr ⟨_, same⟩

end Crosslink.Text
