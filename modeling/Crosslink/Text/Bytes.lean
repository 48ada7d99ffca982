/-! Texts as bytes, and bytes as a text, also where they are none.

Bytes that are not the UTF-8 of a character are replaced: the longest beginning of
a character, or else a single byte, becomes one replacement character.
-/

set_option autoImplicit false

namespace Crosslink.Text

def bytes (text : String) : List UInt8 := text.toByteArray.data.toList

/-- How many bytes follow the first byte of a character, and the bounds of the next one. -/
def following (first : UInt8) : Nat × UInt8 × UInt8 :=
  if 0xC2 ≤ first ∧ first ≤ 0xDF then (1, 0x80, 0xBF)
  else if first = 0xE0 then (2, 0xA0, 0xBF)
  else if first = 0xED then (2, 0x80, 0x9F)
  else if 0xE1 ≤ first ∧ first ≤ 0xEF then (2, 0x80, 0xBF)
  else if first = 0xF0 then (3, 0x90, 0xBF)
  else if first = 0xF4 then (3, 0x80, 0x8F)
  else if 0xF1 ≤ first ∧ first ≤ 0xF3 then (3, 0x80, 0xBF)
  else (0, 0x80, 0xBF)

/-- The size of the beginning of a character that is not complete. -/
def brokenSize : List UInt8 → Nat
  | [] => 0
  | first :: rest =>
    let (count, low, high) := following first
    match rest.take count with
    | [] => 1
    | second :: others =>
      if low ≤ second ∧ second ≤ high then
        2 + (others.takeWhile fun byte => 0x80 ≤ byte ∧ byte ≤ 0xBF).length
      else 1

/-- The first character of a text and its size, or what stands in for it. -/
def lossyFirst (bytes : List UInt8) : Char × Nat :=
  match (bytes.take 4).toByteArray.utf8DecodeChar? 0 with
  | some c => (c, c.utf8Size)
  | none => ('\uFFFD', brokenSize bytes)

/-- All characters behind the bytes that belong to the last one. -/
def lossyFrom : Nat → List UInt8 → List Char
  | _, [] => []
  | skipped + 1, _ :: rest => lossyFrom skipped rest
  | 0, first :: rest =>
    let (c, size) := lossyFirst (first :: rest)
    c :: lossyFrom (size - 1) rest

/-- Bytes as a text. -/
def lossy (bytes : List UInt8) : String := .ofList (lossyFrom 0 bytes)

end Crosslink.Text
