/-! Offsets, ranges and line positions of a text, all counted in UTF-8 bytes.

A newline ends its line; nothing else does.
-/

set_option autoImplicit false

namespace Crosslink

/-- The bytes from `start` up to, and without, `stop`. -/
structure TextRange where
  start : Nat
  stop : Nat
  deriving DecidableEq, Repr

/-- A line and a column, both counted from zero. -/
structure Position where
  line : Nat
  column : Nat
  deriving DecidableEq, Repr

namespace Position

/-- The number an editor shows: it counts from one, in words of 32 bits. -/
def shown (number : Nat) : Nat := (number + 1) % UInt32.size

def text (position : Position) : String :=
  s!"{shown position.line}:{shown position.column}"

def compare (first second : Position) : Ordering :=
  (Ord.compare first.line second.line).then (Ord.compare first.column second.column)

end Position

structure LineIndex where
  /-- The offset of the first byte of each line, increasing from zero. -/
  starts : List Nat
  size : Nat

namespace LineIndex

/-- The offsets right behind the newlines of a text that begins at `offset`. -/
def startsBehind : Nat → List Char → List Nat
  | _, [] => []
  | offset, c :: rest =>
    let next := offset + c.utf8Size
    if c = '\n' then next :: startsBehind next rest else startsBehind next rest

def ofText (text : String) : LineIndex :=
  { starts := 0 :: startsBehind 0 text.toList, size := text.utf8ByteSize }

def lineCount (index : LineIndex) : Nat := index.starts.length

/-- Where a number stands between two places of an increasing list, or else where it would have
to be put in. -/
def searchBetween (numbers : List Nat) (wanted low high : Nat) (inside : high ≤ numbers.length) :
    Except Nat Nat :=
  if gap : low < high then
    have : (low + high) / 2 < numbers.length := by omega
    let middle := numbers[(low + high) / 2]
    if middle = wanted then .ok ((low + high) / 2)
    else if middle < wanted then searchBetween numbers wanted ((low + high) / 2 + 1) high inside
    else searchBetween numbers wanted low ((low + high) / 2) (by omega)
  else .error low
termination_by high - low

def search (numbers : List Nat) (wanted : Nat) : Except Nat Nat :=
  searchBetween numbers wanted 0 numbers.length (Nat.le_refl _)

/-- The line of a place in the text: the last one that has begun there. -/
def lineAt (index : LineIndex) (place : Nat) : Nat :=
  match search index.starts place with
  | .ok line => line
  | .error next => next - 1

/-- The position of an offset; one behind the end of the text counts as the end. -/
def position (index : LineIndex) (offset : Nat) : Position :=
  let place := min offset index.size
  let line := index.lineAt place
  { line, column := place - index.starts.getD line 0 }

end LineIndex

end Crosslink
