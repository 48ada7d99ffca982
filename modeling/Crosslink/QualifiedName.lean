import Crosslink.Text.Lowercase

/-! Qualified names: sequences of segments, written with dots between them.

Whether a name is unique is a matter of the scope it is looked up in.
-/

set_option autoImplicit false

namespace Crosslink

structure QualifiedName where
  segments : List String
  deriving DecidableEq, Repr

namespace QualifiedName

def single (segment : String) : QualifiedName := ⟨[segment]⟩

/-- Read dotted text; empty segments are dropped. -/
def ofDotted (text : String) : QualifiedName :=
  ⟨((text.toList.splitOn '.').filter (· ≠ [])).map String.ofList⟩

def text (name : QualifiedName) : String := ".".intercalate name.segments

def size (name : QualifiedName) : Nat := name.segments.length

def isEmpty (name : QualifiedName) : Bool := name.segments.isEmpty

def first? (name : QualifiedName) : Option String := name.segments.head?

def last? (name : QualifiedName) : Option String := name.segments.getLast?

def append (name other : QualifiedName) : QualifiedName := ⟨name.segments ++ other.segments⟩

def push (name : QualifiedName) (segment : String) : QualifiedName := ⟨name.segments ++ [segment]⟩

def dropFirst (name : QualifiedName) (count : Nat) : QualifiedName := ⟨name.segments.drop count⟩

def dropLast (name : QualifiedName) (count : Nat) : QualifiedName :=
  ⟨name.segments.take (name.segments.length - count)⟩

def startsWith (name other : QualifiedName) : Bool := other.segments.isPrefixOf name.segments

def lowercase (name : QualifiedName) : QualifiedName := ⟨name.segments.map Text.lowercase⟩

/-- Names are ordered by their segments, and these by code point. -/
def compare (name other : QualifiedName) : Ordering := Ord.compare name.segments other.segments

end QualifiedName

end Crosslink
