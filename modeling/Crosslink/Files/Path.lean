import Crosslink.Text.Bytes
import Crosslink.Uri

/-! Paths of files: names with slashes between them.

A path is bytes, which need not be a text, and is compared by its components.
Repeated and closing slashes do not count, and neither does a dot, unless the
path begins with it. A path that begins with a slash starts at the top, which is a
component of its own.
-/

set_option autoImplicit false

namespace Crosslink

abbrev FileName := List UInt8

structure Path where
  bytes : List UInt8
  deriving DecidableEq

namespace Path

def slash : UInt8 := 47

def dot : UInt8 := 46

def ofText (text : String) : Path := ⟨Text.bytes text⟩

/-- A path as it is shown. -/
def text (path : Path) : String := Text.lossy path.bytes

def isAbsolute (path : Path) : Bool := path.bytes.head? = some slash

/-- The components that the pieces behind the first slash add. -/
def innerComponents (pieces : List FileName) : List FileName :=
  pieces.filter fun piece => piece ≠ [] ∧ piece ≠ [dot]

/-- The component that stands in front of the first slash. The top is written as a slash. -/
def lead (first : FileName) : FileName := if first = [] then [slash] else first

def components (path : Path) : List FileName :=
  if path.bytes = [] then []
  else match path.bytes.splitOn slash with
    | [] => []
    | first :: rest => lead first :: innerComponents rest

/-- The path that is meant by `path` where `base` is the present place. -/
def join (base path : Path) : Path :=
  if path.isAbsolute then path
  else if base.bytes = [] ∨ base.bytes.getLast? = some slash then ⟨base.bytes ++ path.bytes⟩
  else ⟨base.bytes ++ slash :: path.bytes⟩

/-- What is left of a list in front of which another one stands. -/
def strip? {α : Type} [DecidableEq α] : List α → List α → Option (List α)
  | [], rest => some rest
  | _, [] => none
  | first :: rest, other :: others => if first = other then strip? rest others else none

/-- The names that lead from a root to a path. -/
def below? (root path : Path) : Option (List FileName) := strip? root.components path.components

/-- A path below a root as the URI of a resource, in which names are shown; the
root itself has none. -/
def relativeUri? (root path : Path) : Option ResourceUri :=
  match below? root path with
  | none | some [] => none
  | some names => some ⟨"/".intercalate (names.map Text.lossy)⟩

/-- The path of a resource from a root. -/
def pathOf (root : Path) (uri : ResourceUri) : Path := root.join (.ofText uri.text)

end Path

end Crosslink
