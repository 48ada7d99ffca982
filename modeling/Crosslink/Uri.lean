import Crosslink.Uri.Fragment

/-! Addresses of nodes: the resource and the containment path inside it. -/

set_option autoImplicit false

namespace Crosslink

/-- The identifier of a resource: the path of a file or stream. -/
structure ResourceUri where
  text : String
  deriving DecidableEq, Repr

/-- The address of a node, written `resource#fragment`. -/
structure Uri where
  resource : ResourceUri
  fragment : Fragment
  deriving DecidableEq, Repr

namespace ResourceUri

/-- What follows the last slash or backslash. -/
def fileName (uri : ResourceUri) : String :=
  String.ofList (uri.text.toList.reverse.takeWhile fun c => c ≠ '/' ∧ c ≠ '\\').reverse

/-- What follows the last dot of the file name, when something stands on both sides. -/
def extension? (uri : ResourceUri) : Option String :=
  match Text.splitLast '.' uri.fileName.toList with
  | some (stem, extension) =>
    if stem = [] ∨ extension = [] then none else some (String.ofList extension)
  | none => none

def rootUri (uri : ResourceUri) : Uri := ⟨uri, Fragment.root⟩

end ResourceUri

namespace Uri

def text (uri : Uri) : String := uri.resource.text ++ "#" ++ uri.fragment.text

/-- Read an address: the resource ends at the first `#`. -/
def parse (text : String) : Except UriError Uri :=
  match Text.splitFirst '#' text.toList with
  | none => .error ⟨text, .missingSeparator⟩
  | some (resource, fragment) =>
    if resource = [] then .error ⟨text, .missingResource⟩
    else (Fragment.parse (String.ofList fragment)).map fun fragment =>
      ⟨⟨String.ofList resource⟩, fragment⟩

def isIn (uri : Uri) (resource : ResourceUri) : Bool := uri.resource = resource

/-- Addresses are ordered by resource, then by the text of the path. -/
def compare (first second : Uri) : Ordering :=
  (Ord.compare first.resource.text second.resource.text).then
    (Ord.compare first.fragment.text second.fragment.text)

end Uri

end Crosslink
