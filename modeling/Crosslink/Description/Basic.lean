import Crosslink.Description.Strategy
import Crosslink.Resource

/-! Descriptions: what a resource exports and refers to at one of its states. -/

set_option autoImplicit false

namespace Crosslink

structure Description where
  uri : ResourceUri
  stamp : Stamp
  /-- The exported nodes in the order of the document. -/
  exports : List Description.Export
  /-- The references in the order of the document, feature by feature. -/
  links : List Description.Link
  /-- The names that were looked up for the resource. -/
  importedNames : List QualifiedName
  deriving DecidableEq, Repr

namespace Description

/-- The exports of a node and of what lies less than `bound` levels below it. -/
def exportsWithin (strategy : Strategy) : Nat → Site → List Export
  | 0, _ => []
  | bound + 1, site =>
    let yielded := strategy.exports site
    yielded.entries ++
      if yielded.descend then site.children.flatMap (exportsWithin strategy bound) else []

/-- The references of a node and of what lies less than `bound` levels below
it, with the place that the node lies in. -/
def linksWithin (strategy : Strategy) : Nat → Option Uri → Site → List Link
  | 0, _, _ => []
  | bound + 1, outer, site =>
    let place := if strategy.isExported site then site.uri? else outer
    let yielded := strategy.links site place
    yielded.entries ++
      if yielded.descend then site.children.flatMap (linksWithin strategy bound place) else []

/-- Describe a resource as it is now; one that is not loaded has nothing to describe. -/
def compute (strategy : Strategy) (resource : Resource) : Description :=
  { uri := resource.uri
    stamp := resource.stamp
    exports :=
      match resource.root? with
      | none => []
      | some root => exportsWithin strategy root.tree.size root
    links :=
      match resource.root? with
      | none => []
      | some root => linksWithin strategy root.tree.size none root
    importedNames := resource.importedNames }

def exportsNamed (description : Description) (name : QualifiedName) : List Export :=
  description.exports.filter (·.name = name)

def exportsOf (description : Description) (classifier : String) : List Export :=
  description.exports.filter (·.classifier = classifier)

/-- A reference leads into the resource. -/
def refersTo (description : Description) (resource : ResourceUri) : Bool :=
  description.links.any (·.target.isIn resource)

def isEmpty (description : Description) : Bool :=
  description.exports.isEmpty && description.links.isEmpty

end Description

end Crosslink
