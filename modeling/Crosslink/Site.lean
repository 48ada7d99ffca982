import Crosslink.Tree.Path

/-! A node together with the tree and the resource it stands in.

Naming, scopes and descriptions look at nodes from here: features can be read,
containers climbed and addresses computed, and nothing can be changed.
-/

set_option autoImplicit false

namespace Crosslink

structure Site where
  resource : ResourceUri
  tree : Tree
  id : NodeId

namespace Site

def at? (resource : ResourceUri) (tree : Tree) (id : NodeId) : Option Site :=
  if tree.contains id then some ⟨resource, tree, id⟩ else none

def classifier? (site : Site) : Option Classifier := site.tree.classifier? site.id

def className (site : Site) : String := (site.classifier?.map (·.name)).getD ""

def fragment? (site : Site) : Option Fragment := site.tree.fragment? site.id

/-- The address of the node, unless it cannot be reached from the root. -/
def uri? (site : Site) : Option Uri := site.fragment?.map fun path => ⟨site.resource, path⟩

/-- The attribute `name`, when it is a text that is not empty. -/
def name? (site : Site) : Option String :=
  ((site.tree.attribute? site.id "name").bind Value.asString?).filter (· ≠ "")

def move (site : Site) (id : NodeId) : Site := { site with id }

def container? (site : Site) : Option Site :=
  (site.tree.container? site.id).map fun (container, _) => site.move container

def ancestors (site : Site) : List Site := (site.tree.ancestors site.id).map site.move

def children (site : Site) : List Site := (site.tree.contents site.id).map site.move

def range? (site : Site) : Option TextRange := site.tree.range? site.id

/-- The node is an instance of the classifier of a name, or of one below it. -/
def isA (site : Site) (classifier : String) : Bool :=
  site.classifier?.any fun own => own.conformsTo classifier

def fits (site : Site) (feature : Feature) : Bool := feature.target.all site.isA

/-- One and the same node, of sites that belong to one set of resources. -/
def sameNode (site other : Site) : Bool := site.resource = other.resource && site.id = other.id

end Site

end Crosslink
