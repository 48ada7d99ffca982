import Crosslink.Error
import Crosslink.Metamodel.Classifier
import Crosslink.Text.Lines

/-! Trees of nodes, kept in the order of their creation.

A node lists its children in its containment slots and names its container in
turn. Nodes without a container stay where they are, so a position once given
to a node is its own for good. Every operation checks all its conditions before
it changes anything, and a refused one leaves the tree as it was.
-/

set_option autoImplicit false

namespace Crosslink

inductive Slot where
  | attr (values : List Value)
  | containment (children : List NodeId)
  | reference (values : List Reference)
  deriving Repr

namespace Slot

def empty : FeatureKind → Slot
  | .attr => attr []
  | .containment => containment []
  | .reference => reference []

def attributes : Slot → List Value
  | attr values => values
  | _ => []

def children : Slot → List NodeId
  | containment children => children
  | _ => []

def references : Slot → List Reference
  | reference values => values
  | _ => []

end Slot

structure Node where
  classifier : Classifier
  /-- The node above and the feature of it that holds this one. -/
  container : Option (NodeId × FeatureId) := none
  /-- One slot for each feature of the classifier. -/
  slots : List Slot
  range : Option TextRange := none
  deriving Repr

structure Tree where
  nodes : Array Node := #[]
  root : Option NodeId := none
  deriving Repr

namespace Node

def ofClassifier (classifier : Classifier) : Node :=
  { classifier, slots := classifier.features.map fun feature => Slot.empty feature.kind }

def setSlot (node : Node) (feature : FeatureId) (slot : Slot) : Node :=
  { node with slots := node.slots.set feature slot }

end Node

namespace Tree

def empty : Tree := {}

/-- Nodes in the tree and beside it. -/
def size (tree : Tree) : Nat := tree.nodes.size

def contains (tree : Tree) (id : NodeId) : Bool := id < tree.size

def node? (tree : Tree) (id : NodeId) : Option Node := tree.nodes[id]?

def classifier? (tree : Tree) (id : NodeId) : Option Classifier :=
  (tree.node? id).map (·.classifier)

def container? (tree : Tree) (id : NodeId) : Option (NodeId × FeatureId) :=
  (tree.node? id).bind (·.container)

def range? (tree : Tree) (id : NodeId) : Option TextRange := (tree.node? id).bind (·.range)

def modify (tree : Tree) (id : NodeId) (change : Node → Node) : Tree :=
  { tree with nodes := tree.nodes.modify id change }

def setSlot (tree : Tree) (id : NodeId) (feature : FeatureId) (slot : Slot) : Tree :=
  tree.modify id (·.setSlot feature slot)

def slot? (tree : Tree) (id : NodeId) (feature : FeatureId) : Option Slot :=
  (tree.node? id).bind (·.slots[feature]?)

def slotNamed? (tree : Tree) (id : NodeId) (feature : String) : Option Slot :=
  (tree.node? id).bind fun node =>
    (node.classifier.featureNamed? feature).bind fun (position, _) => node.slots[position]?

/-- A new node that nothing contains, and its position. -/
def create (tree : Tree) (classifier : Classifier) : Tree × NodeId :=
  ({ tree with nodes := tree.nodes.push (Node.ofClassifier classifier) }, tree.size)

/-- Make a node that nothing contains the root. -/
def setRoot (tree : Tree) (id : NodeId) : Except Violation Tree :=
  match tree.node? id with
  | none => .error (.unknownNode id)
  | some node =>
    if node.container.isSome then .error (.alreadyContained id)
    else .ok { tree with root := some id }

/-- Note the text that a node covers; a node that does not exist is passed over. -/
def setRange (tree : Tree) (id : NodeId) (range : TextRange) : Tree :=
  tree.modify id fun node => { node with range := some range }

/-- The first feature of a name, with its position. -/
def feature (tree : Tree) (id : NodeId) (name : String) :
    Except Violation (FeatureId × Feature) :=
  match tree.node? id with
  | none => .error (.unknownNode id)
  | some node =>
    match node.classifier.featureNamed? name with
    | none => .error (.unknownFeature node.classifier.name name)
    | some found => .ok found

/-- The first feature of a name, which has to be of a kind. -/
def featureOfKind (tree : Tree) (id : NodeId) (name : String) (kind : FeatureKind) :
    Except Violation (FeatureId × Feature) :=
  match tree.feature id name with
  | .error violation => .error violation
  | .ok (position, feature) =>
    if feature.kind = kind then .ok (position, feature)
    else .error (.wrongFeatureKind name kind feature.kind)

theorem node?_modify (tree : Tree) (id other : NodeId) (change : Node → Node) :
    (tree.modify id change).node? other =
      if id = other then (tree.node? other).map change else tree.node? other := by
  simp [modify, node?, Array.getElem?_modify]

@[simp] theorem size_modify (tree : Tree) (id : NodeId) (change : Node → Node) :
    (tree.modify id change).size = tree.size := by
  simp [modify, size]

end Tree

end Crosslink
