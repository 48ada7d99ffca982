import Crosslink.Tree.Basic

/-! The containment of a tree: containers upwards, children downwards.

The walks are bounded by the number of nodes, which no chain of containers
exceeds.
-/

set_option autoImplicit false

namespace Crosslink.Tree

/-- The children that one feature of a node holds. -/
def childrenAt (tree : Tree) (id : NodeId) (feature : FeatureId) : List NodeId :=
  ((tree.slot? id feature).map Slot.children).getD []

def children (tree : Tree) (id : NodeId) (feature : String) : List NodeId :=
  ((tree.slotNamed? id feature).map Slot.children).getD []

/-- All children, feature by feature. -/
def contents (tree : Tree) (id : NodeId) : List NodeId :=
  match tree.node? id with
  | none => []
  | some node => node.slots.flatMap Slot.children

/-- At most `bound` containers, the nearest first. -/
def ancestorsWithin (tree : Tree) : Nat → NodeId → List NodeId
  | 0, _ => []
  | bound + 1, id =>
    match tree.container? id with
    | none => []
    | some (container, _) => container :: tree.ancestorsWithin bound container

def ancestors (tree : Tree) (id : NodeId) : List NodeId := tree.ancestorsWithin tree.size id

def isAncestor (tree : Tree) (ancestor id : NodeId) : Bool := ancestor ∈ tree.ancestors id

/-- A node and what it contains, down to `bound` levels, parents first. -/
def preorderWithin (tree : Tree) : Nat → NodeId → List NodeId
  | 0, _ => []
  | bound + 1, id => id :: (tree.contents id).flatMap (tree.preorderWithin bound)

/-- A node and everything below it, parents first and siblings in order. -/
def descendants (tree : Tree) (id : NodeId) : List NodeId :=
  if tree.contains id then tree.preorderWithin tree.size id else []

/-- Everything that can be reached from the root, in the order of the document. -/
def allNodes (tree : Tree) : List NodeId :=
  match tree.root with
  | none => []
  | some root => tree.descendants root

/-- Put a node into a containment slot, at a position or at the end. -/
def attach (tree : Tree) (container : NodeId) (feature : String) (index : Option Nat)
    (child : NodeId) : Except Violation Tree :=
  match tree.featureOfKind container feature .containment with
  | .error violation => .error violation
  | .ok (position, declared) =>
    match tree.node? child with
    | none => .error (.unknownNode child)
    | some node =>
      let siblings := tree.childrenAt container position
      let place := index.getD siblings.length
      if tree.root = some child then .error .attachRoot
      else if child = container ∨ tree.isAncestor child container then
        .error (.cycle child container)
      else if node.container.isSome then .error (.alreadyContained child)
      else if !node.classifier.fits declared then
        .error (.typeMismatch feature (declared.target.getD "") node.classifier.name)
      else if !declared.isMany ∧ siblings ≠ [] then .error (.cardinalityExceeded feature)
      else if siblings.length < place then
        .error (.indexOutOfBounds feature place siblings.length)
      else
        .ok ((tree.setSlot container position (.containment (siblings.insertIdx place child))).modify
          child fun node => { node with container := some (container, position) })

def detach (tree : Tree) (child : NodeId) : Except Violation Tree :=
  match tree.node? child with
  | none => .error (.unknownNode child)
  | some node =>
    match node.container with
    | none => .error (.notContained child)
    | some (container, position) =>
      let siblings := tree.childrenAt container position
      .ok ((tree.setSlot container position (.containment (siblings.filter (· ≠ child)))).modify
        child fun node => { node with container := none })

end Crosslink.Tree
