import Crosslink.Tree.Features

/-! Between nodes and their containment paths. -/

set_option autoImplicit false

namespace Crosslink.Tree

/-- The last step to a node that a feature of a container holds. -/
def lastStep? (tree : Tree) (container : NodeId) (position : FeatureId) (child : NodeId) :
    Option Step :=
  (tree.classifier? container).bind fun classifier =>
    (classifier.feature? position).bind fun feature =>
      if feature.isMany then
        ((tree.childrenAt container position).idxOf? child).map fun index =>
          ⟨feature.name, some index⟩
      else some ⟨feature.name, none⟩

/-- The path to a node that lies less than `bound` levels below the root. -/
def fragmentWithin (tree : Tree) : Nat → NodeId → Option Fragment
  | 0, _ => none
  | bound + 1, id =>
    match tree.container? id with
    | none => if tree.root = some id then some Fragment.root else none
    | some (container, position) =>
      (tree.lastStep? container position id).bind fun step =>
        (tree.fragmentWithin bound container).map fun path => path.child step.feature step.index

/-- The path to a node, unless it cannot be reached from the root. -/
def fragment? (tree : Tree) (id : NodeId) : Option Fragment := tree.fragmentWithin tree.size id

/-- The child behind one step; a position is given exactly for features with many. -/
def stepFrom (tree : Tree) (id : NodeId) (step : Step) : Option NodeId :=
  (tree.classifier? id).bind fun classifier =>
    (classifier.featureNamed? step.feature).bind fun (position, feature) =>
      if !feature.isContainment then none
      else match feature.isMany, step.index with
        | true, some index => (tree.childrenAt id position)[index]?
        | false, none => (tree.childrenAt id position).head?
        | _, _ => none

/-- The node at the end of a path from the root. -/
def resolve? (tree : Tree) (fragment : Fragment) : Option NodeId :=
  match fragment.steps, tree.root with
  | .ok steps, some root => steps.foldlM tree.stepFrom root
  | _, _ => none

end Crosslink.Tree
