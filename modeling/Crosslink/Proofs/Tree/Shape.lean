import Crosslink.Proofs.Tree.Paths

/-! Trees up to the values of their references.

Binding and opening references leaves all else as it is: the shape of the tree,
in which every reference reads the same. Whatever does not look at the values of
references can be computed from the shape.
-/

set_option autoImplicit false

namespace Crosslink

def Slot.shape : Slot → Slot
  | .attr values => .attr values
  | .containment children => .containment children
  | .reference values => .reference (values.map fun _ => .unresolved (.name ⟨[]⟩))

def Node.shape (node : Node) : Node := { node with slots := node.slots.map Slot.shape }

/-- The tree with one and the same value in all places of references. -/
def Tree.shape (tree : Tree) : Tree := { tree with nodes := tree.nodes.map Node.shape }

namespace Slot

@[simp] theorem kind_shape (slot : Slot) : slot.shape.kind = slot.kind := by cases slot <;> rfl

@[simp] theorem size_shape (slot : Slot) : slot.shape.size = slot.size := by
  cases slot <;> simp [shape, size]

@[simp] theorem children_shape (slot : Slot) : slot.shape.children = slot.children := by
  cases slot <;> rfl

@[simp] theorem attributes_shape (slot : Slot) : slot.shape.attributes = slot.attributes := by
  cases slot <;> rfl

@[simp] theorem shape_shape (slot : Slot) : slot.shape.shape = slot.shape := by
  cases slot <;> simp [shape]

end Slot

@[simp] theorem Node.shape_shape (node : Node) : node.shape.shape = node.shape := by
  simp [shape]

namespace Tree

variable {tree next : Tree} {id : NodeId}

@[simp] theorem shape_shape (tree : Tree) : tree.shape.shape = tree.shape := by
  simp [shape]

@[simp] theorem root_shape (tree : Tree) : tree.shape.root = tree.root := rfl

@[simp] theorem size_shape (tree : Tree) : tree.shape.size = tree.size := by
  simp [shape, size]

@[simp] theorem contains_shape (tree : Tree) (id : NodeId) :
    tree.shape.contains id = tree.contains id := by
  simp [contains]

theorem node?_shape (tree : Tree) (id : NodeId) :
    tree.shape.node? id = (tree.node? id).map Node.shape := by
  simp [shape, node?]

@[simp] theorem classifier?_shape (tree : Tree) (id : NodeId) :
    tree.shape.classifier? id = tree.classifier? id := by
  rw [classifier?, node?_shape, Option.map_map]
  rfl

@[simp] theorem feature?_shape (tree : Tree) (id : NodeId) (position : FeatureId) :
    tree.shape.feature? id position = tree.feature? id position := by
  rw [feature?, classifier?_shape, feature?]

@[simp] theorem container?_shape (tree : Tree) (id : NodeId) :
    tree.shape.container? id = tree.container? id := by
  rw [container?, node?_shape, container?, Option.bind_map]
  rfl

@[simp] theorem range?_shape (tree : Tree) (id : NodeId) :
    tree.shape.range? id = tree.range? id := by
  rw [range?, node?_shape, range?, Option.bind_map]
  rfl

theorem slot?_shape (tree : Tree) (id : NodeId) (position : FeatureId) :
    tree.shape.slot? id position = (tree.slot? id position).map Slot.shape := by
  rw [slot?, node?_shape, slot?, Option.bind_map, Option.map_bind]
  congr 1
  funext node
  simp [Node.shape]

theorem slotNamed?_shape (tree : Tree) (id : NodeId) (name : String) :
    tree.shape.slotNamed? id name = (tree.slotNamed? id name).map Slot.shape := by
  rw [slotNamed?, node?_shape, slotNamed?, Option.bind_map, Option.map_bind]
  congr 1
  funext node
  simp only [Function.comp_apply, Node.shape]
  cases node.classifier.featureNamed? name <;> simp

@[simp] theorem childrenAt_shape (tree : Tree) (id : NodeId) (position : FeatureId) :
    tree.shape.childrenAt id position = tree.childrenAt id position := by
  rw [childrenAt, slot?_shape, Option.map_map, childrenAt]
  congr 2
  funext slot
  exact slot.children_shape

@[simp] theorem attributes_shape (tree : Tree) (id : NodeId) (name : String) :
    tree.shape.attributes id name = tree.attributes id name := by
  rw [attributes, slotNamed?_shape, Option.map_map, attributes]
  congr 2
  funext slot
  exact slot.attributes_shape

@[simp] theorem contents_shape (tree : Tree) (id : NodeId) :
    tree.shape.contents id = tree.contents id := by
  rw [contents, node?_shape, contents]
  cases tree.node? id with
  | none => rfl
  | some node => simp [Node.shape, List.flatMap_map]

@[simp] theorem ancestors_shape (tree : Tree) (id : NodeId) :
    tree.shape.ancestors id = tree.ancestors id := by
  have within : ∀ bound id, tree.shape.ancestorsWithin bound id = tree.ancestorsWithin bound id := by
    intro bound
    induction bound with
    | zero => exact fun _ => rfl
    | succ bound ih =>
      intro id
      simp only [ancestorsWithin, container?_shape, ih]
  rw [ancestors, size_shape, within, ancestors]

@[simp] theorem descendants_shape (tree : Tree) (id : NodeId) :
    tree.shape.descendants id = tree.descendants id := by
  have within : ∀ bound, tree.shape.preorderWithin bound = tree.preorderWithin bound := by
    intro bound
    induction bound with
    | zero => rfl
    | succ bound ih =>
      funext id
      simp only [preorderWithin, contents_shape, ih]
  rw [descendants, size_shape, within, contains_shape, descendants]

@[simp] theorem allNodes_shape (tree : Tree) : tree.shape.allNodes = tree.allNodes := by
  rw [allNodes, root_shape, allNodes]
  cases tree.root <;> simp

@[simp] theorem fragment?_shape (tree : Tree) (id : NodeId) :
    tree.shape.fragment? id = tree.fragment? id := by
  have within : ∀ bound, tree.shape.fragmentWithin bound = tree.fragmentWithin bound := by
    intro bound
    induction bound with
    | zero => rfl
    | succ bound ih =>
      funext id
      simp only [fragmentWithin, container?_shape, lastStep?, classifier?_shape, childrenAt_shape,
        root_shape, ih]
      rfl
  rw [fragment?, size_shape, within, fragment?]

@[simp] theorem resolve?_shape (tree : Tree) (path : Fragment) :
    tree.shape.resolve? path = tree.resolve? path := by
  have down : tree.shape.stepFrom = tree.stepFrom := by
    funext id step
    simp only [stepFrom, classifier?_shape, childrenAt_shape]
  rw [resolve?, root_shape, down, resolve?]

/-! ### Trees of one shape -/

section Same

variable (same : next.shape = tree.shape)
include same

theorem root_of_shape : next.root = tree.root := by
  rw [← root_shape, same, root_shape]

theorem contains_of_shape (id : NodeId) : next.contains id = tree.contains id := by
  rw [← contains_shape, same, contains_shape]

theorem classifier?_of_shape (id : NodeId) : next.classifier? id = tree.classifier? id := by
  rw [← classifier?_shape, same, classifier?_shape]

theorem feature?_of_shape (id : NodeId) (position : FeatureId) :
    next.feature? id position = tree.feature? id position := by
  rw [← feature?_shape, same, feature?_shape]

theorem container?_of_shape (id : NodeId) : next.container? id = tree.container? id := by
  rw [← container?_shape, same, container?_shape]

theorem childrenAt_of_shape (id : NodeId) (position : FeatureId) :
    next.childrenAt id position = tree.childrenAt id position := by
  rw [← childrenAt_shape, same, childrenAt_shape]

theorem allNodes_of_shape : next.allNodes = tree.allNodes := by
  rw [← allNodes_shape, same, allNodes_shape]

theorem fragment?_of_shape (id : NodeId) : next.fragment? id = tree.fragment? id := by
  rw [← fragment?_shape, same, fragment?_shape]

theorem resolve?_of_shape (path : Fragment) : next.resolve? path = tree.resolve? path := by
  rw [← resolve?_shape, same, resolve?_shape]

theorem slot?_of_shape (id : NodeId) (position : FeatureId) :
    (next.slot? id position).map Slot.shape = (tree.slot? id position).map Slot.shape := by
  rw [← slot?_shape, same, slot?_shape]

theorem pathNamed_of_shape (named : tree.PathNamed) : next.PathNamed := by
  intro id position feature found
  rw [feature?_of_shape same] at found
  exact named found

theorem consistent_of_shape (consistent : tree.Consistent) : next.Consistent := by
  refine consistent.revalued (root_of_shape same) (contains_of_shape same)
    (classifier?_of_shape same) (container?_of_shape same) (childrenAt_of_shape same) ?_ ?_
  · intro id position
    have kinds := congrArg (Option.map Slot.kind) (slot?_of_shape same id position)
    simpa [Function.comp_def] using kinds
  · intro id position feature slot found one held
    have shapes := slot?_of_shape same id position
    rw [held, Option.map_some] at shapes
    obtain ⟨before, seen, alike⟩ := Option.map_eq_some_iff.mp shapes.symm
    rw [← slot.size_shape, ← alike, before.size_shape]
    exact consistent.single found one seen

end Same

end Tree

end Crosslink
