import Crosslink.Proofs.Tree.Reattaching
import Crosslink.Proofs.Types.Drafts

/-! Elements in trees.

Every declaration becomes one node, and the nodes are numbered in the order in which
the declarations are written. Whatever the elements are, entering them is not refused.
-/

set_option autoImplicit false

namespace Crosslink.Types

mutual

def Element.size : Element → Nat
  | .package _ elements _ => sizeAll elements + 1
  | .type .. => 1

def sizeAll : List Element → Nat
  | [] => 0
  | element :: rest => element.size + sizeAll rest

end

def idsFrom (first : Nat) : List Element → List NodeId
  | [] => []
  | element :: rest => first :: idsFrom (first + element.size) rest

def openTo (name : QualifiedName) : Reference := .unresolved (.name name)

def Element.node (place : NodeId × FeatureId) (id : Nat) : Element → Node
  | .package name elements range =>
    { classifier := packageClass, container := some place, range := some range
      slots := [.attr (name.toList.map .string), .containment (idsFrom (id + 1) elements)] }
  | .type name extended implemented range =>
    { classifier := typeClass, container := some place, range := some range
      slots := [.attr (name.toList.map .string), .reference (extended.toList.map openTo),
        .reference (implemented.map openTo)] }

mutual

/-- The names in an element at `id` that wait, in the order in which they are written. -/
def Element.waits (id : Nat) : Element → List Pending
  | .package _ elements _ => waitsAll (id + 1) elements
  | .type _ extended implemented _ =>
    extended.toList.map (fun name => ⟨⟨id, 1, none⟩, .name name⟩) ++
      implemented.zipIdx.map fun (name, index) => ⟨⟨id, 2, some index⟩, .name name⟩

def waitsAll (first : Nat) : List Element → List Pending
  | [] => []
  | element :: rest => element.waits first ++ waitsAll (first + element.size) rest

end

mutual

/-- The nodes of a tree from `id` on are those of an element that is held at a place. -/
def Stands (tree : Tree) (place : NodeId × FeatureId) (id : Nat) : Element → Prop
  | .package name elements range =>
    tree.node? id = some (Element.node place id (.package name elements range)) ∧
      StandAll tree (id, 1) (id + 1) elements
  | .type name extended implemented range =>
    tree.node? id = some (Element.node place id (.type name extended implemented range))

def StandAll (tree : Tree) (place : NodeId × FeatureId) (first : Nat) : List Element → Prop
  | [] => True
  | element :: rest =>
    Stands tree place first element ∧ StandAll tree place (first + element.size) rest

end

variable {tree after : Tree} {place : NodeId × FeatureId} {id : Nat} {node : Node}
  {element : Element} {elements : List Element}

theorem Stands.node? (stands : Stands tree place id element) :
    tree.node? id = some (element.node place id) := by
  cases element with
  | package name elements range => exact stands.1
  | type name extended implemented range => exact stands

-- What stands in a tree depends on its own nodes only.
mutual

theorem Stands.of_same {element : Element} {place : NodeId × FeatureId} {id : Nat}
    (stands : Stands tree place id element)
    (same : ∀ other : Nat, id ≤ other → other < id + element.size →
      after.node? other = tree.node? other) :
    Stands after place id element := by
  cases element with
  | package name elements range =>
    refine ⟨(same id (Nat.le_refl _) (by simp [Element.size])).trans stands.1, ?_⟩
    refine StandAll.of_same stands.2 fun other low high => same other (by omega) ?_
    rw [Element.size]
    omega
  | type name extended implemented range =>
    exact (same id (Nat.le_refl _) (Nat.lt_succ_self _)).trans stands

theorem StandAll.of_same {elements : List Element} {place : NodeId × FeatureId} {first : Nat}
    (stand : StandAll tree place first elements)
    (same : ∀ other : Nat, first ≤ other → other < first + sizeAll elements →
      after.node? other = tree.node? other) :
    StandAll after place first elements := by
  cases elements with
  | nil => trivial
  | cons element rest =>
    rw [sizeAll] at same
    exact ⟨Stands.of_same stand.1 fun other low high => same other low (by omega),
      StandAll.of_same stand.2 fun other low high => same other (by omega) (by omega)⟩

end

/-! ### Changes of one node -/

structure Alters (draft : Draft) (id : NodeId) (node : Node) (waits : List Pending) (next : Draft) :
    Prop where
  size : next.tree.size = draft.tree.size
  root : next.tree.root = draft.tree.root
  node? : ∀ other, next.tree.node? other = if other = id then some node else draft.tree.node? other
  pending : next.pending = draft.pending ++ waits

namespace Alters

variable {draft middle next : Draft} {changed : Node} {waits more : List Pending}

theorem self (alters : Alters draft id node waits next) : next.tree.node? id = some node := by
  rw [alters.node?, if_pos rfl]

theorem trans (first : Alters draft id node waits middle)
    (second : Alters middle id changed more next) :
    Alters draft id changed (waits ++ more) next where
  size := second.size.trans first.size
  root := second.root.trans first.root
  node? other := by
    rw [second.node?, first.node?]
    split <;> rfl
  pending := by rw [second.pending, first.pending, List.append_assoc]

theorem of_modify (found : draft.tree.node? id = some node) (change : Node → Node)
    (waits : List Pending) :
    Alters draft id (change node) waits ⟨draft.tree.modify id change, draft.pending ++ waits⟩ where
  size := Tree.size_modify ..
  root := rfl
  node? other := by
    rw [Tree.node?_modify]
    by_cases same : id = other
    · subst same
      simp [found]
    · rw [if_neg same, if_neg (Ne.symm same)]
  pending := rfl

theorem refl (found : draft.tree.node? id = some node) : Alters draft id node [] draft where
  size := rfl
  root := rfl
  node? other := by
    split
    · next same => rw [same, found]
    · rfl
  pending := (List.append_nil _).symm

theorem setRange (found : draft.tree.node? id = some node) (range : TextRange) :
    Alters draft id { node with range := some range } [] (draft.setRange id range) := by
  have altered := of_modify found (fun node => { node with range := some range }) []
  rwa [List.append_nil] at altered

end Alters

end Crosslink.Types
