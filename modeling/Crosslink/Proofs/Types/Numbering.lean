import Crosslink.Proofs.Tree.Preorder
import Crosslink.Proofs.Types.Entering

/-! The nodes of elements in the order of the document.

That is the order in which they are numbered, and their references come in the order in
which the names are written.
-/

set_option autoImplicit false

namespace Crosslink.Types

variable {tree : Tree} {place : NodeId × FeatureId} {id first bytes : Nat} {element : Element}
  {elements : List Element}

theorem Stands.contains (stands : Stands tree place id element) : tree.contains id = true :=
  Tree.contains_iff.mpr ⟨_, stands.node?⟩

theorem contents_of_package {name : Option String} {range : TextRange}
    (stands : Stands tree place id (.package name elements range)) :
    tree.contents id = idsFrom (id + 1) elements := by
  simp [Tree.contents, stands.node?, Element.node, Slot.children]

theorem contents_of_type {name : Option String} {extended : Option QualifiedName}
    {implemented : List QualifiedName} {range : TextRange}
    (stands : Stands tree place id (.type name extended implemented range)) :
    tree.contents id = [] := by
  simp [Tree.contents, stands.node?, Element.node, Slot.children]

theorem Lays.contents (lays : Lays tree bytes elements) : tree.contents 0 = idsFrom 1 elements := by
  simp [Tree.contents, lays.model, modelNode, Slot.children]

/-! ### Nodes -/

mutual

theorem Stands.descendants {place : NodeId × FeatureId} {id : Nat} {element : Element}
    (consistent : tree.Consistent) (stands : Stands tree place id element) :
    tree.descendants id = List.range' id element.size := by
  rw [consistent.descendants_eq stands.contains]
  cases element with
  | package name elements range =>
    rw [contents_of_package stands, StandAll.descendants consistent stands.2, Element.size,
      List.range'_succ]
  | type name extended implemented range =>
    rw [contents_of_type stands]
    rfl

theorem StandAll.descendants {place : NodeId × FeatureId} {first : Nat} {elements : List Element}
    (consistent : tree.Consistent) (stand : StandAll tree place first elements) :
    (idsFrom first elements).flatMap tree.descendants = List.range' first (sizeAll elements) := by
  cases elements with
  | nil => rfl
  | cons element rest =>
    rw [idsFrom, List.flatMap_cons, Stands.descendants consistent stand.1,
      StandAll.descendants consistent stand.2, sizeAll, List.range'_append_1]

end

/-- All nodes can be reached, in the order of their numbers. -/
theorem Lays.allNodes (consistent : tree.Consistent) (lays : Lays tree bytes elements) :
    tree.allNodes = List.range tree.size := by
  have inside : tree.contains 0 = true := Tree.contains_iff.mpr ⟨_, lays.model⟩
  rw [Tree.allNodes, lays.root]
  show tree.descendants 0 = _
  rw [consistent.descendants_eq inside, lays.contents, StandAll.descendants consistent lays.stand,
    lays.size, List.range_eq_range', List.range'_succ]

/-! ### References -/

/-- The names that a node waits for: the one it extends, and those it implements, counted from
zero. -/
def waitsAt (tree : Tree) (id : NodeId) : List Pending :=
  ((tree.references id "extends").filterMap Reference.proxy?).map
      (fun proxy => ⟨⟨id, 1, none⟩, proxy⟩) ++
    ((tree.references id "implements").filterMap Reference.proxy?).zipIdx.map
      fun (proxy, index) => ⟨⟨id, 2, some index⟩, proxy⟩

def waiting (pending : Pending) : SlotKey × Reference := (pending.slot, .unresolved pending.proxy)

theorem features_package : packageClass.features = [.attr "name", elementsFeature] := rfl

theorem features_type : typeClass.features = [.attr "name",
    (Feature.reference "extends" "Type").cross,
    (Feature.reference "implements" "Type").many.cross] := rfl

theorem waitsAt_of_package {name : Option String} {range : TextRange}
    (stands : Stands tree place id (.package name elements range)) : waitsAt tree id = [] := by
  have extended : packageClass.featureNamed? "extends" = none := by decide
  have implemented : packageClass.featureNamed? "implements" = none := by decide
  simp [waitsAt, Tree.references, Tree.slotNamed?, stands.node?, Element.node, extended,
    implemented]

theorem referenceValuesOf_of_package {name : Option String} {range : TextRange}
    (stands : Stands tree place id (.package name elements range)) :
    tree.referenceValuesOf id = [] := by
  simp [Tree.referenceValuesOf, Tree.referenceSlots, stands.node?, Element.node, features_package]

section Declared

variable {name : Option String} {extended : Option QualifiedName} {implemented : List QualifiedName}
  {range : TextRange} (stands : Stands tree place id (.type name extended implemented range))
include stands

theorem references_extends : tree.references id "extends" = extended.toList.map openTo := by
  simp [Tree.references, Tree.slotNamed?, stands.node?, Element.node, featureNamed?_extends,
    Slot.references]

theorem references_implements : tree.references id "implements" = implemented.map openTo := by
  simp [Tree.references, Tree.slotNamed?, stands.node?, Element.node, featureNamed?_implements,
    Slot.references]

theorem waitsAt_of_type :
    waitsAt tree id = (Element.type name extended implemented range).waits id := by
  rw [waitsAt, references_extends stands, references_implements stands, Element.waits]
  simp [List.filterMap_map, Function.comp_def, openTo, Reference.proxy?, List.zipIdx_map]

theorem referenceValuesOf_of_type : tree.referenceValuesOf id =
    ((Element.type name extended implemented range).waits id).map waiting := by
  have one : (Feature.reference "extends" "Type").cross.isMany = false := rfl
  have many : (Feature.reference "implements" "Type").many.cross.isMany = true := rfl
  rw [Tree.referenceValuesOf, Tree.referenceSlots, stands.node?, Element.waits]
  cases extended <;>
    simp [Element.node, features_type, one, many, Function.comp_def, List.zipIdx_map, waiting,
      openTo]

end Declared

-- A package has no references of its own, and a type nothing but its own.
mutual

theorem Stands.waits {place : NodeId × FeatureId} {id : Nat} {element : Element}
    (stands : Stands tree place id element) :
    (List.range' id element.size).flatMap (waitsAt tree) = element.waits id ∧
      (List.range' id element.size).flatMap tree.referenceValuesOf =
        (element.waits id).map waiting := by
  cases element with
  | package name elements range =>
    obtain ⟨pending, values⟩ := StandAll.waits stands.2
    simp only [Element.size, List.range'_succ, List.flatMap_cons]
    rw [waitsAt_of_package stands, referenceValuesOf_of_package stands, pending, values]
    exact ⟨rfl, rfl⟩
  | type name extended implemented range =>
    simp only [Element.size, List.range'_one, List.flatMap_cons, List.flatMap_nil, List.append_nil]
    exact ⟨waitsAt_of_type stands, referenceValuesOf_of_type stands⟩

theorem StandAll.waits {place : NodeId × FeatureId} {first : Nat} {elements : List Element}
    (stand : StandAll tree place first elements) :
    (List.range' first (sizeAll elements)).flatMap (waitsAt tree) = waitsAll first elements ∧
      (List.range' first (sizeAll elements)).flatMap tree.referenceValuesOf =
        (waitsAll first elements).map waiting := by
  cases elements with
  | nil => exact ⟨rfl, rfl⟩
  | cons element rest =>
    obtain ⟨pending, values⟩ := Stands.waits stand.1
    obtain ⟨pending', values'⟩ := StandAll.waits stand.2
    rw [sizeAll, ← List.range'_append_1, List.flatMap_append, List.flatMap_append, pending,
      pending', values, values', waitsAll, List.map_append]
    exact ⟨rfl, rfl⟩

end

/-- What waits are the references of the tree, in the order of the document. -/
theorem Lays.waits (consistent : tree.Consistent) (lays : Lays tree bytes elements) :
    tree.allNodes.flatMap (waitsAt tree) = waitsAll 1 elements ∧
      tree.referenceValues = (waitsAll 1 elements).map waiting := by
  have nothing : waitsAt tree 0 = [] := by
    have extended : modelClass.featureNamed? "extends" = none := by decide
    have implemented : modelClass.featureNamed? "implements" = none := by decide
    simp [waitsAt, Tree.references, Tree.slotNamed?, lays.model, modelNode, extended, implemented]
  have none_held : tree.referenceValuesOf 0 = [] := by
    have features : modelClass.features = [elementsFeature] := rfl
    simp [Tree.referenceValuesOf, Tree.referenceSlots, lays.model, modelNode, features]
  obtain ⟨pending, values⟩ := lays.stand.waits
  rw [Tree.referenceValues, lays.allNodes consistent, lays.size, List.range_eq_range',
    List.range'_succ, List.flatMap_cons, List.flatMap_cons, nothing, none_held, pending, values]
  exact ⟨rfl, rfl⟩

end Crosslink.Types
