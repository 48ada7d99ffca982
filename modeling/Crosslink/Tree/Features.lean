import Crosslink.Tree.Containment

/-! The attributes and references of nodes. -/

set_option autoImplicit false

namespace Crosslink.Tree

def attributes (tree : Tree) (id : NodeId) (feature : String) : List Value :=
  ((tree.slotNamed? id feature).map Slot.attributes).getD []

def attribute? (tree : Tree) (id : NodeId) (feature : String) : Option Value :=
  (tree.attributes id feature).head?

/-- Put what a feature that has a single value holds. -/
def setSingle (tree : Tree) (id : NodeId) (feature : String) (kind : FeatureKind) (slot : Slot) :
    Except Violation Tree :=
  match tree.featureOfKind id feature kind with
  | .error violation => .error violation
  | .ok (position, declared) =>
    if declared.isMany then .error (.notSingleValued feature)
    else .ok (tree.setSlot id position slot)

def setAttribute (tree : Tree) (id : NodeId) (feature : String) (value : Value) :
    Except Violation Tree := tree.setSingle id feature .attr (.attr [value])

/-- Append a value to an attribute; one with a single value has to be empty. -/
def addAttribute (tree : Tree) (id : NodeId) (feature : String) (value : Value) :
    Except Violation Tree :=
  match tree.featureOfKind id feature .attr with
  | .error violation => .error violation
  | .ok (position, declared) =>
    let values := ((tree.slot? id position).map Slot.attributes).getD []
    if !declared.isMany ∧ values ≠ [] then .error (.cardinalityExceeded feature)
    else .ok (tree.setSlot id position (.attr (values ++ [value])))

/-- The values of the reference feature at a position. -/
def referencesAt (tree : Tree) (id : NodeId) (feature : FeatureId) : List Reference :=
  ((tree.slot? id feature).map Slot.references).getD []

def references (tree : Tree) (id : NodeId) (feature : String) : List Reference :=
  ((tree.slotNamed? id feature).map Slot.references).getD []

def reference? (tree : Tree) (id : NodeId) (feature : String) : Option Reference :=
  (tree.references id feature).head?

def setReference (tree : Tree) (id : NodeId) (feature : String) (value : Reference) :
    Except Violation Tree := tree.setSingle id feature .reference (.reference [value])

/-- Append a value to a reference feature; the answer says where it went. -/
def addReference (tree : Tree) (id : NodeId) (feature : String) (value : Reference) :
    Except Violation (Tree × Nat) :=
  match tree.featureOfKind id feature .reference with
  | .error violation => .error violation
  | .ok (position, declared) =>
    let values := tree.referencesAt id position
    if !declared.isMany ∧ values ≠ [] then .error (.cardinalityExceeded feature)
    else .ok (tree.setSlot id position (.reference (values ++ [value])), values.length)

/-- Append an open reference; the answer is what waits for it to be bound. -/
def addProxy (tree : Tree) (id : NodeId) (feature : String) (proxy : Proxy) :
    Except Violation (Tree × Pending) :=
  match tree.featureOfKind id feature .reference with
  | .error violation => .error violation
  | .ok (position, declared) =>
    match tree.addReference id feature (.unresolved proxy) with
    | .error violation => .error violation
    | .ok (tree, place) =>
      .ok (tree, ⟨⟨id, position, if declared.isMany then some place else none⟩, proxy⟩)

/-- The reference features of a node with their values. -/
def referenceSlots (tree : Tree) (id : NodeId) : List (FeatureId × Feature × List Reference) :=
  match tree.node? id with
  | none => []
  | some node =>
    node.classifier.features.zipIdx.filterMap fun (feature, position) =>
      match node.slots[position]? with
      | some (.reference values) => some (position, feature, values)
      | _ => none

/-- The value in a slot; without an index, the first one. -/
def referenceAt? (tree : Tree) (slot : SlotKey) : Option Reference :=
  (tree.referencesAt slot.source slot.feature)[slot.index.getD 0]?

/-- Put a value in the place of the one in a slot. -/
def replaceReference? (tree : Tree) (slot : SlotKey) (value : Reference) : Option Tree :=
  let values := tree.referencesAt slot.source slot.feature
  let place := slot.index.getD 0
  if place < values.length then
    some (tree.setSlot slot.source slot.feature (.reference (values.set place value)))
  else none

/-- Put a value in the place of the one in a slot, if there is one. -/
def replaceReference (tree : Tree) (slot : SlotKey) (value : Reference) : Tree :=
  (tree.replaceReference? slot value).getD tree

def referenceValuesOf (tree : Tree) (id : NodeId) : List (SlotKey × Reference) :=
  (tree.referenceSlots id).flatMap fun (position, feature, values) =>
    values.zipIdx.map fun (value, index) =>
      (⟨id, position, if feature.isMany then some index else none⟩, value)

/-- The reference values that can be reached from the root, in the order of the document. -/
def referenceValues (tree : Tree) : List (SlotKey × Reference) :=
  tree.allNodes.flatMap tree.referenceValuesOf

end Crosslink.Tree
