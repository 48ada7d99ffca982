import Crosslink.Proofs.Types.Grammar
import Crosslink.Proofs.Types.Numbering
import Mathlib

/-! Texts without faults and their syntax trees.

A text has no diagnostic exactly if its tokens are derived in the grammar. Its tree is then the
syntax tree of the derivation, in which every name that is written is an open reference.
-/

set_option autoImplicit false

namespace Crosslink.Types

mutual

/-- A node shows an element: it is of its class, it has its name and its range, its children show
what stands inside, and it refers to the names that are extended and implemented, as they are
written. -/
def Shows (tree : Tree) (id : NodeId) : Element → Prop
  | .package name elements range =>
    tree.classifier? id = some packageClass ∧ tree.range? id = some range ∧
      tree.attributes id "name" = name.toList.map .string ∧
      ShowAll tree (tree.children id "elements") elements
  | .type name extended implemented range =>
    tree.classifier? id = some typeClass ∧ tree.range? id = some range ∧
      tree.attributes id "name" = name.toList.map .string ∧
      tree.references id "extends" = extended.toList.map openTo ∧
      tree.references id "implements" = implemented.map openTo

def ShowAll (tree : Tree) : List NodeId → List Element → Prop
  | [], [] => True
  | id :: ids, element :: rest => Shows tree id element ∧ ShowAll tree ids rest
  | _, _ => False

end

/-- The tree of a parsed text consists of a model with these elements, and what waits are its
references. -/
structure IsSyntaxTree (parsed : Parsed) (elements : List Element) : Prop where
  root : ∃ root, parsed.tree.root = some root ∧ parsed.tree.classifier? root = some modelClass ∧
    ShowAll parsed.tree (parsed.tree.children root "elements") elements
  /-- There is one node for the model and one for each declaration. -/
  size : parsed.tree.size = sizeAll elements + 1
  /-- One name waits for each that is written, in its feature and at its position. -/
  waits : parsed.tree.referenceValues = parsed.pending.map waiting

variable {tree : Tree} {elements : List Element}

mutual

theorem Stands.shows {place : NodeId × FeatureId} {id : Nat} {element : Element}
    (stands : Stands tree place id element) : Shows tree id element := by
  cases element with
  | package name elements range =>
    have below : tree.children id "elements" = idsFrom (id + 1) elements := by
      simp [Tree.children, Tree.slotNamed?, stands.node?, Element.node, featureNamed?_package,
        Slot.children]
    refine ⟨?kind, ?range, ?name, below ▸ StandAll.shows stands.2⟩
    case kind => simp [Tree.classifier?, stands.node?, Element.node]
    case range => simp [Tree.range?, stands.node?, Element.node]
    case name =>
      simp [Tree.attributes, Tree.slotNamed?, stands.node?, Element.node,
        featureNamed?_package_name, Slot.attributes]
  | type name extended implemented range =>
    refine ⟨?kind, ?range, ?name, references_extends stands, references_implements stands⟩
    case kind => simp [Tree.classifier?, stands.node?, Element.node]
    case range => simp [Tree.range?, stands.node?, Element.node]
    case name =>
      simp [Tree.attributes, Tree.slotNamed?, stands.node?, Element.node, featureNamed?_type_name,
        Slot.attributes]

theorem StandAll.shows {place : NodeId × FeatureId} {first : Nat} {elements : List Element}
    (stand : StandAll tree place first elements) :
    ShowAll tree (idsFrom first elements) elements := by
  cases elements with
  | nil => trivial
  | cons element rest => exact ⟨Stands.shows stand.1, StandAll.shows stand.2⟩

end

/-- Whatever a text is, the elements that are read in it have their syntax tree. -/
theorem isSyntaxTree_parse (text : String) :
    IsSyntaxTree (parse text) (readModel (visible text)).value := by
  have lays := lays_parse text
  have below : (parse text).tree.children 0 "elements" =
      idsFrom 1 (readModel (visible text)).value := by
    simp [Tree.children, Tree.slotNamed?, lays.model, modelNode, featureNamed?_model,
      Slot.children]
  refine { root := ⟨0, lays.root, ?_, below ▸ lays.stand.shows⟩, size := lays.size, waits := ?_ }
  · simp [Tree.classifier?, lays.model, modelNode]
  · rw [pending_parse]
    exact (lays.waits (sound_of_parse text).consistent).2

/-- A text has no diagnostic exactly if it is derived in the grammar, and then its tree is the
syntax tree of the derivation. -/
theorem faultless_iff_derived (text : String) :
    ((parse text).diagnostics = [] ↔ ∃ elements, DerivesModel (visible text) elements) ∧
      ∀ elements, DerivesModel (visible text) elements → IsSyntaxTree (parse text) elements := by
  rw [diagnostics_parse, List.map_eq_nil_iff]
  constructor
  · constructor
    · exact fun faultless => ⟨_, derivesModel_iff.mpr ⟨faultless, rfl⟩⟩
    · exact fun ⟨elements, derives⟩ => (derivesModel_iff.mp derives).1
  · intro elements derives
    rw [← (derivesModel_iff.mp derives).2]
    exact isSyntaxTree_parse text

def nestedText : String := "package a \x7b type B extends c.D implements E, a.B; \x7d"

def nestedElements : List Element :=
  [.package (some "a")
    [.type (some "B") (some ⟨["c", "D"]⟩) [⟨["E"]⟩, ⟨["a", "B"]⟩] ⟨12, 49⟩] ⟨0, 51⟩]

theorem nested_derived : DerivesModel (visible nestedText) nestedElements ∧
    (parse nestedText).diagnostics = [] ∧ IsSyntaxTree (parse nestedText) nestedElements := by
  have faultless : (readModel (visible nestedText)).faults = [] := by cbv
  have value : (readModel (visible nestedText)).value = nestedElements := by cbv
  have derives := derivesModel_iff.mpr ⟨faultless, value⟩
  exact ⟨derives, (faultless_iff_derived nestedText).1.mpr ⟨_, derives⟩,
    (faultless_iff_derived nestedText).2 _ derives⟩

end Crosslink.Types
