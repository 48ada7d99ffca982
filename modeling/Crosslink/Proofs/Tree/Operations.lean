import Crosslink.Tree.Path

/-! What the operations on trees do to what can be read from a tree.

A tree is read node by node: the classifier, the container and the slots. An
operation that succeeds has passed all its checks, and they are listed here
once, together with the tree it leaves behind.
-/

set_option autoImplicit false

namespace Crosslink

theorem exists_of_map_eq_ok {ε α β : Type} {change : α → β} {result : Except ε α} {value : β}
    (done : result.map change = .ok value) : ∃ before, result = .ok before ∧ change before = value := by
  cases result with
  | error fault => cases done
  | ok before =>
    cases done
    exact ⟨before, rfl, rfl⟩

namespace Slot

def kind : Slot → FeatureKind
  | attr _ => .attr
  | containment _ => .containment
  | reference _ => .reference

def size : Slot → Nat
  | attr values => values.length
  | containment children => children.length
  | reference values => values.length

theorem kind_empty (kind : FeatureKind) : (Slot.empty kind).kind = kind := by
  cases kind <;> rfl

theorem size_empty (kind : FeatureKind) : (Slot.empty kind).size = 0 := by
  cases kind <;> rfl

theorem children_empty (kind : FeatureKind) : (Slot.empty kind).children = [] := by
  cases kind <;> rfl

theorem references_empty (kind : FeatureKind) : (Slot.empty kind).references = [] := by
  cases kind <;> rfl

theorem children_of_kind {slot : Slot} (other : slot.kind ≠ .containment) : slot.children = [] := by
  cases slot with
  | attr values => rfl
  | containment children => exact absurd rfl other
  | reference values => rfl

end Slot

namespace Classifier

theorem featureNamed?_eq_some {classifier : Classifier} {name : String} {id : FeatureId}
    {feature : Feature} (found : classifier.featureNamed? name = some (id, feature)) :
    classifier.feature? id = some feature ∧ feature.name = name := by
  simp only [featureNamed?, Option.bind_eq_some_iff, Option.map_eq_some_iff, Prod.mk.injEq] at found
  obtain ⟨first, search, other, held, rfl, rfl⟩ := found
  refine ⟨held, ?_⟩
  obtain ⟨bound, same, _⟩ := List.findIdx?_eq_some_iff_getElem.mp search
  simp only [feature?, List.getElem?_eq_getElem bound, Option.some.injEq] at held
  simpa [held] using same

end Classifier

namespace Tree

variable {tree next : Tree} {id : NodeId}

def feature? (tree : Tree) (id : NodeId) (position : FeatureId) : Option Feature :=
  (tree.classifier? id).bind (·.feature? position)

def Holds (tree : Tree) (above below : NodeId) : Prop :=
  ∃ position, tree.container? below = some (above, position)

theorem contains_iff : tree.contains id = true ↔ ∃ node, tree.node? id = some node := by
  rw [contains, decide_eq_true_eq]
  exact ⟨fun inside => ⟨_, Array.getElem?_eq_getElem inside⟩,
    fun ⟨_, found⟩ => (Array.getElem?_eq_some_iff.mp found).1⟩

theorem node?_eq_none_iff : tree.node? id = none ↔ tree.size ≤ id := by
  simp [node?, size]

theorem contains_of_container {place : NodeId × FeatureId}
    (held : tree.container? id = some place) : tree.contains id = true := by
  obtain ⟨node, found, _⟩ := Option.bind_eq_some_iff.mp held
  exact contains_iff.mpr ⟨node, found⟩

theorem contains_of_feature? {position : FeatureId} {feature : Feature}
    (declared : tree.feature? id position = some feature) : tree.contains id = true := by
  obtain ⟨classifier, own, _⟩ := Option.bind_eq_some_iff.mp declared
  obtain ⟨node, held, _⟩ := Option.map_eq_some_iff.mp own
  exact contains_iff.mpr ⟨node, held⟩

theorem lt_size_of_contains (inside : tree.contains id = true) : id < tree.size := by
  simpa [contains] using inside

/-! ### Changing one node -/

theorem classifier?_modify (tree : Tree) (id other : NodeId) {change : Node → Node}
    (keeps : ∀ node, (change node).classifier = node.classifier) :
    (tree.modify id change).classifier? other = tree.classifier? other := by
  simp only [classifier?, node?_modify]
  split
  · cases tree.node? other <;> simp [keeps]
  · rfl

theorem feature?_modify (tree : Tree) (id other : NodeId) (position : FeatureId)
    {change : Node → Node} (keeps : ∀ node, (change node).classifier = node.classifier) :
    (tree.modify id change).feature? other position = tree.feature? other position := by
  simp only [feature?, classifier?_modify tree id other keeps]

theorem container?_modify (tree : Tree) (id other : NodeId) {change : Node → Node}
    (keeps : ∀ node, (change node).container = node.container) :
    (tree.modify id change).container? other = tree.container? other := by
  simp only [container?, node?_modify]
  split
  · cases tree.node? other <;> simp [keeps]
  · rfl

theorem slot?_modify (tree : Tree) (id other : NodeId) (position : FeatureId)
    {change : Node → Node} (keeps : ∀ node, (change node).slots = node.slots) :
    (tree.modify id change).slot? other position = tree.slot? other position := by
  simp only [slot?, node?_modify]
  split
  · cases tree.node? other <;> simp [keeps]
  · rfl

@[simp] theorem contains_modify (tree : Tree) (id other : NodeId) (change : Node → Node) :
    (tree.modify id change).contains other = tree.contains other := by
  simp [contains]

/-! ### Changing one slot -/

@[simp] theorem classifier?_setSlot (tree : Tree) (id other : NodeId) (position : FeatureId)
    (slot : Slot) : (tree.setSlot id position slot).classifier? other = tree.classifier? other :=
  classifier?_modify tree id other fun _ => rfl

@[simp] theorem feature?_setSlot (tree : Tree) (id other : NodeId) (place position : FeatureId)
    (slot : Slot) : (tree.setSlot id place slot).feature? other position =
      tree.feature? other position :=
  feature?_modify tree id other position fun _ => rfl

@[simp] theorem container?_setSlot (tree : Tree) (id other : NodeId) (position : FeatureId)
    (slot : Slot) : (tree.setSlot id position slot).container? other = tree.container? other :=
  container?_modify tree id other fun _ => rfl

@[simp] theorem size_setSlot (tree : Tree) (id : NodeId) (position : FeatureId) (slot : Slot) :
    (tree.setSlot id position slot).size = tree.size := by
  simp [setSlot]

@[simp] theorem contains_setSlot (tree : Tree) (id other : NodeId) (position : FeatureId)
    (slot : Slot) : (tree.setSlot id position slot).contains other = tree.contains other := by
  simp [setSlot]

theorem slot?_setSlot (tree : Tree) (id other : NodeId) (place position : FeatureId) (slot : Slot) :
    (tree.setSlot id place slot).slot? other position =
      if id = other ∧ place = position ∧ (tree.slot? other position).isSome then some slot
      else tree.slot? other position := by
  have after : (tree.setSlot id place slot).slot? other position =
      ((if id = other then (tree.node? other).map (·.setSlot place slot)
        else tree.node? other).bind (·.slots[position]?)) := by
    rw [slot?, setSlot, node?_modify]
  rw [after]
  by_cases same : id = other
  · rw [if_pos same]
    cases held : tree.node? other with
    | none =>
      have missing : tree.slot? other position = none := by simp [slot?, held]
      simp [missing]
    | some node =>
      have before : tree.slot? other position = node.slots[position]? := by simp [slot?, held]
      rw [before]
      by_cases here : place = position
      · by_cases bound : position < node.slots.length <;> simp [Node.setSlot, same, here, bound]
      · simp [Node.setSlot, here]
  · simp [same, slot?]

theorem childrenAt_setSlot (tree : Tree) (id other : NodeId) (place position : FeatureId)
    (slot : Slot) : (tree.setSlot id place slot).childrenAt other position =
      if id = other ∧ place = position ∧ (tree.slot? other position).isSome then slot.children
      else tree.childrenAt other position := by
  simp only [childrenAt, slot?_setSlot]
  split <;> simp

theorem childrenAt_setSlot_of_childless {place : FeatureId} {slot : Slot}
    (before : tree.childrenAt id place = []) (after : slot.children = []) (other : NodeId)
    (position : FeatureId) :
    (tree.setSlot id place slot).childrenAt other position = tree.childrenAt other position := by
  rw [childrenAt_setSlot]
  split
  · next here =>
    obtain ⟨rfl, rfl, _⟩ := here
    rw [before, after]
  · rfl

/-! ### Adding a node -/

theorem node?_create (tree : Tree) (classifier : Classifier) (other : NodeId) :
    (tree.create classifier).1.node? other =
      if other = tree.size then some (Node.ofClassifier classifier) else tree.node? other := by
  simp only [create, node?, size, Array.getElem?_push]
  rfl

theorem container?_create (tree : Tree) (classifier : Classifier) (other : NodeId) :
    (tree.create classifier).1.container? other = tree.container? other := by
  simp only [container?, node?_create]
  split
  · next fresh => simp [fresh, node?_eq_none_iff.mpr, Node.ofClassifier]
  · rfl

theorem childrenAt_create (tree : Tree) (classifier : Classifier) (other : NodeId)
    (position : FeatureId) :
    (tree.create classifier).1.childrenAt other position = tree.childrenAt other position := by
  simp only [childrenAt, slot?, node?_create]
  split
  · next fresh =>
    simp only [fresh, node?_eq_none_iff.mpr (Nat.le_refl _), Node.ofClassifier, Option.bind_some,
      Option.bind_none, Option.map_none, Option.getD_none, List.getElem?_map]
    cases classifier.features[position]? <;> simp [Slot.children_empty]
  · rfl

theorem classifier?_create_of_some {classifier found : Classifier} (other : NodeId)
    (present : tree.classifier? other = some found) :
    (tree.create classifier).1.classifier? other = some found := by
  obtain ⟨node, held, rfl⟩ := Option.map_eq_some_iff.mp present
  have older : other ≠ tree.size := by
    rintro rfl
    simp [node?_eq_none_iff.mpr] at held
  simp [classifier?, node?_create, older, held]

theorem feature?_create {classifier : Classifier} (inside : tree.contains id = true)
    (position : FeatureId) :
    (tree.create classifier).1.feature? id position = tree.feature? id position := by
  have older : id ≠ tree.size := Nat.ne_of_lt (lt_size_of_contains inside)
  simp [feature?, classifier?, node?_create, older]

/-! ### What a success has checked -/

theorem featureOfKind_ok {name : String} {kind : FeatureKind} {position : FeatureId}
    {feature : Feature} (done : tree.featureOfKind id name kind = .ok (position, feature)) :
    ∃ node, tree.node? id = some node ∧
      node.classifier.featureNamed? name = some (position, feature) ∧ feature.kind = kind := by
  simp only [featureOfKind, Tree.feature] at done
  split at done
  · cases done
  · next declared found =>
    split at found
    · cases found
    · next node held =>
      split at found
      · cases found
      · next named =>
        split at done <;> simp_all

theorem feature?_of_featureNamed? {node : Node} {name : String} {position : FeatureId}
    {feature : Feature} (held : tree.node? id = some node)
    (named : node.classifier.featureNamed? name = some (position, feature)) :
    tree.feature? id position = some feature ∧ feature.name = name := by
  obtain ⟨found, same⟩ := Classifier.featureNamed?_eq_some named
  exact ⟨by simp [feature?, classifier?, held, found], same⟩

theorem setRoot_ok (done : tree.setRoot id = .ok next) :
    tree.contains id = true ∧ tree.container? id = none ∧ next = { tree with root := some id } := by
  simp only [setRoot] at done
  split at done
  · cases done
  · next node held =>
    split at done
    · cases done
    · next free =>
      refine ⟨contains_iff.mpr ⟨node, held⟩, ?_, by simpa using done.symm⟩
      simpa [container?, held] using free

/-- All that an attachment has checked, and what it leaves. -/
theorem attach_ok {container child : NodeId} {name : String} {index : Option Nat}
    (done : tree.attach container name index child = .ok next) :
    ∃ position declared node,
      tree.featureOfKind container name .containment = .ok (position, declared) ∧
      tree.node? child = some node ∧ tree.root ≠ some child ∧ child ≠ container ∧
      tree.isAncestor child container = false ∧ tree.container? child = none ∧
      node.classifier.fits declared = true ∧
      (declared.isMany = false → tree.childrenAt container position = []) ∧
      index.getD (tree.childrenAt container position).length ≤
        (tree.childrenAt container position).length ∧
      next = (tree.setSlot container position (.containment
        ((tree.childrenAt container position).insertIdx
          (index.getD (tree.childrenAt container position).length) child))).modify child
          fun node => { node with container := some (container, position) } := by
  simp only [attach] at done
  split at done
  · cases done
  · next position declared found =>
    split at done
    · cases done
    · next node held =>
      have free : tree.container? child = node.container := by simp [container?, held]
      refine ⟨position, declared, node, found, held, ?_⟩
      by_cases root : tree.root = some child
      · simp [root] at done
      by_cases cycle : child = container ∨ tree.isAncestor child container = true
      · simp [root, cycle] at done
      by_cases owned : node.container.isSome = true
      · simp [root, cycle, owned] at done
      by_cases typed : node.classifier.fits declared = true
      · by_cases full : declared.isMany = false ∧ tree.childrenAt container position ≠ []
        · simp [root, cycle, owned, typed, full] at done
        by_cases far : (tree.childrenAt container position).length <
            index.getD (tree.childrenAt container position).length
        · simp [root, cycle, owned, typed, full, far] at done
        · simp only [root, cycle, owned, typed, full, far, Bool.not_eq_true', Bool.not_true,
            Bool.false_eq_true, if_false, Except.ok.injEq] at done
          simp only [not_or, Bool.not_eq_true] at cycle
          refine ⟨root, cycle.1, cycle.2, ?_, typed, ?_, by omega, done.symm⟩
          · simpa [free] using owned
          · intro single
            simpa [single] using full
      · simp [root, cycle, owned, typed] at done

theorem detach_ok {child : NodeId} (done : tree.detach child = .ok next) :
    ∃ container position, tree.container? child = some (container, position) ∧
      next = (tree.setSlot container position (.containment
        ((tree.childrenAt container position).filter (· ≠ child)))).modify child
          fun node => { node with container := none } := by
  simp only [detach] at done
  split at done
  · cases done
  · next node held =>
    split at done
    · cases done
    · next container position place =>
      refine ⟨container, position, by simp [container?, held, place], ?_⟩
      simpa using done.symm

theorem setSingle_ok {name : String} {kind : FeatureKind} {slot : Slot}
    (done : tree.setSingle id name kind slot = .ok next) :
    ∃ position declared, tree.featureOfKind id name kind = .ok (position, declared) ∧
      declared.isMany = false ∧ next = tree.setSlot id position slot := by
  unfold setSingle at done
  split at done
  · cases done
  · next position declared found =>
    split at done
    · cases done
    · next one =>
      cases done
      exact ⟨position, declared, found, by simpa using one, rfl⟩

theorem addAttribute_ok {name : String} {value : Value}
    (done : tree.addAttribute id name value = .ok next) :
    ∃ position declared values, tree.featureOfKind id name .attr = .ok (position, declared) ∧
      (declared.isMany = false → values = []) ∧
      next = tree.setSlot id position (.attr (values ++ [value])) := by
  unfold addAttribute at done
  split at done
  · cases done
  · next position declared found =>
    dsimp only at done
    split at done
    · cases done
    · next free =>
      cases done
      exact ⟨position, declared, _, found, fun single => by simpa [single] using free, rfl⟩

/-- An appended value goes behind those that the feature holds. -/
theorem addReference_ok {name : String} {value : Reference} {place : Nat}
    (done : tree.addReference id name value = .ok (next, place)) :
    ∃ position declared, tree.featureOfKind id name .reference = .ok (position, declared) ∧
      (declared.isMany = false → tree.referencesAt id position = []) ∧
      place = (tree.referencesAt id position).length ∧
      next = tree.setSlot id position (.reference (tree.referencesAt id position ++ [value])) := by
  simp only [addReference] at done
  split at done
  · cases done
  · next position declared found =>
    split at done
    · cases done
    · next free =>
      simp only [Except.ok.injEq, Prod.mk.injEq] at done
      obtain ⟨rfl, rfl⟩ := done
      refine ⟨position, declared, found, fun single => ?_, rfl, rfl⟩
      simpa [single] using free

/-- An open reference is appended as its proxy, and what waits for it names its slot. -/
theorem addProxy_ok {name : String} {proxy : Proxy} {pending : Pending}
    (done : tree.addProxy id name proxy = .ok (next, pending)) :
    ∃ position declared place, tree.featureOfKind id name .reference = .ok (position, declared) ∧
      tree.addReference id name (.unresolved proxy) = .ok (next, place) ∧
      pending = ⟨⟨id, position, if declared.isMany then some place else none⟩, proxy⟩ := by
  simp only [addProxy] at done
  split at done
  · cases done
  · next position declared found =>
    split at done
    · cases done
    · next after place added =>
      simp only [Except.ok.injEq, Prod.mk.injEq] at done
      obtain ⟨rfl, rfl⟩ := done
      exact ⟨position, declared, place, found, added, rfl⟩

end Tree

end Crosslink
