import Crosslink.Proofs.Tree.Climbing

/-! Sequences of operations on a tree.

Whatever an operation is called with, it is refused and leaves the tree as it
was, or it changes the tree in one of six ways.
-/

set_option autoImplicit false

namespace Crosslink

inductive Edit where
  | create (classifier : Classifier)
  | setRoot (id : NodeId)
  | attach (container : NodeId) (feature : String) (index : Option Nat) (child : NodeId)
  | detach (child : NodeId)
  | setAttribute (id : NodeId) (feature : String) (value : Value)
  | addAttribute (id : NodeId) (feature : String) (value : Value)
  | setReference (id : NodeId) (feature : String) (value : Reference)
  | addReference (id : NodeId) (feature : String) (value : Reference)
  | addProxy (id : NodeId) (feature : String) (proxy : Proxy)
  | setRange (id : NodeId) (range : TextRange)

namespace Tree

def perform (tree : Tree) : Edit → Except Violation Tree
  | .create classifier => .ok (tree.create classifier).1
  | .setRoot id => tree.setRoot id
  | .attach container feature index child => tree.attach container feature index child
  | .detach child => tree.detach child
  | .setAttribute id feature value => tree.setAttribute id feature value
  | .addAttribute id feature value => tree.addAttribute id feature value
  | .setReference id feature value => tree.setReference id feature value
  | .addReference id feature value => (tree.addReference id feature value).map (·.1)
  | .addProxy id feature proxy => (tree.addProxy id feature proxy).map (·.1)
  | .setRange id range => .ok (tree.setRange id range)

/-- The tree after an operation; a refused one changes nothing. -/
def apply (tree : Tree) (edit : Edit) : Tree :=
  match tree.perform edit with
  | .ok next => next
  | .error _ => tree

def run (tree : Tree) (edits : List Edit) : Tree := edits.foldl apply tree

def relink (tree : Tree) (container : NodeId) (position : FeatureId) (siblings : List NodeId)
    (child : NodeId) (place : Option (NodeId × FeatureId)) : Tree :=
  (tree.setSlot container position (.containment siblings)).modify child
    fun node => { node with container := place }

/-- The changes that operations can make, with what has been checked before. -/
inductive Change (tree : Tree) : Tree → Prop where
  | created (classifier : Classifier) : Change tree (tree.create classifier).1
  | rooted {id : NodeId} (inside : tree.contains id = true) (free : tree.container? id = none) :
      Change tree { tree with root := some id }
  | attached {container child : NodeId} {position : FeatureId} {declared : Feature}
      {classifier own : Classifier} (place : Nat)
      (container_class : tree.classifier? container = some classifier)
      (named : classifier.featureNamed? declared.name = some (position, declared))
      (kind : declared.kind = .containment)
      (child_class : tree.classifier? child = some own)
      (fits : own.fits declared = true)
      (ordinary : tree.root ≠ some child)
      (apart : child ≠ container)
      (above : tree.isAncestor child container = false)
      (free : tree.container? child = none)
      (room : declared.isMany = false → tree.childrenAt container position = [])
      (bound : place ≤ (tree.childrenAt container position).length) :
      Change tree (tree.relink container position
        ((tree.childrenAt container position).insertIdx place child) child
        (some (container, position)))
  | detached {container child : NodeId} {position : FeatureId}
      (held : tree.container? child = some (container, position)) :
      Change tree (tree.relink container position
        ((tree.childrenAt container position).filter (· ≠ child)) child none)
  | written {id : NodeId} {position : FeatureId} {declared : Feature} {slot : Slot}
      (found : tree.feature? id position = some declared)
      (kind : slot.kind = declared.kind)
      (childless : declared.kind ≠ .containment)
      (room : declared.isMany = false → slot.size ≤ 1) :
      Change tree (tree.setSlot id position slot)
  | ranged (id : NodeId) (range : TextRange) : Change tree (tree.setRange id range)

variable {tree next : Tree} {id : NodeId}

theorem change_attach {container child : NodeId} {name : String} {index : Option Nat}
    (done : tree.attach container name index child = .ok next) : Change tree next := by
  obtain ⟨position, declared, node, found, held, ordinary, apart, above, free, fits, room, bound,
    rfl⟩ := attach_ok done
  obtain ⟨holder, containerHeld, named, kind⟩ := featureOfKind_ok found
  obtain ⟨_, rfl⟩ := Classifier.featureNamed?_eq_some named
  exact .attached _ (by simp [classifier?, containerHeld]) named kind
    (by simp [classifier?, held]) fits ordinary apart above free room bound

theorem change_detach {child : NodeId} (done : tree.detach child = .ok next) :
    Change tree next := by
  obtain ⟨container, position, held, rfl⟩ := detach_ok done
  exact .detached held

-- A value may go into a slot found by name if it is of the kind asked for.
theorem change_write {name : String} {kind : FeatureKind} {position : FeatureId}
    {declared : Feature} {slot : Slot}
    (found : tree.featureOfKind id name kind = .ok (position, declared))
    (same : slot.kind = kind) (childless : kind ≠ .containment)
    (room : declared.isMany = false → slot.size ≤ 1) :
    Change tree (tree.setSlot id position slot) := by
  obtain ⟨node, held, named, rfl⟩ := featureOfKind_ok found
  exact .written (feature?_of_featureNamed? held named).1 same childless room

theorem change_setSingle {name : String} {kind : FeatureKind} {slot : Slot}
    (done : tree.setSingle id name kind slot = .ok next) (same : slot.kind = kind)
    (childless : kind ≠ .containment) (single : slot.size = 1) : Change tree next := by
  obtain ⟨position, declared, found, _, rfl⟩ := setSingle_ok done
  exact change_write found same childless fun _ => single.le

theorem change_addAttribute {name : String} {value : Value}
    (done : tree.addAttribute id name value = .ok next) : Change tree next := by
  obtain ⟨position, declared, values, found, free, rfl⟩ := addAttribute_ok done
  exact change_write found rfl (by decide) fun single => by simp [Slot.size, free single]

theorem change_addReference {name : String} {value : Reference} {place : Nat}
    (done : tree.addReference id name value = .ok (next, place)) : Change tree next := by
  obtain ⟨position, declared, found, free, _, rfl⟩ := addReference_ok done
  exact change_write found rfl (by decide) fun single => by simp [Slot.size, free single]

theorem change_of_perform {edit : Edit} (done : tree.perform edit = .ok next) :
    Change tree next := by
  cases edit with
  | create classifier =>
    cases done
    exact .created classifier
  | setRoot id =>
    obtain ⟨inside, free, rfl⟩ := setRoot_ok done
    exact .rooted inside free
  | attach container feature index child => exact change_attach done
  | detach child => exact change_detach done
  | setAttribute id feature value => exact change_setSingle done rfl (by decide) rfl
  | addAttribute id feature value => exact change_addAttribute done
  | setReference id feature value => exact change_setSingle done rfl (by decide) rfl
  | addReference id feature value =>
    obtain ⟨⟨after, place⟩, added, rfl⟩ := exists_of_map_eq_ok done
    exact change_addReference added
  | addProxy id feature proxy =>
    obtain ⟨⟨after, pending⟩, entered, rfl⟩ := exists_of_map_eq_ok done
    obtain ⟨_, _, _, _, added, _⟩ := addProxy_ok entered
    exact change_addReference added
  | setRange id range =>
    cases done
    exact .ranged id range

/-- What every change keeps is kept by every sequence of operations. -/
theorem run_induction {motive : Tree → Prop}
    (step : ∀ {tree next : Tree}, Change tree next → motive tree → motive next)
    (edits : List Edit) (start : motive tree) : motive (tree.run edits) := by
  induction edits generalizing tree with
  | nil => exact start
  | cons edit rest ih =>
    apply ih
    -- a refused operation leaves the tree, so that only a change has to be looked at
    cases done : tree.perform edit with
    | ok next => simpa [apply, done] using step (change_of_perform done) start
    | error violation => simpa [apply, done] using start

/-! ### Reading a tree with other links -/

section Relink

variable (container other : NodeId) (position asked : FeatureId) (siblings : List NodeId)
  (child : NodeId) (place : Option (NodeId × FeatureId))

@[simp] theorem size_relink :
    (tree.relink container position siblings child place).size = tree.size := by
  simp [relink]

@[simp] theorem contains_relink :
    (tree.relink container position siblings child place).contains other = tree.contains other := by
  simp [relink]

@[simp] theorem classifier?_relink :
    (tree.relink container position siblings child place).classifier? other =
      tree.classifier? other := by
  rw [relink, classifier?_modify, classifier?_setSlot]
  exact fun _ => rfl

@[simp] theorem feature?_relink :
    (tree.relink container position siblings child place).feature? other asked =
      tree.feature? other asked := by
  simp [feature?]

theorem slot?_relink : (tree.relink container position siblings child place).slot? other asked =
    if container = other ∧ position = asked ∧ (tree.slot? other asked).isSome then
      some (.containment siblings) else tree.slot? other asked := by
  rw [relink, slot?_modify, slot?_setSlot]
  exact fun _ => rfl

theorem childrenAt_relink :
    (tree.relink container position siblings child place).childrenAt other asked =
      if container = other ∧ position = asked ∧ (tree.slot? other asked).isSome then siblings
      else tree.childrenAt other asked := by
  rw [childrenAt, slot?_relink]
  split <;> rfl

theorem container?_relink (inside : tree.contains child = true) :
    (tree.relink container position siblings child place).container? other =
      if child = other then place else tree.container? other := by
  rw [relink, container?, node?_modify]
  split
  · next same =>
    subst same
    have present : (tree.setSlot container position (.containment siblings)).contains child = true := by
      simpa using inside
    obtain ⟨node, held⟩ := contains_iff.mp present
    simp [held]
  · exact container?_setSlot tree container other position _

end Relink

end Tree

end Crosslink
