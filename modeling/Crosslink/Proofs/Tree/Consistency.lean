import Crosslink.Proofs.Tree.Edits
import Mathlib.Data.List.Count
import Mathlib.Data.List.Nodup

/-! What holds of every tree that was made by operations.

Children and containers are noted twice, downwards and upwards, and both notes
agree after each operation, whatever it was called with. Climbing ends because a
node is attached only below nodes that it does not contain.
-/

set_option autoImplicit false

namespace Crosslink.Tree

/-- The links, the slots and the classifiers of a tree agree. -/
structure Consistent (tree : Tree) : Prop where
  /-- Each feature has a slot of its own kind, and there are no other slots. -/
  kinds : ∀ id position,
    (tree.slot? id position).map Slot.kind = (tree.feature? id position).map Feature.kind
  /-- A feature that is not for many holds one value at most. -/
  single : ∀ {id position feature slot}, tree.feature? id position = some feature →
    feature.isMany = false → tree.slot? id position = some slot → slot.size ≤ 1
  /-- A node stands once in the slot that its container names. -/
  once : ∀ {id container position}, tree.container? id = some (container, position) →
    (tree.childrenAt container position).count id = 1
  /-- A node stands in no slot but the one that its container names. -/
  listed : ∀ {id container position}, id ∈ tree.childrenAt container position →
    tree.container? id = some (container, position)
  /-- Climbing from container to container ends. -/
  ends : WellFounded tree.Holds
  /-- The root exists, and nothing contains it. -/
  root : ∀ {id}, tree.root = some id → tree.contains id = true ∧ tree.container? id = none
  /-- The feature that holds a node is the first of its name, and admits the node. -/
  held : ∀ {id container position}, tree.container? id = some (container, position) →
    ∃ own classifier declared, tree.classifier? id = some own ∧
      tree.classifier? container = some classifier ∧
      classifier.featureNamed? declared.name = some (position, declared) ∧
      own.fits declared = true

variable {tree next : Tree} {id : NodeId} {position : FeatureId}

theorem consistent_empty : Tree.empty.Consistent where
  kinds _ _ := by simp [Tree.empty, slot?, feature?, classifier?, node?]
  single found := by simp [Tree.empty, feature?, classifier?, node?] at found
  once found := by simp [Tree.empty, container?, node?] at found
  listed found := by simp [Tree.empty, childrenAt, slot?, node?] at found
  ends := ⟨fun _ => ⟨_, fun _ ⟨_, found⟩ => by simp [Tree.empty, container?, node?] at found⟩⟩
  root found := by simp [Tree.empty] at found
  held found := by simp [Tree.empty, container?, node?] at found

namespace Consistent

variable (consistent : tree.Consistent)
include consistent

theorem slot_of_feature {feature : Feature} (found : tree.feature? id position = some feature) :
    ∃ slot, tree.slot? id position = some slot ∧ slot.kind = feature.kind := by
  have kinds := consistent.kinds id position
  rw [found, Option.map_some] at kinds
  exact Option.map_eq_some_iff.mp kinds

theorem childrenAt_of_kind {feature : Feature} (found : tree.feature? id position = some feature)
    (childless : feature.kind ≠ .containment) : tree.childrenAt id position = [] := by
  obtain ⟨slot, held, kind⟩ := consistent.slot_of_feature found
  rw [childrenAt, held]
  exact Slot.children_of_kind (kind ▸ childless)

theorem nodup_childrenAt : (tree.childrenAt id position).Nodup := by
  rw [List.nodup_iff_count_le_one]
  intro child
  by_cases member : child ∈ tree.childrenAt id position
  · exact le_of_eq (consistent.once (consistent.listed member))
  · rw [List.count_eq_zero_of_not_mem member]
    exact Nat.zero_le 1

theorem mem_childrenAt {child : NodeId} :
    child ∈ tree.childrenAt id position ↔ tree.container? child = some (id, position) := by
  refine ⟨consistent.listed, fun held => ?_⟩
  rw [← List.count_pos_iff, consistent.once held]
  exact Nat.one_pos

theorem length_childrenAt_le_one {feature : Feature}
    (found : tree.feature? id position = some feature) (one : feature.isMany = false) :
    (tree.childrenAt id position).length ≤ 1 := by
  obtain ⟨slot, seen, _⟩ := consistent.slot_of_feature found
  have few := consistent.single found one seen
  rw [childrenAt, seen, Option.map_some, Option.getD_some]
  cases slot with
  | containment children => exact few
  | attr values => exact Nat.zero_le 1
  | reference values => exact Nat.zero_le 1

theorem feature_of_container {child : NodeId} (held : tree.container? child = some (id, position)) :
    ∃ feature, tree.feature? id position = some feature ∧ feature.kind = .containment := by
  obtain ⟨_, classifier, declared, _, holder, named, _⟩ := consistent.held held
  have found : tree.feature? id position = some declared := by
    simpa [feature?, holder] using (Classifier.featureNamed?_eq_some named).1
  refine ⟨declared, found, Classical.byContradiction fun other => ?_⟩
  have member := consistent.mem_childrenAt.mpr held
  rw [consistent.childrenAt_of_kind found other] at member
  cases member

theorem forest : tree.Forest where
  ends := consistent.ends
  inside := by
    rintro above below ⟨position, held⟩
    obtain ⟨_, classifier, _, _, found, _⟩ := consistent.held held
    obtain ⟨node, present, _⟩ := Option.map_eq_some_iff.mp found
    exact contains_iff.mpr ⟨node, present⟩

/-! ### Each change keeps the agreement -/

theorem created (classifier : Classifier) : (tree.create classifier).1.Consistent where
  kinds id position := by
    have kinds := consistent.kinds id position
    simp only [slot?, feature?, classifier?, node?_create] at kinds ⊢
    split
    · simp only [Node.ofClassifier, Option.bind_some, Option.map_some, List.getElem?_map,
        Classifier.feature?]
      cases classifier.features[position]? <;> simp [Slot.kind_empty]
    · exact kinds
  single {id position feature slot} found one holds := by
    simp only [slot?, feature?, classifier?, node?_create] at found holds
    split at found
    · next fresh =>
      simp only [fresh, if_true, Node.ofClassifier, Option.bind_some, List.getElem?_map,
        Option.map_eq_some_iff] at holds
      obtain ⟨_, _, rfl⟩ := holds
      simp [Slot.size_empty]
    · next older =>
      rw [if_neg older] at holds
      exact consistent.single found one holds
  once found := by
    rw [container?_create] at found
    rw [childrenAt_create]
    exact consistent.once found
  listed member := by
    rw [childrenAt_create] at member
    rw [container?_create]
    exact consistent.listed member
  ends := by
    refine Subrelation.wf (fun {above below} holds => ?_) consistent.ends
    simpa only [Holds, container?_create] using holds
  root {id} found := by
    obtain ⟨inside, free⟩ := consistent.root found
    refine ⟨?_, by rwa [container?_create]⟩
    obtain ⟨node, held⟩ := contains_iff.mp inside
    have older := lt_size_of_contains inside
    exact contains_iff.mpr ⟨node, by rw [node?_create, if_neg (Nat.ne_of_lt older), held]⟩
  held found := by
    rw [container?_create] at found
    obtain ⟨own, classifier, declared, child, container, named, fits⟩ := consistent.held found
    exact ⟨own, classifier, declared, classifier?_create_of_some _ child,
      classifier?_create_of_some _ container, named, fits⟩

theorem rooted (inside : tree.contains id = true) (free : tree.container? id = none) :
    ({ tree with root := some id } : Tree).Consistent :=
  { consistent with
    root := by
      rintro other ⟨rfl⟩
      exact ⟨inside, free⟩ }

-- Values other than children do no harm as long as their kinds and numbers are right, so that
-- only the slots have to be looked at when attributes, references or ranges are written.
theorem revalued (root : next.root = tree.root)
    (inside : ∀ id, next.contains id = tree.contains id)
    (classifiers : ∀ id, next.classifier? id = tree.classifier? id)
    (containers : ∀ id, next.container? id = tree.container? id)
    (children : ∀ id position, next.childrenAt id position = tree.childrenAt id position)
    (kinds : ∀ id position,
      (next.slot? id position).map Slot.kind = (tree.slot? id position).map Slot.kind)
    (single : ∀ {id position feature slot}, tree.feature? id position = some feature →
      feature.isMany = false → next.slot? id position = some slot → slot.size ≤ 1) :
    next.Consistent where
  kinds id position := by
    rw [kinds, feature?, classifiers]
    exact consistent.kinds id position
  single {id position feature slot} found one holds := by
    rw [feature?, classifiers] at found
    exact single found one holds
  once {id container position} held := by
    rw [containers] at held
    rw [children]
    exact consistent.once held
  listed {id container position} member := by
    rw [children] at member
    rw [containers]
    exact consistent.listed member
  ends := by
    refine Subrelation.wf (fun {above below} holds => ?_) consistent.ends
    simpa only [Holds, containers] using holds
  root {id} found := by
    rw [root] at found
    rw [inside, containers]
    exact consistent.root found
  held {id container position} held := by
    rw [containers] at held
    rw [classifiers, classifiers]
    exact consistent.held held

theorem written {declared : Feature} {slot : Slot}
    (found : tree.feature? id position = some declared) (kind : slot.kind = declared.kind)
    (childless : declared.kind ≠ .containment) (room : declared.isMany = false → slot.size ≤ 1) :
    (tree.setSlot id position slot).Consistent := by
  obtain ⟨before, held, beforeKind⟩ := consistent.slot_of_feature found
  refine consistent.revalued rfl (by simp) (by simp) (by simp) ?_ ?_ ?_
  · exact childrenAt_setSlot_of_childless (consistent.childrenAt_of_kind found childless)
      (Slot.children_of_kind (kind ▸ childless))
  · intro other asked
    rw [slot?_setSlot]
    split
    · next here =>
      obtain ⟨rfl, rfl, _⟩ := here
      rw [held, Option.map_some, Option.map_some, kind, beforeKind]
    · rfl
  · intro other asked feature after seen one holds
    rw [slot?_setSlot] at holds
    split at holds
    · next here =>
      obtain ⟨rfl, rfl, _⟩ := here
      cases found.symm.trans seen
      cases holds
      exact room one
    · exact consistent.single seen one holds

theorem ranged (range : TextRange) : (tree.setRange id range).Consistent := by
  have sameSlots : ∀ other asked,
      (tree.setRange id range).slot? other asked = tree.slot? other asked :=
    fun other asked => slot?_modify tree id other asked fun _ => rfl
  refine consistent.revalued rfl (fun other => contains_modify tree id other _)
    (fun other => classifier?_modify tree id other fun _ => rfl)
    (fun other => container?_modify tree id other fun _ => rfl) ?_ ?_ ?_
  · intro other asked
    rw [childrenAt, sameSlots, childrenAt]
  · intro other asked
    rw [sameSlots]
  · intro other asked feature slot seen one holds
    rw [sameSlots] at holds
    exact consistent.single seen one holds

section Relinked

variable {container child : NodeId} {declared : Feature} {siblings : List NodeId}
  {place : Option (NodeId × FeatureId)}

/-! A node is taken out of a slot or put into it. In both cases it stands in no other slot, and the
other children of the slot stay in it as often as they were. -/

theorem childrenAt_relink_of_feature (found : tree.feature? container position = some declared)
    (other : NodeId) (asked : FeatureId) :
    (tree.relink container position siblings child place).childrenAt other asked =
      if container = other ∧ position = asked then siblings else tree.childrenAt other asked := by
  obtain ⟨slot, seen, _⟩ := consistent.slot_of_feature found
  rw [childrenAt_relink]
  by_cases here : container = other ∧ position = asked
  · obtain ⟨rfl, rfl⟩ := here
    simp [seen]
  · rw [if_neg here, if_neg fun ⟨first, second, _⟩ => here ⟨first, second⟩]

section Placed

variable (inside : tree.contains child = true)
  (found : tree.feature? container position = some declared)
  (target : ∀ above ∈ place, above = (container, position))
  (own : siblings.count child = if place.isSome then 1 else 0)
  (others : ∀ other ≠ child, siblings.count other = (tree.childrenAt container position).count other)
include inside found target own others

theorem count_relink {other above : NodeId} {asked : FeatureId}
    (known : (tree.relink container position siblings child place).container? other =
      some (above, asked)) :
    ((tree.relink container position siblings child place).childrenAt above asked).count other = 1 := by
  rw [container?_relink container other position siblings child place inside] at known
  rw [consistent.childrenAt_relink_of_feature found]
  split at known
  · next same =>
    subst same
    obtain ⟨rfl, rfl⟩ := Prod.mk.inj (target _ known)
    rw [if_pos ⟨rfl, rfl⟩, own, known]
    rfl
  · next apart =>
    split
    · next here =>
      obtain ⟨rfl, rfl⟩ := here
      rw [others other (Ne.symm apart)]
      exact consistent.once known
    · exact consistent.once known

theorem container?_relink_of_mem (nowhere : ∀ {other asked}, child ∈ tree.childrenAt other asked →
      container = other ∧ position = asked) {other above : NodeId} {asked : FeatureId}
    (member : other ∈
      (tree.relink container position siblings child place).childrenAt above asked) :
    (tree.relink container position siblings child place).container? other = some (above, asked) := by
  rw [consistent.childrenAt_relink_of_feature found] at member
  rw [container?_relink container other position siblings child place inside]
  by_cases same : child = other
  · subst same
    split at member
    · next here =>
      obtain ⟨rfl, rfl⟩ := here
      have counted := List.count_pos_iff.mpr member
      rw [own] at counted
      cases held : place with
      | none => simp [held] at counted
      | some above => rw [if_pos rfl, target above held]
    · next elsewhere => exact absurd (nowhere member) elsewhere
  · rw [if_neg same]
    split at member
    · next here =>
      obtain ⟨rfl, rfl⟩ := here
      have counted := List.count_pos_iff.mpr member
      rw [others other (Ne.symm same)] at counted
      exact consistent.listed (List.count_pos_iff.mp counted)
    · exact consistent.listed member

end Placed

theorem relinked (inside : tree.contains child = true)
    (found : tree.feature? container position = some declared)
    (kind : declared.kind = .containment)
    (room : declared.isMany = false → siblings.length ≤ 1)
    (target : ∀ above ∈ place, above = (container, position))
    (own : siblings.count child = if place.isSome then 1 else 0)
    (others : ∀ other ≠ child, siblings.count other = (tree.childrenAt container position).count other)
    (nowhere : ∀ {other asked}, child ∈ tree.childrenAt other asked →
      container = other ∧ position = asked)
    (ends : WellFounded (tree.relink container position siblings child place).Holds)
    (ordinary : place.isSome → tree.root ≠ some child)
    (admitted : place.isSome → ∃ own classifier declared, tree.classifier? child = some own ∧
      tree.classifier? container = some classifier ∧
      classifier.featureNamed? declared.name = some (position, declared) ∧
      own.fits declared = true) :
    (tree.relink container position siblings child place).Consistent := by
  have containers := fun other =>
    container?_relink container other position siblings child place inside
  refine { kinds := ?kinds, single := ?single, once := consistent.count_relink inside found target own others,
           listed := consistent.container?_relink_of_mem inside found target own others nowhere,
           ends := ends, root := ?root, held := ?held }
  case kinds =>
    intro other asked
    rw [slot?_relink, feature?_relink]
    split
    · next here =>
      obtain ⟨rfl, rfl, _⟩ := here
      rw [found, Option.map_some, Option.map_some, kind, Slot.kind]
    · exact consistent.kinds other asked
  case single =>
    intro other asked feature slot' known one holds
    rw [feature?_relink] at known
    rw [slot?_relink] at holds
    split at holds
    · next here =>
      obtain ⟨rfl, rfl, _⟩ := here
      cases holds
      cases found.symm.trans known
      exact room one
    · exact consistent.single known one holds
  case root =>
    intro other known
    obtain ⟨present, free⟩ := consistent.root known
    rw [contains_relink, containers]
    refine ⟨present, ?_⟩
    split
    · next same =>
      subst same
      cases held : place with
      | none => rfl
      | some above => exact absurd known (ordinary (by rw [held]; rfl))
    · exact free
  case held =>
    intro other above asked known
    rw [containers] at known
    rw [classifier?_relink, classifier?_relink]
    split at known
    · next same =>
      subst same
      obtain ⟨rfl, rfl⟩ := Prod.mk.inj (target _ known)
      exact admitted (by rw [known]; rfl)
    · exact consistent.held known

theorem detached (held : tree.container? child = some (container, position)) :
    (tree.relink container position ((tree.childrenAt container position).filter (· ≠ child))
      child none).Consistent := by
  have inside := contains_of_container held
  obtain ⟨declared, found, kind⟩ := consistent.feature_of_container held
  refine consistent.relinked inside found kind ?room nofun ?own ?others ?nowhere ?ends nofun nofun
  case room =>
    intro one
    exact Nat.le_trans (List.length_filter_le _ _) (consistent.length_childrenAt_le_one found one)
  case own =>
    apply List.count_eq_zero_of_not_mem
    simp
  case others =>
    intro other apart
    exact List.count_filter (by simpa using apart)
  case nowhere =>
    intro other asked member
    cases held.symm.trans (consistent.listed member)
    exact ⟨rfl, rfl⟩
  case ends =>
    -- a link is taken away, and none is added
    refine Subrelation.wf (fun {above below} ⟨asked, known⟩ => ?_) consistent.ends
    rw [container?_relink container below position _ child none inside] at known
    split at known
    · cases known
    · exact ⟨asked, known⟩

-- Acyclicity is not kept by the shape of the change but by its guard: the walk upwards from the
-- container is exact in a forest, so that the child is known not to occur above its new place.
theorem ends_of_attached (apart : child ≠ container) (above : tree.isAncestor child container = false)
    (containers : ∀ other, next.container? other =
      if child = other then some (container, position) else tree.container? other) :
    WellFounded next.Holds := by
  have notBelow : ¬ Relation.TransGen tree.Holds child container := by
    rw [← consistent.forest.isAncestor_iff, above]
    exact Bool.false_ne_true
  have climb : ∀ {lower : NodeId}, child ≠ lower → ∀ {upper : NodeId}, next.Holds upper lower →
      tree.Holds upper lower := by
    rintro lower different upper ⟨asked, found⟩
    rw [containers, if_neg different] at found
    exact ⟨asked, found⟩
  -- above the container nothing has changed: the child does not occur there
  have higher : ∀ node, child ≠ node → ¬ Relation.TransGen tree.Holds child node →
      Acc next.Holds node := by
    intro node
    induction node using consistent.ends.induction with
    | _ node ih =>
      intro different separate
      refine ⟨_, fun upper direct => ?_⟩
      have old := climb different direct
      refine ih upper old ?_ fun lower => separate (lower.tail old)
      rintro rfl
      exact separate (.single old)
  have atChild : Acc next.Holds child := by
    refine ⟨_, fun upper ⟨asked, found⟩ => ?_⟩
    rw [containers, if_pos rfl] at found
    cases found
    exact higher container apart notBelow
  refine ⟨fun node => ?_⟩
  -- every climb meets the child, from where it ends, or never leaves the old links
  induction node using consistent.ends.induction with
  | _ node ih =>
    by_cases same : child = node
    · exact same ▸ atChild
    · exact ⟨_, fun upper direct => ih upper (climb same direct)⟩

theorem attached {classifier own : Classifier} (index : Nat)
    (container_class : tree.classifier? container = some classifier)
    (named : classifier.featureNamed? declared.name = some (position, declared))
    (kind : declared.kind = .containment) (child_class : tree.classifier? child = some own)
    (fits : own.fits declared = true) (ordinary : tree.root ≠ some child)
    (apart : child ≠ container) (above : tree.isAncestor child container = false)
    (free : tree.container? child = none)
    (room : declared.isMany = false → tree.childrenAt container position = [])
    (bound : index ≤ (tree.childrenAt container position).length) :
    (tree.relink container position ((tree.childrenAt container position).insertIdx index child)
      child (some (container, position))).Consistent := by
  have inside : tree.contains child = true := by
    obtain ⟨node, held, _⟩ := Option.map_eq_some_iff.mp child_class
    exact contains_iff.mpr ⟨node, held⟩
  have found : tree.feature? container position = some declared := by
    simpa [feature?, container_class] using (Classifier.featureNamed?_eq_some named).1
  -- the child is free, so that no slot holds it yet
  have fresh : ∀ {other asked}, child ∉ tree.childrenAt other asked := by
    intro other asked member
    rw [consistent.listed member] at free
    cases free
  have perm := List.perm_insertIdx child (tree.childrenAt container position) bound
  refine consistent.relinked inside found kind ?room ?target ?own ?others
    (fun member => absurd member fresh) ?ends (fun _ => ordinary)
    (fun _ => ⟨own, classifier, declared, child_class, container_class, named, fits⟩)
  case room =>
    intro one
    rw [perm.length_eq, room one]
    exact Nat.le_refl 1
  case target =>
    rintro _ ⟨rfl⟩
    rfl
  case own =>
    rw [perm.count_eq, List.count_cons_self, List.count_eq_zero_of_not_mem fresh]
    rfl
  case others =>
    intro other different
    rw [perm.count_eq, List.count_cons_of_ne (Ne.symm different)]
  case ends =>
    exact consistent.ends_of_attached apart above fun other =>
      container?_relink container other position _ child (some (container, position)) inside

end Relinked

/-- Every change of a consistent tree leaves a consistent tree. -/
theorem change (change : Change tree next) : next.Consistent := by
  cases change with
  | created classifier => exact consistent.created classifier
  | rooted inside free => exact consistent.rooted inside free
  | attached place container_class named kind child_class fits ordinary apart above free room bound =>
    exact consistent.attached place container_class named kind child_class fits ordinary apart above
      free room bound
  | detached held => exact consistent.detached held
  | written found kind childless room => exact consistent.written found kind childless room
  | ranged id range => exact consistent.ranged range

theorem run (edits : List Edit) : (tree.run edits).Consistent :=
  run_induction (fun change agreed => agreed.change change) edits consistent

end Consistent

/-- Whatever operations were called, and whichever of them were refused, the
links, the slots and the classifiers of the tree agree. -/
theorem consistent_of_edits (edits : List Edit) : (Tree.empty.run edits).Consistent :=
  consistent_empty.run edits

end Crosslink.Tree
