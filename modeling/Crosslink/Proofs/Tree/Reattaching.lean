import Crosslink.Proofs.Tree.Writing

/-! Nodes that are taken out and put back.

A node that has been taken out of its container can be put back where it was, and
the tree is then the one it was before. This does not depend on the values of
references, which may have changed in the meantime.
-/

set_option autoImplicit false

namespace Crosslink.Tree

variable {tree next : Tree} {id below container : NodeId} {position : FeatureId}

/-! ### Links that are changed twice -/

section Relink

variable (tree container position) (siblings others : List NodeId) (child : NodeId)
  (place back : Option (NodeId × FeatureId))

/-- Links do not depend on the values of references. -/
theorem shape_relink : (tree.relink container position siblings child place).shape =
    tree.shape.relink container position siblings child place := by
  unfold relink setSlot modify shape
  dsimp only
  congr 1
  apply Array.ext_getElem?
  intro asked
  simp only [Array.getElem?_map, Array.getElem?_modify]
  cases tree.nodes[asked]? with
  | none => simp
  | some node =>
    by_cases here : container = asked <;> by_cases there : child = asked <;>
      simp [here, there, Node.shape, Node.setSlot, List.map_set, Slot.shape]

/-- The links that are made last are those that are left. -/
theorem relink_relink : (tree.relink container position siblings child place).relink container
    position others child back = tree.relink container position others child back := by
  unfold relink setSlot modify
  dsimp only
  congr 1
  apply Array.ext_getElem?
  intro asked
  simp only [Array.getElem?_modify]
  cases tree.nodes[asked]? with
  | none => simp
  | some node =>
    by_cases here : container = asked <;> by_cases there : child = asked <;>
      simp [here, there, Node.setSlot]

end Relink

theorem setSlot_self {node : Node} {slot : Slot} (held : node.slots[position]? = some slot) :
    node.setSlot position slot = node := by
  obtain ⟨bound, same⟩ := List.getElem?_eq_some_iff.mp held
  unfold Node.setSlot
  rw [← same, List.set_getElem_self]

theorem setSlot_setSlot (node : Node) (position : FeatureId) (first second : Slot) :
    (node.setSlot position first).setSlot position second = node.setSlot position second := by
  simp [Node.setSlot]

theorem relink_self {siblings : List NodeId} {child : NodeId} {place : Option (NodeId × FeatureId)}
    (listed : tree.slot? container position = some (.containment siblings))
    (held : tree.container? child = place) :
    tree.relink container position siblings child place = tree := by
  obtain ⟨nodes, root⟩ := tree
  unfold relink setSlot modify
  dsimp only
  congr 1
  apply Array.ext_getElem?
  intro asked
  unfold slot? node? at listed
  unfold container? node? at held
  dsimp only at listed held
  simp only [Array.getElem?_modify]
  have slots : ∀ node, nodes[container]? = some node →
      node.setSlot position (.containment siblings) = node := by
    intro node found
    rw [found, Option.bind_some] at listed
    exact setSlot_self listed
  have above : ∀ node, nodes[child]? = some node → node.container = place := by
    intro node found
    rwa [found] at held
  cases found : nodes[asked]? with
  | none => simp
  | some node =>
    by_cases here : container = asked <;> by_cases there : child = asked
    · subst here there
      simp [slots node found, ← above node found]
    · subst here
      simp [there, slots node found]
    · subst there
      simp [here, ← above node found]
    · simp [here, there]

theorem run_of_perform {edit : Edit} (done : tree.perform edit = .ok next) :
    tree.run [edit] = next := by
  simp [run, apply, done]

theorem featureOfKind_eq {node : Node} {name : String} {kind : FeatureKind} {declared : Feature}
    (found : tree.node? id = some node)
    (named : node.classifier.featureNamed? name = some (position, declared))
    (same : declared.kind = kind) : tree.featureOfKind id name kind = .ok (position, declared) := by
  simp [featureOfKind, Tree.feature, found, named, same]

/-- An attachment that passes all its checks is made. -/
theorem attach_eq {name : String} {index : Option Nat} {declared : Feature} {own : Classifier}
    (named : tree.featureOfKind container name .containment = .ok (position, declared))
    (child_class : tree.classifier? id = some own) (ordinary : tree.root ≠ some id)
    (apart : id ≠ container) (above : tree.isAncestor id container = false)
    (free : tree.container? id = none) (fits : own.fits declared = true)
    (room : declared.isMany = false → tree.childrenAt container position = [])
    (bound : ∀ place ∈ index, place ≤ (tree.childrenAt container position).length) :
    tree.attach container name index id = .ok (tree.relink container position
      ((tree.childrenAt container position).insertIdx
        (index.getD (tree.childrenAt container position).length) id) id
      (some (container, position))) := by
  obtain ⟨node, seen, rfl⟩ := Option.map_eq_some_iff.mp child_class
  have alone : node.container = none := by simpa [container?, seen] using free
  have fewer : ¬ (declared.isMany = false ∧ tree.childrenAt container position ≠ []) :=
    not_and.mpr fun one full => full (room one)
  have inside : ¬ (tree.childrenAt container position).length <
      index.getD (tree.childrenAt container position).length := by
    cases index with
    | none => exact Nat.lt_irrefl _
    | some place => exact Nat.not_lt.mpr (bound place rfl)
  unfold attach
  rw [named, seen]
  simp only [ordinary, apart, above, alone, fits, fewer, inside, Option.isSome_none,
    Bool.not_eq_true', Bool.false_eq_true, Bool.true_eq_false, or_self, if_false]
  rfl

/-! ### Taking a node out -/

/-- The tree without a node that a feature of a container holds, which then stands beside it. -/
def without (tree : Tree) (container : NodeId) (position : FeatureId) (id : NodeId) : Tree :=
  tree.relink container position ((tree.childrenAt container position).filter (· ≠ id)) id none

@[simp] theorem root_without : (tree.without container position id).root = tree.root := rfl

theorem detach_eq (held : tree.container? id = some (container, position)) :
    tree.detach id = .ok (tree.without container position id) := by
  obtain ⟨node, found, above⟩ := Option.bind_eq_some_iff.mp held
  simp only [detach, found, above]
  rfl

theorem run_detach (held : tree.container? id = some (container, position)) :
    tree.run [.detach id] = tree.without container position id :=
  run_of_perform (detach_eq held)

theorem container?_without (held : tree.container? id = some (container, position))
    (other : NodeId) : (tree.without container position id).container? other =
      if id = other then none else tree.container? other :=
  container?_relink container other position _ id none (contains_of_container held)

/-- What contains a node after another one was taken out did so before. -/
theorem holds_of_without (held : tree.container? id = some (container, position)) {above : NodeId}
    (direct : (tree.without container position id).Holds above below) : tree.Holds above below := by
  obtain ⟨asked, known⟩ := direct
  rw [container?_without held] at known
  split at known
  · cases known
  · exact ⟨asked, known⟩

namespace Consistent

variable (consistent : tree.Consistent)
include consistent

theorem slot?_of_containment {feature : Feature} (found : tree.feature? id position = some feature)
    (kind : feature.kind = .containment) :
    tree.slot? id position = some (.containment (tree.childrenAt id position)) := by
  obtain ⟨slot, seen, same⟩ := consistent.slot_of_feature found
  rw [childrenAt, seen]
  cases slot with
  | containment children => rfl
  | attr values => cases same.trans kind
  | reference values => cases same.trans kind

theorem slot?_of_container (held : tree.container? id = some (container, position)) :
    tree.slot? container position = some (.containment (tree.childrenAt container position)) := by
  obtain ⟨feature, found, kind⟩ := consistent.feature_of_container held
  exact consistent.slot?_of_containment found kind

/-- A list of children from which one was taken out is as before when it is put back. -/
theorem childrenAt_put_back {index : Nat}
    (place : (tree.childrenAt container position)[index]? = some id) :
    ((tree.childrenAt container position).filter (· ≠ id)).insertIdx index id =
      tree.childrenAt container position := by
  obtain ⟨bound, same⟩ := List.getElem?_eq_some_iff.mp place
  have once := @nodup_childrenAt tree container position consistent
  have left : (tree.childrenAt container position).filter (· ≠ id) =
      (tree.childrenAt container position).eraseIdx index := by
    rw [← once.erase_getElem index bound, same, once.erase_eq_filter]
    refine List.filter_congr fun other _ => ?_
    simp [bne, ← Bool.beq_eq_decide_eq]
  rw [left]
  conv_lhs => rw [← same]
  exact List.insertIdx_eraseIdx_getElem bound

section Held

variable (held : tree.container? id = some (container, position))
include held

theorem without : (tree.without container position id).Consistent := consistent.detached held

theorem childrenAt_without : (tree.without container position id).childrenAt container position =
    (tree.childrenAt container position).filter (· ≠ id) := by
  have slot := consistent.slot?_of_container held
  unfold Tree.without
  rw [childrenAt_relink, if_pos ⟨rfl, rfl, by rw [slot]; rfl⟩]

theorem length_childrenAt_without :
    ((tree.without container position id).childrenAt container position).length + 1 =
      (tree.childrenAt container position).length := by
  have member := consistent.mem_childrenAt.mpr held
  have once := @nodup_childrenAt tree container position consistent
  rw [consistent.childrenAt_without held, ← List.length_erase_add_one member, once.erase_eq_filter]
  simp [bne, Bool.beq_eq_decide_eq]

/-- What can be reached after a node was taken out could be reached before. -/
theorem mem_allNodes_of_without
    (reached : below ∈ (tree.without container position id).allNodes) : below ∈ tree.allNodes := by
  obtain ⟨root, rooted, lower⟩ := (consistent.without held).mem_allNodes.mp reached
  exact consistent.mem_allNodes.mpr
    ⟨root, rooted, Relation.ReflTransGen.mono (fun _ _ => holds_of_without held) _ _ lower⟩

-- The way down from the node is the same as before, since no node below it is the node itself. So
-- what is below it can be reached only if the node can, and it is free and not the root.
theorem not_mem_allNodes_without (lower : below ∈ tree.descendants id) :
    below ∉ (tree.without container position id).allNodes := by
  have after := consistent.without held
  rw [consistent.mem_descendants (contains_of_container held)] at lower
  induction lower with
  | refl =>
    rw [after.mem_allNodes_of_free (by rw [container?_without held, if_pos rfl]), root_without]
    intro rooted
    rw [(consistent.root rooted).2] at held
    cases held
  | @tail upper lower higher direct ih =>
    have apart : id ≠ lower := by
      rintro rfl
      exact consistent.forest.not_below_self (Relation.TransGen.tail' higher direct)
    obtain ⟨asked, known⟩ := direct
    have kept : (tree.without container position id).Holds upper lower :=
      ⟨asked, by rw [container?_without held, if_neg apart, known]⟩
    rwa [after.mem_allNodes_of_holds kept]

theorem not_isAncestor_without :
    (tree.without container position id).isAncestor id container = false := by
  rw [← Bool.not_eq_true, (consistent.without held).forest.isAncestor_iff]
  intro climbs
  have before : Relation.TransGen tree.Holds id container :=
    Relation.TransGen.mono (fun _ _ => holds_of_without held) _ _ climbs
  exact consistent.forest.not_below_self (before.tail ⟨_, held⟩)

/-! ### Putting it back -/

/-- A feature for one node is empty after its node was taken out. -/
theorem childrenAt_without_of_single {declared : Feature}
    (found : tree.feature? container position = some declared) (one : declared.isMany = false) :
    (tree.without container position id).childrenAt container position = [] := by
  have few := consistent.length_childrenAt_le_one found one
  have member := consistent.mem_childrenAt.mpr held
  rw [consistent.childrenAt_without held]
  cases listed : tree.childrenAt container position with
  | nil => rfl
  | cons first rest =>
    rw [listed] at few member
    have alone : rest = [] := List.eq_nil_of_length_eq_zero (by simpa using few)
    simp_all

/-- A node that was taken out can be put back, whatever references have become in the meantime. -/
theorem attach_of_without {declared : Feature} {index : Nat}
    (found : tree.feature? container position = some declared)
    (place : (tree.childrenAt container position)[index]? = some id)
    (same : next.shape = (tree.without container position id).shape) :
    next.attach container declared.name (some index) id =
      .ok (next.relink container position (tree.childrenAt container position) id
        (some (container, position))) := by
  obtain ⟨own, classifier, declared', child_class, container_class, first, fits⟩ :=
    consistent.held held
  obtain rfl : declared' = declared := by
    have again := (Classifier.featureNamed?_eq_some first).1
    simpa [feature?, container_class, again] using found
  have siblings := (childrenAt_of_shape same container position).trans
    (consistent.childrenAt_without held)
  -- what the checks look at is in the shape, and that is the shape of the tree without the node
  have named : next.featureOfKind container declared'.name .containment =
      .ok (position, declared') := by
    obtain ⟨feature, again, kind⟩ := consistent.feature_of_container held
    cases found.symm.trans again
    have holder : next.classifier? container = some classifier := by
      rw [classifier?_of_shape same, Tree.without, classifier?_relink, container_class]
    obtain ⟨node, present, rfl⟩ := Option.map_eq_some_iff.mp holder
    exact featureOfKind_eq present first kind
  have child_class' : next.classifier? id = some own := by
    rw [classifier?_of_shape same, Tree.without, classifier?_relink, child_class]
  have ordinary : next.root ≠ some id := by
    rw [root_of_shape same, root_without]
    intro rooted
    rw [(consistent.root rooted).2] at held
    cases held
  have apart : id ≠ container := by
    rintro rfl
    exact consistent.forest.not_below_self (.single ⟨_, held⟩)
  have above : next.isAncestor id container = false := by
    rw [isAncestor, ← ancestors_shape, same, ancestors_shape]
    exact consistent.not_isAncestor_without held
  have free : next.container? id = none := by
    rw [container?_of_shape same, container?_without held, if_pos rfl]
  have room : declared'.isMany = false → next.childrenAt container position = [] := by
    rw [childrenAt_of_shape same]
    exact consistent.childrenAt_without_of_single held found
  have bound : index ≤ (next.childrenAt container position).length := by
    obtain ⟨inside, _⟩ := List.getElem?_eq_some_iff.mp place
    have shorter := consistent.length_childrenAt_without held
    rw [childrenAt_of_shape same]
    omega
  rw [attach_eq named child_class' ordinary apart above free fits room
    (by rintro _ ⟨⟩; exact bound), Option.getD_some, siblings, consistent.childrenAt_put_back place]

/-- All but the values of references is then as before. -/
theorem shape_run_attach {declared : Feature} {index : Nat}
    (found : tree.feature? container position = some declared)
    (place : (tree.childrenAt container position)[index]? = some id)
    (same : next.shape = (tree.without container position id).shape) :
    (next.run [.attach container declared.name (some index) id]).shape = tree.shape := by
  have done : next.perform (.attach container declared.name (some index) id) = _ :=
    consistent.attach_of_without held found place same
  rw [run_of_perform done, shape_relink, same, ← shape_relink, Tree.without, relink_relink,
    relink_self (consistent.slot?_of_container held) held]

end Held

end Consistent

end Crosslink.Tree
