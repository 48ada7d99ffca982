import Crosslink.Proofs.Tree.Copies
import Crosslink.Proofs.Tree.RoundTrip
import Mathlib.Order.Preorder.Chain

/-! Walks along the links of a tree, up and down, that note nothing of where they have been.

The walk up ends because climbing does, and the walk down because it goes to children, which
lie deeper. Neither comes to a node twice, since a node has one container at most.
-/

set_option autoImplicit false

namespace Crosslink.Tree

variable {tree : Tree} {id above : NodeId}

/-- Climb from container to container until a node is met. The answer says whether it was. -/
inductive Climbs (tree : Tree) (above : NodeId) : NodeId → Bool → Prop where
  | free {id : NodeId} (free : tree.container? id = none) : Climbs tree above id false
  | met {id : NodeId} {position : FeatureId}
      (held : tree.container? id = some (above, position)) : Climbs tree above id true
  | on {id container : NodeId} {position : FeatureId} {answer : Bool}
      (held : tree.container? id = some (container, position)) (other : container ≠ above)
      (rest : Climbs tree above container answer) : Climbs tree above id answer

/-- List the first of the nodes that wait, and let its children wait in its place, until none
is left. -/
inductive Walks (tree : Tree) : List NodeId → List NodeId → Prop where
  | done : Walks tree [] []
  | next {id : NodeId} {waiting listed : List NodeId}
      (rest : Walks tree (tree.contents id ++ waiting) listed) :
      Walks tree (id :: waiting) (id :: listed)

theorem Climbs.unique {first second : Bool} (climbs : tree.Climbs above id first)
    (again : tree.Climbs above id second) : first = second := by
  induction climbs with
  | free free =>
    cases again with
    | free _ => rfl
    | met held => cases free.symm.trans held
    | on held _ _ => cases free.symm.trans held
  | met held =>
    cases again with
    | free free => cases free.symm.trans held
    | met _ => rfl
    | on found other _ =>
      cases held.symm.trans found
      exact absurd rfl other
  | on held other _ ih =>
    cases again with
    | free free => cases free.symm.trans held
    | met found =>
      cases held.symm.trans found
      exact absurd rfl other
    | on found _ rest =>
      cases held.symm.trans found
      exact ih rest

theorem Walks.unique {waiting first second : List NodeId} (walks : tree.Walks waiting first)
    (again : tree.Walks waiting second) : first = second := by
  induction walks generalizing second with
  | done =>
    cases again
    rfl
  | next _ ih =>
    cases again with
    | next rest => rw [ih rest]

namespace Forest

variable (forest : tree.Forest)
include forest

theorem climbs (above id : NodeId) : tree.Climbs above id (tree.isAncestor above id) := by
  induction id using forest.ends.induction with
  | _ id ih =>
    cases held : tree.container? id with
    | none =>
      have alone : tree.isAncestor above id = false := by
        simp [isAncestor, ancestors, ancestorsWithin_of_free _ held]
      rw [alone]
      exact .free held
    | some place =>
      obtain ⟨container, position⟩ := place
      by_cases met : container = above
      · subst met
        have direct : tree.isAncestor container id = true :=
          forest.isAncestor_iff.mpr (.single ⟨position, held⟩)
        rw [direct]
        exact .met held
      · have higher : tree.isAncestor above id = tree.isAncestor above container := by
          simp [isAncestor, forest.ancestors_of_container held, Ne.symm met]
        rw [higher]
        exact .on held met (ih container ⟨position, held⟩)

theorem climbs_iff {answer : Bool} :
    tree.Climbs above id answer ↔ tree.isAncestor above id = answer :=
  ⟨(forest.climbs above id).unique, fun same => same ▸ forest.climbs above id⟩

/-- Above a node come its container and what is above that. -/
theorem ancestors_eq (id : NodeId) : tree.ancestors id =
    (tree.container? id).elim [] fun place => place.1 :: tree.ancestors place.1 := by
  cases held : tree.container? id with
  | none => exact ancestorsWithin_of_free _ held
  | some place => exact forest.ancestors_of_container held

theorem isStrictOrder :
    IsStrictOrder NodeId fun above below => tree.isAncestor above below = true where
  irrefl _ self := forest.not_below_self (forest.isAncestor_iff.mp self)
  trans _ _ _ higher lower := forest.isAncestor_iff.mpr
    ((forest.isAncestor_iff.mp higher).trans (forest.isAncestor_iff.mp lower))

-- Of two nodes above one, the container is one of them, and the other is above it, or both are
-- above the container.
theorem isChain_above (id : NodeId) :
    IsChain (fun above below => tree.isAncestor above below = true)
      {above | tree.isAncestor above id = true} := by
  induction id using forest.ends.induction with
  | _ id ih =>
    intro first firstAbove second secondAbove different
    have firstAbove : first ∈ tree.ancestors id := of_decide_eq_true firstAbove
    have secondAbove : second ∈ tree.ancestors id := of_decide_eq_true secondAbove
    cases held : tree.container? id with
    | none =>
      rw [ancestors, ancestorsWithin_of_free _ held] at firstAbove
      cases firstAbove
    | some place =>
      obtain ⟨container, position⟩ := place
      rw [forest.ancestors_of_container held, List.mem_cons] at firstAbove secondAbove
      rcases firstAbove with rfl | firstHigher <;> rcases secondAbove with rfl | secondHigher
      · exact absurd rfl different
      · exact .inr (decide_eq_true secondHigher)
      · exact .inl (decide_eq_true firstHigher)
      · exact ih container ⟨position, held⟩ (decide_eq_true firstHigher)
          (decide_eq_true secondHigher) different

end Forest

namespace Consistent

variable (consistent : tree.Consistent)
include consistent

-- The nodes that wait behind a node are not looked at before all below the node is listed.
theorem walks_descendants (inside : tree.contains id = true) {waiting listed : List NodeId}
    (rest : tree.Walks waiting listed) :
    tree.Walks (id :: waiting) (tree.descendants id ++ listed) := by
  induction id using consistent.downward.induction generalizing waiting listed with
  | _ id ih =>
    have children : ∀ nodes ⊆ tree.contents id,
        tree.Walks (nodes ++ waiting) (nodes.flatMap tree.descendants ++ listed) := by
      intro nodes among
      induction nodes with
      | nil => exact rest
      | cons child nodes siblings =>
        obtain ⟨member, among⟩ := List.cons_subset.mp among
        have direct := consistent.mem_contents_iff.mp member
        have below := contains_of_reflTransGen inside (.single direct)
        rw [List.flatMap_cons, List.append_assoc]
        exact ih child direct below (siblings among)
    rw [consistent.descendants_eq inside, List.cons_append]
    exact .next (children _ (List.Subset.refl _))

theorem walks_iff (inside : tree.contains id = true) {listed : List NodeId} :
    tree.Walks [id] listed ↔ tree.descendants id = listed := by
  have walks := consistent.walks_descendants inside .done
  rw [List.append_nil] at walks
  exact ⟨walks.unique, fun same => same ▸ walks⟩

theorem mem_descendants_iff_isAncestor (inside : tree.contains id = true) {below : NodeId} :
    below ∈ tree.descendants id ↔ below = id ∨ tree.isAncestor id below = true := by
  rw [consistent.mem_descendants inside, consistent.forest.isAncestor_iff,
    Relation.reflTransGen_iff_eq_or_transGen]

/-- All below a node of a walk is listed in one piece. -/
theorem descendants_infix (inside : tree.contains id = true) {below : NodeId}
    (member : below ∈ tree.descendants id) : tree.descendants below <:+: tree.descendants id := by
  rw [consistent.mem_descendants inside] at member
  induction member using Relation.ReflTransGen.head_induction_on with
  | refl => exact List.infix_refl _
  | @head upper child direct _ ih =>
    have lower := contains_of_reflTransGen inside (.single direct)
    obtain ⟨before, after, split⟩ := List.append_of_mem (consistent.mem_contents_iff.mpr direct)
    refine (ih lower).trans ⟨upper :: before.flatMap tree.descendants,
      after.flatMap tree.descendants, ?_⟩
    rw [consistent.descendants_eq inside, split, List.flatMap_append, List.flatMap_cons]
    simp

theorem width_eq {classifier : Classifier} (found : tree.classifier? id = some classifier) :
    tree.width id = classifier.features.length := by
  obtain ⟨node, held, rfl⟩ := Option.map_eq_some_iff.mp found
  have kinds := consistent.kinds id
  simp only [slot?, feature?, classifier?, held, Option.bind_some, Option.map_some,
    Classifier.feature?] at kinds
  have same : node.slots.map Slot.kind = node.classifier.features.map Feature.kind := by
    apply List.ext_getElem?
    intro position
    rw [List.getElem?_map, List.getElem?_map, kinds]
  rw [width, held, Option.map_some, Option.getD_some]
  simpa using congrArg List.length same

/-- A node can be reached from the root if and only if climbing from it ends there. -/
theorem mem_allNodes_iff_getLast? :
    id ∈ tree.allNodes ↔ (id :: tree.ancestors id).getLast? = tree.root := by
  induction id using consistent.ends.induction with
  | _ id ih =>
    cases held : tree.container? id with
    | none =>
      rw [consistent.mem_allNodes_of_free held, ancestors, ancestorsWithin_of_free _ held]
      exact eq_comm
    | some place =>
      obtain ⟨container, position⟩ := place
      have direct : tree.Holds container id := ⟨position, held⟩
      rw [consistent.mem_allNodes_of_holds direct, ih container direct,
        consistent.forest.ancestors_of_container held, List.getLast?_cons_cons]

end Consistent

/-- Whatever operations made a tree, the walks along its links end. The walk up is a strict order,
in which what is above one node is a chain. The walk down lists a node and all below it, each once:
the node first, and then each child with all below it, feature by feature. The nodes that can be
reached are those from which climbing ends at the root. -/
theorem walks_of_edits (edits : List Edit) :
    let tree := Tree.empty.run edits
    (∀ above id answer, tree.Climbs above id answer ↔ tree.isAncestor above id = answer) ∧
    (∀ id, tree.ancestors id =
      (tree.container? id).elim [] fun place => place.1 :: tree.ancestors place.1) ∧
    IsStrictOrder NodeId (fun above below => tree.isAncestor above below = true) ∧
    (∀ id, IsChain (fun above below => tree.isAncestor above below = true)
      {above | tree.isAncestor above id = true}) ∧
    (∀ id, tree.contains id = true →
      (∀ listed, tree.Walks [id] listed ↔ tree.descendants id = listed) ∧
      (tree.descendants id).Nodup ∧
      (∀ below, below ∈ tree.descendants id ↔ below = id ∨ tree.isAncestor id below = true) ∧
      tree.descendants id = id :: (tree.contents id).flatMap tree.descendants ∧
      ∀ below ∈ tree.descendants id, tree.descendants below <:+: tree.descendants id) ∧
    (∀ id classifier, tree.classifier? id = some classifier →
      tree.contents id = (List.range classifier.features.length).flatMap (tree.childrenAt id)) ∧
    ∀ id, id ∈ tree.allNodes ↔ (id :: tree.ancestors id).getLast? = tree.root := by
  intro tree
  have consistent : tree.Consistent := consistent_empty.run edits
  have forest := consistent.forest
  refine ⟨fun above id answer => forest.climbs_iff, forest.ancestors_eq, forest.isStrictOrder,
    forest.isChain_above, ?down, ?children, fun id => consistent.mem_allNodes_iff_getLast?⟩
  case down =>
    intro id inside
    exact ⟨fun listed => consistent.walks_iff inside, consistent.nodup_descendants inside,
      fun below => consistent.mem_descendants_iff_isAncestor inside,
      consistent.descendants_eq inside,
      fun below member => consistent.descendants_infix inside member⟩
  case children =>
    intro id classifier found
    exact contents_eq (Nat.le_of_eq (consistent.width_eq found))

/-- The walk down from a box comes to the second box in its list and then to the lid of that. -/
theorem walks_boxEdits :
    let tree := Tree.empty.run boxEdits
    tree.contains 0 = true ∧ tree.Walks [0] [0, 1, 2, 3] ∧ tree.Climbs 0 3 true ∧
      tree.contents 2 = [3] ∧ 4 ∉ tree.allNodes := by
  obtain ⟨climbs, _, _, _, down, children, reached⟩ := walks_of_edits boxEdits
  have inside : (Tree.empty.run boxEdits).contains 0 = true := by cbv
  have box : (Tree.empty.run boxEdits).classifier? 2 = some boxClass := by cbv
  refine ⟨inside, ((down 0 inside).1 _).mpr (by cbv), (climbs 0 3 true).mpr (by cbv), ?_, ?_⟩
  · rw [children 2 boxClass box]
    cbv
  · rw [reached 4]
    cbv
    decide

end Crosslink.Tree
