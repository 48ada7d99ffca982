import Crosslink.Proofs.Tree.Consistency

/-! The order of the document.

The walk downwards is cut off after as many levels as there are nodes, which is
deeper than any tree. It lists each node that lies below its start once.
-/

set_option autoImplicit false

namespace Crosslink.Tree

variable {tree : Tree} {id above below child : NodeId}

theorem mem_contents : child ∈ tree.contents id ↔ ∃ position, child ∈ tree.childrenAt id position := by
  cases held : tree.node? id with
  | none => simp [contents, childrenAt, slot?, held]
  | some node =>
    simp only [contents, childrenAt, slot?, held, List.mem_flatMap, Option.bind_some]
    constructor
    · rintro ⟨slot, member, listed⟩
      obtain ⟨position, found⟩ := List.mem_iff_getElem?.mp member
      exact ⟨position, by simpa [found] using listed⟩
    · rintro ⟨position, listed⟩
      cases found : node.slots[position]? with
      | none => simp [found] at listed
      | some slot => exact ⟨slot, List.mem_of_getElem? found, by simpa [found] using listed⟩

theorem holds_unique {other : NodeId} (first : tree.Holds above below) (second : tree.Holds other below) :
    above = other := by
  obtain ⟨_, held⟩ := first
  obtain ⟨_, again⟩ := second
  exact (Prod.mk.inj (Option.some.inj (held.symm.trans again))).1

theorem contains_of_reflTransGen (inside : tree.contains above = true)
    (lower : Relation.ReflTransGen tree.Holds above below) : tree.contains below = true := by
  cases lower with
  | refl => exact inside
  | tail _ direct =>
    obtain ⟨_, held⟩ := direct
    exact contains_of_container held

namespace Consistent

variable (consistent : tree.Consistent)
include consistent

theorem mem_contents_iff : child ∈ tree.contents id ↔ tree.Holds id child := by
  rw [mem_contents]
  exact exists_congr fun _ => consistent.mem_childrenAt

theorem nodup_contents : (tree.contents id).Nodup := by
  cases held : tree.node? id with
  | none => simp [contents, held]
  | some node =>
    have listed : ∀ (position : Nat) (bound : position < node.slots.length),
        tree.childrenAt id position = node.slots[position].children := by
      intro position bound
      simp [childrenAt, slot?, held, bound]
    simp only [contents, held]
    rw [List.nodup_flatMap, List.pairwise_iff_getElem]
    constructor
    · intro slot member
      obtain ⟨position, bound, rfl⟩ := List.mem_iff_getElem.mp member
      rw [← listed position bound]
      exact consistent.nodup_childrenAt
    · intro first second firstBound secondBound before child inFirst inSecond
      rw [← listed] at inFirst inSecond
      have same := (consistent.listed inFirst).symm.trans (consistent.listed inSecond)
      exact Nat.ne_of_lt before (Prod.mk.inj (Option.some.inj same)).2

-- From a node on, as many levels are enough as there are nodes that are not above it. One level is
-- spent with each step down, and the depth grows by one.
theorem preorderWithin_succ {bound : Nat} (inside : tree.contains id = true)
    (enough : tree.size ≤ bound + tree.depth id) :
    tree.preorderWithin (bound + 1) id = tree.preorderWithin bound id := by
  induction bound generalizing id with
  | zero =>
    have shallow := consistent.forest.depth_lt_size inside
    omega
  | succ bound ih =>
    rw [preorderWithin]
    conv_rhs => rw [preorderWithin]
    congr 1
    apply List.flatMap_congr
    intro child member
    have direct := consistent.mem_contents_iff.mp member
    have deeper := consistent.forest.depth_of_holds direct
    exact ih (contains_of_reflTransGen inside (.single direct)) (by omega)

/-- A node comes first, and then each child with all below it. -/
theorem descendants_eq (inside : tree.contains id = true) :
    tree.descendants id = id :: (tree.contents id).flatMap tree.descendants := by
  obtain ⟨levels, size⟩ := Nat.exists_eq_add_of_lt (lt_size_of_contains inside)
  rw [descendants, if_pos inside, size, preorderWithin]
  congr 1
  apply List.flatMap_congr
  intro child member
  have direct := consistent.mem_contents_iff.mp member
  have within := contains_of_reflTransGen inside (.single direct)
  have deeper := consistent.forest.depth_of_holds direct
  rw [descendants, if_pos within, size]
  exact (consistent.preorderWithin_succ within (by omega)).symm

-- Going down from container to child ends as well.
theorem downward : WellFounded (flip tree.Holds) := by
  refine Subrelation.wf (fun {child above} direct => ?_)
    (measure fun id => tree.size - tree.depth id).wf
  have deeper := consistent.forest.depth_of_holds direct
  have shallow := consistent.forest.depth_lt_size (consistent.forest.inside direct)
  show tree.size - tree.depth child < tree.size - tree.depth above
  omega

theorem mem_descendants (inside : tree.contains id = true) :
    below ∈ tree.descendants id ↔ Relation.ReflTransGen tree.Holds id below := by
  induction id using consistent.downward.induction with
  | _ id ih =>
    have within : ∀ {child}, tree.Holds id child → tree.contains child = true :=
      fun direct => contains_of_reflTransGen inside (.single direct)
    rw [consistent.descendants_eq inside, List.mem_cons, List.mem_flatMap]
    constructor
    · rintro (rfl | ⟨child, member, lower⟩)
      · exact .refl
      · have direct := consistent.mem_contents_iff.mp member
        exact .head direct ((ih child direct (within direct)).mp lower)
    · intro lower
      rcases Relation.ReflTransGen.cases_head lower with rfl | ⟨child, direct, rest⟩
      · exact .inl rfl
      · exact .inr ⟨child, consistent.mem_contents_iff.mpr direct,
          (ih child direct (within direct)).mpr rest⟩

-- Two children of one node have nothing below them in common.
theorem sibling_unique {first second : NodeId} (left : tree.Holds id first)
    (right : tree.Holds id second) (below_first : Relation.ReflTransGen tree.Holds first below)
    (below_second : Relation.ReflTransGen tree.Holds second below) : first = second := by
  have upward : ∀ {upper lower : NodeId}, tree.Holds id upper → tree.Holds id lower →
      Relation.ReflTransGen tree.Holds upper lower → upper = lower := by
    intro upper lower top bottom chain
    rcases Relation.ReflTransGen.cases_tail chain with same | ⟨last, higher, direct⟩
    · exact same.symm
    · cases holds_unique direct bottom
      exact absurd (Relation.TransGen.head' top higher) consistent.forest.not_below_self
  -- two chains up from one node run into each other, since each step up is the only one
  have functional : Relator.RightUnique (Function.swap tree.Holds) :=
    fun _ _ _ up again => holds_unique up again
  have chains := Relation.ReflTransGen.total_of_right_unique functional
    (Relation.reflTransGen_swap.mpr below_first) (Relation.reflTransGen_swap.mpr below_second)
  rcases chains with up | up
  · exact (upward right left (Relation.reflTransGen_swap.mp up)).symm
  · exact upward left right (Relation.reflTransGen_swap.mp up)

theorem nodup_descendants (inside : tree.contains id = true) : (tree.descendants id).Nodup := by
  induction id using consistent.downward.induction with
  | _ id ih =>
    have within : ∀ {child}, tree.Holds id child → tree.contains child = true :=
      fun direct => contains_of_reflTransGen inside (.single direct)
    rw [consistent.descendants_eq inside, List.nodup_cons, List.nodup_flatMap]
    refine ⟨fun member => ?_, fun child member => ?_, ?_⟩
    · obtain ⟨child, listed, lower⟩ := List.mem_flatMap.mp member
      have direct := consistent.mem_contents_iff.mp listed
      have back := (consistent.mem_descendants (within direct)).mp lower
      exact consistent.forest.not_below_self (Relation.TransGen.head' direct back)
    · have direct := consistent.mem_contents_iff.mp member
      exact ih child direct (within direct)
    · refine List.Nodup.pairwise_of_forall_ne consistent.nodup_contents
        fun first inFirst second inSecond different lower inLeft inRight => different ?_
      have left := consistent.mem_contents_iff.mp inFirst
      have right := consistent.mem_contents_iff.mp inSecond
      exact consistent.sibling_unique left right
        ((consistent.mem_descendants (within left)).mp inLeft)
        ((consistent.mem_descendants (within right)).mp inRight)

theorem mem_allNodes :
    id ∈ tree.allNodes ↔ ∃ root, tree.root = some root ∧ Relation.ReflTransGen tree.Holds root id := by
  cases rooted : tree.root with
  | none => simp [allNodes, rooted]
  | some root => simp [allNodes, rooted, consistent.mem_descendants (consistent.root rooted).1]

theorem nodup_allNodes : tree.allNodes.Nodup := by
  cases rooted : tree.root with
  | none => simp [allNodes, rooted]
  | some root =>
    simpa [allNodes, rooted] using consistent.nodup_descendants (consistent.root rooted).1

theorem mem_allNodes_of_holds (direct : tree.Holds above below) :
    below ∈ tree.allNodes ↔ above ∈ tree.allNodes := by
  rw [consistent.mem_allNodes, consistent.mem_allNodes]
  refine exists_congr fun root => and_congr_right fun rooted => ⟨fun lower => ?_, fun lower => ?_⟩
  · rcases Relation.ReflTransGen.cases_tail lower with rfl | ⟨last, higher, final⟩
    · obtain ⟨_, held⟩ := direct
      rw [(consistent.root rooted).2] at held
      cases held
    · exact holds_unique final direct ▸ higher
  · exact lower.tail direct

theorem mem_allNodes_of_free (free : tree.container? id = none) :
    id ∈ tree.allNodes ↔ tree.root = some id := by
  rw [consistent.mem_allNodes]
  constructor
  · rintro ⟨root, rooted, lower⟩
    rcases Relation.ReflTransGen.cases_tail lower with rfl | ⟨last, _, ⟨_, held⟩⟩
    · exact rooted
    · rw [free] at held
      cases held
  · exact fun rooted => ⟨id, rooted, .refl⟩

end Consistent

end Crosslink.Tree
