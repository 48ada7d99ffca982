import Crosslink.Proofs.Tree.Operations
import Mathlib.Data.List.Perm.Subperm
import Mathlib.Logic.Relation
import Mathlib.Order.WellFounded

/-! Climbing from a node to its containers.

The walk is cut off after as many steps as there are nodes. Where climbing ends
at all, it visits no node twice, so the cut is never felt.
-/

set_option autoImplicit false

namespace Crosslink.Tree

variable {tree : Tree} {id above below : NodeId}

/-- Climbing ends, and the nodes that contain others exist. -/
structure Forest (tree : Tree) : Prop where
  ends : WellFounded tree.Holds
  inside : ∀ {above below : NodeId}, tree.Holds above below → tree.contains above = true

def depth (tree : Tree) (id : NodeId) : Nat := (tree.ancestors id).length

theorem ancestorsWithin_succ {container : NodeId} {position : FeatureId} (bound : Nat)
    (held : tree.container? id = some (container, position)) :
    tree.ancestorsWithin (bound + 1) id = container :: tree.ancestorsWithin bound container := by
  simp [ancestorsWithin, held]

theorem ancestorsWithin_of_free (bound : Nat) (free : tree.container? id = none) :
    tree.ancestorsWithin bound id = [] := by
  cases bound <;> simp [ancestorsWithin, free]

theorem transGen_of_mem_ancestorsWithin {bound : Nat} (member : above ∈ tree.ancestorsWithin bound id) :
    Relation.TransGen tree.Holds above id := by
  induction bound generalizing id with
  | zero => simp [ancestorsWithin] at member
  | succ bound ih =>
    cases held : tree.container? id with
    | none => simp [ancestorsWithin_of_free _ held] at member
    | some place =>
      obtain ⟨container, position⟩ := place
      have direct : tree.Holds container id := ⟨position, held⟩
      rw [ancestorsWithin_succ bound held] at member
      rcases List.mem_cons.mp member with rfl | higher
      · exact .single direct
      · exact (ih higher).tail direct

-- A walk that stopped before the cut is not changed by a later cut.
theorem ancestorsWithin_add {bound : Nat} (short : (tree.ancestorsWithin bound id).length < bound)
    (more : Nat) : tree.ancestorsWithin (bound + more) id = tree.ancestorsWithin bound id := by
  induction bound generalizing id with
  | zero => simp at short
  | succ bound ih =>
    cases held : tree.container? id with
    | none => rw [ancestorsWithin_of_free _ held, ancestorsWithin_of_free _ held]
    | some place =>
      obtain ⟨container, position⟩ := place
      rw [ancestorsWithin_succ bound held, List.length_cons] at short
      rw [Nat.add_right_comm, ancestorsWithin_succ _ held, ancestorsWithin_succ _ held,
        ih (by omega)]

namespace Forest

variable (forest : tree.Forest)
include forest

theorem not_below_self : ¬ Relation.TransGen tree.Holds id id :=
  forest.ends.transGen.irrefl.irrefl id

theorem nodup_ancestorsWithin (bound : Nat) : (id :: tree.ancestorsWithin bound id).Nodup := by
  induction bound generalizing id with
  | zero => simp [ancestorsWithin]
  | succ bound ih =>
    refine List.nodup_cons.mpr ⟨fun member => ?_, ?_⟩
    · exact forest.not_below_self (transGen_of_mem_ancestorsWithin member)
    · cases held : tree.container? id with
      | none => simp [ancestorsWithin_of_free _ held]
      | some place => simpa [ancestorsWithin_succ bound held] using ih

theorem contains_of_transGen (lower : Relation.TransGen tree.Holds above id) :
    tree.contains above = true := by
  induction lower using Relation.TransGen.head_induction_on with
  | single direct => exact forest.inside direct
  | head direct _ _ => exact forest.inside direct

theorem length_ancestorsWithin_lt (inside : tree.contains id = true) (bound : Nat) :
    (tree.ancestorsWithin bound id).length < tree.size := by
  -- the node and all above it are distinct nodes of the tree
  have among : (id :: tree.ancestorsWithin bound id) ⊆ List.range tree.size := by
    intro node member
    rw [List.mem_range]
    rcases List.mem_cons.mp member with rfl | higher
    · exact lt_size_of_contains inside
    · exact lt_size_of_contains
        (forest.contains_of_transGen (transGen_of_mem_ancestorsWithin higher))
  have fewer := ((forest.nodup_ancestorsWithin bound).subperm among).length_le
  rw [List.length_cons, List.length_range] at fewer
  exact fewer

theorem ancestors_of_container {container : NodeId} {position : FeatureId}
    (held : tree.container? id = some (container, position)) :
    tree.ancestors id = container :: tree.ancestors container := by
  have inside : tree.contains container = true := forest.inside ⟨position, held⟩
  have short := forest.length_ancestorsWithin_lt inside tree.size
  rw [ancestors, ancestors, ← ancestorsWithin_succ _ held]
  exact (ancestorsWithin_add
    (forest.length_ancestorsWithin_lt (contains_of_container held) tree.size) 1).symm

theorem isAncestor_iff : tree.isAncestor above id = true ↔ Relation.TransGen tree.Holds above id := by
  rw [isAncestor, decide_eq_true_eq]
  refine ⟨transGen_of_mem_ancestorsWithin, fun lower => ?_⟩
  induction lower with
  | single direct =>
    obtain ⟨position, held⟩ := direct
    simp [forest.ancestors_of_container held]
  | tail _ direct ih =>
    obtain ⟨position, held⟩ := direct
    rw [forest.ancestors_of_container held]
    exact List.mem_cons_of_mem _ ih

theorem depth_lt_size (inside : tree.contains id = true) : tree.depth id < tree.size :=
  forest.length_ancestorsWithin_lt inside tree.size

theorem depth_of_holds (direct : tree.Holds above below) :
    tree.depth below = tree.depth above + 1 := by
  obtain ⟨position, held⟩ := direct
  simp [depth, forest.ancestors_of_container held]

end Forest

end Crosslink.Tree
