import Crosslink.Proofs.Resource.Views

/-! Nodes that stand beside the tree of a resource.

What changes the references of a resource goes by those that can be reached from
the root. The references of all other nodes stay as they are, and nothing is
noted about them.
-/

set_option autoImplicit false

namespace Crosslink.Content

/-- The content has the tree, but for the references of nodes that can be reached, and nothing
waits for the other nodes. -/
structure Spares (tree : Tree) (content : Content) : Prop where
  shape : content.tree.shape = tree.shape
  beside : ∀ slot : SlotKey, slot.source ∉ tree.allNodes →
    content.tree.referenceAt? slot = tree.referenceAt? slot
  waits : ∀ pending ∈ content.pending, pending.source ∈ tree.allNodes

variable {tree : Tree} {content after : Content} {slot : SlotKey}

theorem reached_of_picked {α : Type} {pick : Reference → Option α} {detail : α}
    (consistent : content.tree.Consistent)
    (listed : (slot, detail) ∈ picked content.tree pick) : slot.source ∈ content.tree.allNodes := by
  obtain ⟨value, member, _⟩ := mem_picked.mp listed
  exact (consistent.mem_referenceValues.mp member).1

namespace Spares

variable (spares : content.Spares tree)
include spares

theorem allNodes : content.tree.allNodes = tree.allNodes := Tree.allNodes_of_shape spares.shape

theorem consistent (consistent : tree.Consistent) : content.tree.Consistent :=
  Tree.consistent_of_shape spares.shape consistent

-- All changes come down to this: a value is put in a place that can be reached, and what waits
-- afterwards waits for nodes that can be reached.
theorem replaced {value : Reference} (reached : slot.source ∈ tree.allNodes)
    (changed : after.tree = content.tree.replaceReference slot value)
    (waits : ∀ pending ∈ after.pending, pending.source ∈ tree.allNodes) : after.Spares tree where
  shape := by rw [changed, Tree.shape_replaceReference, spares.shape]
  beside other apart := by
    rw [changed, Tree.referenceAt?_replaceReference, if_neg]
    · exact spares.beside other apart
    · intro same
      exact apart ((Prod.mk.inj same).1 ▸ reached)
  waits := waits

theorem reopen (reached : slot.source ∈ tree.allNodes) (target : Uri) :
    (content.reopen slot target).Spares tree := by
  refine spares.replaced reached rfl fun pending member => ?_
  rcases List.mem_append.mp member with earlier | last
  · exact spares.waits pending earlier
  · rwa [List.mem_singleton.mp last]

theorem redirect (reached : slot.source ∈ tree.allNodes) (value : Reference) :
    (content.redirect slot value).Spares tree := by
  unfold Content.redirect
  cases value with
  | bound target => exact spares.replaced reached rfl spares.waits
  | unresolved proxy =>
    refine spares.replaced reached rfl fun pending member => ?_
    obtain ⟨before, earlier, rfl⟩ := List.mem_map.mp member
    split
    · exact spares.waits before earlier
    · exact spares.waits before earlier

theorem foldl {α : Type} {change : Content → SlotKey × α → Content}
    (keeps : ∀ content entry, content.Spares tree → entry.1.source ∈ tree.allNodes →
      (change content entry).Spares tree)
    {entries : List (SlotKey × α)} (reached : ∀ entry ∈ entries, entry.1.source ∈ tree.allNodes) :
    (entries.foldl change content).Spares tree := by
  induction entries generalizing content with
  | nil => exact spares
  | cons entry rest ih =>
    exact ih (keeps content entry spares (reached entry List.mem_cons_self)) fun later member =>
      reached later (List.mem_cons_of_mem _ member)

theorem reopenAll {slots : List (SlotKey × Uri)}
    (reached : ∀ entry ∈ slots, entry.1.source ∈ tree.allNodes) :
    (content.reopenAll slots).Spares tree := by
  cases slots with
  | nil => exact spares
  | cons entry rest =>
    have opened := spares.foldl (fun _ entry kept member => kept.reopen member entry.2) reached
    refine ⟨opened.shape, opened.beside, fun pending member => opened.waits pending ?_⟩
    exact List.mem_mergeSort.mp member

theorem demoted (consistent : tree.Consistent) (resource : ResourceUri) :
    ((content.demote? resource).getD content).Spares tree := by
  rw [demote?_eq]
  apply spares.reopenAll
  rintro ⟨slot, target⟩ listed
  rw [← spares.allNodes]
  exact reached_of_picked (spares.consistent consistent) listed

theorem relocated (consistent : tree.Consistent) (relocation : Relocation) :
    ((content.relocate? relocation).getD content).Spares tree := by
  have reached : ∀ {α : Type} {pick : Reference → Option α},
      ∀ entry ∈ picked content.tree pick, entry.1.source ∈ tree.allNodes := by
    rintro α pick ⟨slot, detail⟩ listed
    rw [← spares.allNodes]
    exact reached_of_picked (spares.consistent consistent) listed
  rw [relocate?_eq]
  exact (spares.foldl (fun _ entry kept member => kept.redirect member entry.2) reached).reopenAll
    reached

theorem bound {pending : Pending} (reached : pending.source ∈ tree.allNodes) (target : Uri)
    (warning : Option Diagnostic) :
    ((content.bind? pending target warning).getD content).Spares tree := by
  cases done : content.bind? pending target warning with
  | none => exact spares
  | some after =>
    obtain ⟨_, changed, filtered, _⟩ := bind?_eq_some done
    refine spares.replaced reached changed fun other member => spares.waits other ?_
    rw [Option.getD_some, filtered] at member
    exact (List.mem_filter.mp member).1

end Spares

end Crosslink.Content
