import Crosslink.Proofs.Tree.Reattaching
import Crosslink.Proofs.Tree.RoundTrip

/-! Attaching and detaching undo each other.

A node that was put into a slot stands in it once, so that taking it out leaves the slot as it
was. A node that was taken out passes all checks at the place from which it came, and the first
feature of the name of its slot is that slot.
-/

set_option autoImplicit false

namespace Crosslink.Tree

variable {tree next : Tree} {id container : NodeId} {position : FeatureId}

theorem filter_insertIdx {nodes : List NodeId} (fresh : id ∉ nodes) (index : Nat) :
    (nodes.insertIdx index id).filter (· ≠ id) = nodes := by
  induction nodes generalizing index with
  | nil => cases index <;> simp
  | cons first rest ih =>
    obtain ⟨apart, fresh⟩ := not_or.mp (List.mem_cons.not.mp fresh)
    cases index with
    | zero =>
      have others : ∀ other ∈ rest, other ≠ id := fun _ member => ne_of_mem_of_not_mem member fresh
      simpa [Ne.symm apart] using others
    | succ index => simpa [Ne.symm apart] using ih fresh index

namespace Consistent

variable (consistent : tree.Consistent)
include consistent

/-- A node that was just put into a slot can be taken out, and the tree is as before. -/
theorem detach_of_attach {name : String} {index : Option Nat}
    (done : tree.attach container name index id = .ok next) : next.detach id = .ok tree := by
  obtain ⟨position, declared, node, found, seen, _, _, _, free, _, _, _, rfl⟩ := attach_ok done
  obtain ⟨holder, present, named, kind⟩ := featureOfKind_ok found
  have inside : tree.contains id = true := contains_iff.mpr ⟨node, seen⟩
  have slot := consistent.slot?_of_containment (feature?_of_featureNamed? present named).1 kind
  have fresh : id ∉ tree.childrenAt container position := by
    intro member
    rw [consistent.listed member] at free
    cases free
  generalize index.getD (tree.childrenAt container position).length = place
  change (tree.relink container position ((tree.childrenAt container position).insertIdx place id)
    id (some (container, position))).detach id = .ok tree
  rw [detach_eq (by rw [container?_relink _ _ _ _ _ _ inside, if_pos rfl]), Tree.without,
    childrenAt_relink, if_pos ⟨rfl, rfl, by rw [slot]; rfl⟩, filter_insertIdx fresh,
    relink_relink, relink_self slot free]

/-- A node that was just taken out can be put back under the name of its feature, and the tree is
as before. -/
theorem attach_of_detach (held : tree.container? id = some (container, position))
    {declared : Feature} (found : tree.feature? container position = some declared) {index : Nat}
    (place : (tree.childrenAt container position)[index]? = some id) :
    (tree.without container position id).attach container declared.name (some index) id =
      .ok tree := by
  rw [consistent.attach_of_without held found place rfl, Tree.without, relink_relink,
    relink_self (consistent.slot?_of_container held) held]

end Consistent

/-- Whatever operations made a tree, a node that is attached to it can be detached again, which
restores the tree. A node of the tree that is contained stands at some position of its slot, and can
be detached; attached again at that position, under the name of the feature, it restores the
tree. -/
theorem attach_detach_of_edits (edits : List Edit) :
    let tree := Tree.empty.run edits
    (∀ container name index child next,
      tree.attach container name index child = .ok next → next.detach child = .ok tree) ∧
    ∀ child container position, tree.container? child = some (container, position) →
      ∃ declared next, tree.feature? container position = some declared ∧
        tree.detach child = .ok next ∧
        (∃ index : Nat, (tree.childrenAt container position)[index]? = some child) ∧
        ∀ index : Nat, (tree.childrenAt container position)[index]? = some child →
          next.attach container declared.name (some index) child = .ok tree := by
  intro tree
  have consistent : tree.Consistent := consistent_empty.run edits
  refine ⟨fun container name index child next done => consistent.detach_of_attach done, ?_⟩
  intro child container position held
  obtain ⟨declared, found, _⟩ := consistent.feature_of_container held
  exact ⟨declared, _, found, detach_eq held,
    List.mem_iff_getElem?.mp (consistent.mem_childrenAt.mpr held),
    fun index place => consistent.attach_of_detach held found place⟩

/-- The box that lies apart becomes the lid of the first box and stops being it; the second box
leaves its list and comes back to its end. -/
theorem attach_detach_boxEdits :
    let tree := Tree.empty.run boxEdits
    (∃ next, tree.attach 1 "lid" none 4 = .ok next ∧ next.detach 4 = .ok tree) ∧
    tree.container? 2 = some (0, 0) ∧ (tree.childrenAt 0 0)[1]? = some 2 ∧
    ∃ next, tree.detach 2 = .ok next ∧ next.attach 0 "items" (some 1) 2 = .ok tree := by
  obtain ⟨undone, restored⟩ := attach_detach_of_edits boxEdits
  have held : (Tree.empty.run boxEdits).container? 2 = some (0, 0) := by cbv
  have place : ((Tree.empty.run boxEdits).childrenAt 0 0)[1]? = some 2 := by cbv
  have items : (Tree.empty.run boxEdits).feature? 0 0 = some (Feature.containment "items" "Box").many := by
    cbv
  have attached : ∃ next, (Tree.empty.run boxEdits).attach 1 "lid" none 4 = .ok next :=
    ⟨_, by cbv⟩
  obtain ⟨next, done⟩ := attached
  obtain ⟨declared, left, found, detached, _, back⟩ := restored 2 0 0 held
  cases items.symm.trans found
  exact ⟨⟨next, done, undone 1 "lid" none 4 next done⟩, held, place, left, detached, back 1 place⟩

end Crosslink.Tree
