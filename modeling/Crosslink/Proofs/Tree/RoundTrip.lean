import Crosslink.Proofs.Tree.Paths
import Crosslink.Proofs.Types.Classes
import Crosslink.Resource

/-! Addresses that lead back.

A node that can be reached has a path, and the path read from its text leads back
to it. The same holds of addresses in the resource that has the tree.
-/

set_option autoImplicit false

namespace Crosslink

namespace Fragment

/-- A path that can be followed is read from its text. -/
theorem parse_of_steps {path : Fragment} {steps : List Step} (decoded : path.steps = .ok steps) :
    Fragment.parse path.text = .ok path := by
  unfold parse
  have same : (Fragment.mk path.text).steps = .ok steps := decoded
  rw [same]

end Fragment

namespace Tree

variable {tree : Tree} {id : NodeId} {path : Fragment}

inductive Reaches (tree : Tree) : NodeId → Prop where
  | root {id : NodeId} (rooted : tree.root = some id) : Reaches tree id
  | child {container id : NodeId} (above : Reaches tree container)
      (member : id ∈ tree.contents container) : Reaches tree id

theorem pathNamed_of_classifiers
    (named : ∀ classifier ∈ tree.nodes.toList.map (·.classifier),
      ∀ feature ∈ classifier.features, IsPathName feature.name) : tree.PathNamed := by
  intro id position feature found
  obtain ⟨classifier, own, declared⟩ := Option.bind_eq_some_iff.mp found
  obtain ⟨node, held, rfl⟩ := Option.map_eq_some_iff.mp own
  exact named _ (List.mem_map_of_mem (Array.mem_def.mp (Array.mem_of_getElem? held))) feature
    (List.mem_of_getElem? declared)

theorem steps_of_resolve? {other : NodeId} (leads : tree.resolve? path = some other) :
    ∃ steps, path.steps = .ok steps := by
  unfold resolve? at leads
  split at leads
  · next steps root decoded rooted => exact ⟨steps, decoded⟩
  · cases leads

namespace Consistent

variable (consistent : tree.Consistent)
include consistent

theorem reaches_iff : tree.Reaches id ↔ id ∈ tree.allNodes := by
  constructor
  · intro reached
    induction reached with
    | root rooted => exact (consistent.mem_allNodes_of_free (consistent.root rooted).2).mpr rooted
    | child above member ih =>
      exact (consistent.mem_allNodes_of_holds (consistent.mem_contents_iff.mp member)).mpr ih
  · intro member
    obtain ⟨root, rooted, lower⟩ := consistent.mem_allNodes.mp member
    induction lower with
    | refl => exact .root rooted
    | tail higher direct ih =>
      have above := ih (consistent.mem_allNodes.mpr ⟨root, rooted, higher⟩)
      exact .child above (consistent.mem_contents_iff.mpr direct)

theorem isSome_fragment?_iff_reaches : (tree.fragment? id).isSome = true ↔ tree.Reaches id :=
  consistent.isSome_fragment?.trans consistent.reaches_iff.symm

/-- In a resource that holds the tree, the address of a node leads back to the node. -/
theorem resolve?_uriOf (named : tree.PathNamed) (fits : tree.size ≤ Text.indexBound)
    {resource : Resource} (holds : resource.tree? = some tree) (reached : tree.Reaches id) :
    ∃ uri, resource.uriOf? id = some uri ∧
      resource.resolve? uri = some ⟨resource.uri, tree, id⟩ := by
  have written := consistent.isSome_fragment?_iff_reaches.mpr reached
  obtain ⟨path, found⟩ := Option.isSome_iff_exists.mp written
  refine ⟨⟨resource.uri, path⟩, by simp [Resource.uriOf?, holds, found], ?_⟩
  have leads := consistent.resolve?_fragment named fits found
  obtain ⟨steps, way, _⟩ := consistent.fragment?_eq_some.mp found
  have inside := contains_of_leads consistent way
  simp [Resource.resolve?, Uri.isIn, Resource.site?, Site.at?, holds, leads, inside]

end Consistent

/-- Whatever operations made a tree, exactly the nodes that can be reached have paths, no two have
the same, and the path of each leads back to it, read from its text or as an address. The positions
of the tree have to be machine words, since no other is read. -/
theorem round_trip_of_edits (edits : List Edit) (named : (Tree.empty.run edits).PathNamed)
    (fits : (Tree.empty.run edits).size ≤ Text.indexBound) :
    let tree := Tree.empty.run edits
    (∀ id, (tree.fragment? id).isSome = true ↔ tree.Reaches id) ∧
    (∀ id path, tree.fragment? id = some path →
      Fragment.parse path.text = .ok path ∧ tree.resolve? path = some id) ∧
    (∀ id other, tree.Reaches id → tree.fragment? id = tree.fragment? other → id = other) ∧
    ∀ resource : Resource, resource.tree? = some tree → ∀ id, tree.Reaches id →
      ∃ uri, resource.uriOf? id = some uri ∧
        resource.resolve? uri = some ⟨resource.uri, tree, id⟩ := by
  intro tree
  have consistent : tree.Consistent := consistent_empty.run edits
  refine ⟨fun id => consistent.isSome_fragment?_iff_reaches, ?back, ?apart,
    fun resource holds id reached => consistent.resolve?_uriOf named fits holds reached⟩
  case back =>
    intro id path found
    have leads := consistent.resolve?_fragment named fits found
    obtain ⟨steps, decoded⟩ := steps_of_resolve? leads
    exact ⟨Fragment.parse_of_steps decoded, leads⟩
  case apart =>
    intro id other reached same
    have written := consistent.isSome_fragment?_iff_reaches.mpr reached
    obtain ⟨path, found⟩ := Option.isSome_iff_exists.mp written
    exact consistent.fragment?_injective named found (same.symm.trans found)

/-! ### Features of one name -/

def boxClass : Classifier :=
  .build "Box" [] [(Feature.containment "items" "Box").many, .containment "lid" "Box",
    .containment "lid" "Box"]

def boxEdits : List Edit :=
  [.create boxClass, .create boxClass, .create boxClass, .create boxClass, .create boxClass,
    .setRoot 0, .attach 0 "items" none 1, .attach 0 "items" none 2, .attach 2 "lid" none 3,
    .attach 1 "lid" none 4, .detach 4]

theorem boxEdits_named : (Tree.empty.run boxEdits).PathNamed := by
  have classifiers : (Tree.empty.run boxEdits).nodes.toList.map (·.classifier) =
      List.replicate 5 boxClass := by cbv
  apply pathNamed_of_classifiers
  rw [classifiers]
  decide

/-- The lid has a path that leads back to it, and the box that lies apart has none. -/
theorem round_trip_boxEdits :
    let tree := Tree.empty.run boxEdits
    tree.fragment? 3 = some ⟨"//@items.1/@lid"⟩ ∧ tree.resolve? ⟨"//@items.1/@lid"⟩ = some 3 ∧
      ¬ tree.Reaches 4 := by
  have size : (Tree.empty.run boxEdits).size ≤ Text.indexBound := by
    have five : (Tree.empty.run boxEdits).size = 5 := by cbv
    rw [five]
    decide
  have trips := round_trip_of_edits boxEdits boxEdits_named size
  have lid : (Tree.empty.run boxEdits).fragment? 3 = some ⟨"//@items.1/@lid"⟩ := by cbv
  have apart : (Tree.empty.run boxEdits).fragment? 4 = none := by cbv
  refine ⟨lid, (trips.2.1 3 _ lid).2, fun reached => ?_⟩
  have written := (trips.1 4).mpr reached
  rw [apart] at written
  cases written

end Tree

end Crosslink
