import Crosslink.Proofs.ResourceSet.Relocating
import Crosslink.Proofs.Tree.RoundTrip
import Crosslink.Proofs.Uri.Spellings
import Mathlib

/-! The ways to write the path of a node.

All paths that lead to a node have the steps that lead to it from the root. One of
them is the path that the tree writes, and the others have a sign or zeros before
the digits of some position.
-/

set_option autoImplicit false

namespace Crosslink.Tree

variable {tree : Tree} {id child container : NodeId} {step : Step} {path other : Fragment}
  {steps others : List Step}

theorem Leads.unique (first : tree.Leads steps id) (second : tree.Leads others id)
    (consistent : tree.Consistent) : steps = others := by
  induction first generalizing others with
  | root rooted =>
    cases second with
    | root => rfl
    | step _ held _ =>
      rw [(consistent.root rooted).2] at held
      cases held
  | step higher held last ih =>
    cases second with
    | root rooted =>
      rw [(consistent.root rooted).2] at held
      cases held
    | step higherOther heldOther lastOther =>
      cases held.symm.trans heldOther
      cases last.symm.trans lastOther
      rw [ih higherOther]

namespace Consistent

variable (consistent : tree.Consistent)
include consistent

/-- Going down one step leads to a child whose last step it is. -/
theorem lastStep_of_stepFrom (down : tree.stepFrom container step = some child) :
    ∃ position, tree.container? child = some (container, position) ∧
      tree.lastStep? container position child = some step := by
  simp only [stepFrom, Option.bind_eq_some_iff, Prod.exists] at down
  obtain ⟨classifier, holder, position, feature, named, down⟩ := down
  obtain ⟨declared, name⟩ := Classifier.featureNamed?_eq_some named
  obtain ⟨stepName, stepIndex⟩ := step
  split at down
  · cases down
  · split at down
    · next index many numbered =>
      obtain rfl : stepIndex = some index := numbered
      obtain ⟨bound, same⟩ := List.getElem?_eq_some_iff.mp down
      have member : child ∈ tree.childrenAt container position := List.mem_of_getElem? down
      have place : (tree.childrenAt container position).idxOf? child = some index := by
        refine List.idxOf?_eq_some_iff.mpr ⟨bound, same, fun earlier before again => ?_⟩
        have positions := (consistent.nodup_childrenAt.getElem_inj_iff).mp (again.trans same.symm)
        omega
      refine ⟨position, consistent.mem_childrenAt.mp member, ?_⟩
      simp [lastStep?, holder, declared, many, place, name]
    · next one unnumbered =>
      obtain rfl : stepIndex = none := unnumbered
      have member : child ∈ tree.childrenAt container position := List.mem_of_head? down
      refine ⟨position, consistent.mem_childrenAt.mp member, ?_⟩
      simp [lastStep?, holder, declared, one, name]
    · cases down

/-- A path that can be followed to a node has the steps that lead to the node. -/
theorem leads_of_resolve? (leadsTo : tree.resolve? path = some id) :
    ∃ steps, path.steps = .ok steps ∧ tree.Leads steps id := by
  unfold resolve? at leadsTo
  split at leadsTo
  · next steps root decoded rooted =>
    refine ⟨steps, decoded, ?_⟩
    clear decoded
    induction steps using List.reverseRecOn generalizing id with
    | nil =>
      cases leadsTo
      exact .root rooted
    | append_singleton earlier step ih =>
      rw [List.foldlM_append] at leadsTo
      obtain ⟨container, above, down⟩ := Option.bind_eq_some_iff.mp leadsTo
      simp only [List.foldlM_cons, List.foldlM_nil, bind_pure] at down
      obtain ⟨position, held, last⟩ := consistent.lastStep_of_stepFrom down
      exact .step (ih above) held last
  · cases leadsTo

theorem steps_of_resolve?_eq (first : tree.resolve? path = some id)
    (second : tree.resolve? other = some id) :
    ∃ steps, path.steps = .ok steps ∧ other.steps = .ok steps := by
  obtain ⟨steps, decoded, leads⟩ := consistent.leads_of_resolve? first
  obtain ⟨others, decodedOther, leadsOther⟩ := consistent.leads_of_resolve? second
  exact ⟨steps, decoded, leads.unique leadsOther consistent ▸ decodedOther⟩

/-- Of the paths that lead to a node, the plain one is that which the tree writes. -/
theorem fragment?_eq_iff_isPlain (leadsTo : tree.resolve? path = some id) :
    tree.fragment? id = some path ↔ path.IsPlain := by
  obtain ⟨steps, decoded, leads⟩ := consistent.leads_of_resolve? leadsTo
  rw [← Fragment.ofSteps_eq_iff_isPlain decoded, consistent.fragment?_eq_some]
  constructor
  · rintro ⟨others, leadsOther, written⟩
    rw [leads.unique leadsOther consistent, written]
  · intro written
    exact ⟨steps, leads, written⟩

/-- The addresses by which an edit looks up references to a node contain the plain path to it and
none of the others. -/
theorem mem_addresses_iff_isPlain (leadsTo : tree.resolve? path = some id) {content : Content}
    (holds : content.tree = tree) (resource : ResourceUri) :
    (id, Uri.mk resource path) ∈ content.addresses resource ↔ path.IsPlain := by
  rw [Content.mem_addresses, holds, ← consistent.fragment?_eq_iff_isPlain leadsTo]
  constructor
  · rintro ⟨_, _, written, same⟩
    cases same
    exact written
  · intro written
    have reached := consistent.isSome_fragment?.mp (Option.isSome_of_eq_some written)
    exact ⟨reached, path, written, rfl⟩

end Consistent

/-- Whatever operations made a tree, two paths that lead to one node have the same steps, and are
equal exactly if their positions have the same digits. So a node has one plain path, which is the one
that the tree writes and that edits find its references by. Signs and zeros before the digits of a
position give it further ones. -/
theorem paths_to_node (edits : List Edit) {id : NodeId} {path other : Fragment}
    (first : (Tree.empty.run edits).resolve? path = some id)
    (second : (Tree.empty.run edits).resolve? other = some id) :
    (Fragment.parse path.text = .ok path ∧ Fragment.parse other.text = .ok other) ∧
      path.steps = other.steps ∧
      (path = other ↔ path.numerals = other.numerals) ∧
      (path.IsPlain → other.IsPlain → path = other) ∧
      ((Tree.empty.run edits).fragment? id = some path ↔ path.IsPlain) ∧
      ∀ content : Content, content.tree = Tree.empty.run edits → ∀ resource,
        ((id, ⟨resource, path⟩) ∈ content.addresses resource ↔ path.IsPlain) := by
  have consistent : (Tree.empty.run edits).Consistent := consistent_empty.run edits
  obtain ⟨steps, decoded, decodedOther⟩ := consistent.steps_of_resolve?_eq first second
  refine ⟨⟨Fragment.parse_of_steps decoded, Fragment.parse_of_steps decodedOther⟩,
    decoded.trans decodedOther.symm, Fragment.eq_iff_numerals decoded decodedOther, ?plain,
    consistent.fragment?_eq_iff_isPlain first,
    fun content holds resource => consistent.mem_addresses_iff_isPlain first holds resource⟩
  case plain =>
    intro plain plainOther
    rw [← (Fragment.ofSteps_eq_iff_isPlain decoded).mpr plain,
      ← (Fragment.ofSteps_eq_iff_isPlain decodedOther).mpr plainOther]

/-- The second box in the list is found at the position `1` and at the position `01`, and no edit
finds what refers to it at the latter. -/
theorem paths_to_second_box :
    (⟨"//@items.1"⟩ : Fragment).steps = (⟨"//@items.01"⟩ : Fragment).steps ∧
      ∀ content : Content, content.tree = Tree.empty.run boxEdits → ∀ resource,
        (2, ⟨resource, ⟨"//@items.01"⟩⟩) ∉ content.addresses resource := by
  have plain : (Tree.empty.run boxEdits).resolve? ⟨"//@items.1"⟩ = some 2 := by cbv
  have padded : (Tree.empty.run boxEdits).resolve? ⟨"//@items.01"⟩ = some 2 := by cbv
  obtain ⟨_, steps, _, _, _, found⟩ := paths_to_node boxEdits padded plain
  refine ⟨steps.symm, fun content holds resource member => ?_⟩
  exact absurd ((found content holds resource).mp member) (by decide)

/-- Two different paths are accepted and lead to one node. -/
theorem exists_two_paths_to_node :
    ¬ ∀ (edits : List Edit) (path other : Fragment) (id : NodeId),
      Fragment.parse path.text = .ok path → Fragment.parse other.text = .ok other →
      (Tree.empty.run edits).resolve? path = some id →
      (Tree.empty.run edits).resolve? other = some id → path = other := by
  intro unique
  have same := unique boxEdits ⟨"//@items.1"⟩ ⟨"//@items.01"⟩ 2 (by cbv) (by cbv) (by cbv) (by cbv)
  exact absurd same (by decide)

end Crosslink.Tree
