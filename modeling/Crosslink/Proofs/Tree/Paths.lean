import Crosslink.Proofs.Tree.Preorder
import Crosslink.Proofs.Uri.Steps

/-! Nodes and their containment paths.

The path of a node is found by climbing, and a path is followed by going down.
Each node that can be reached has one path, and following it leads back to it.
-/

set_option autoImplicit false

namespace Crosslink.Tree

variable {tree : Tree} {id child container : NodeId} {position : FeatureId} {steps : List Step}

inductive Leads (tree : Tree) : List Step → NodeId → Prop where
  | root {id : NodeId} (rooted : tree.root = some id) : Leads tree [] id
  | step {steps : List Step} {container id : NodeId} {position : FeatureId} {step : Step}
      (higher : Leads tree steps container)
      (held : tree.container? id = some (container, position))
      (last : tree.lastStep? container position id = some step) :
      Leads tree (steps ++ [step]) id

/-- The names of all features can stand in paths. -/
def PathNamed (tree : Tree) : Prop :=
  ∀ {id position feature}, tree.feature? id position = some feature → IsPathName feature.name

theorem lastStep?_eq_some {step : Step}
    (last : tree.lastStep? container position child = some step) :
    ∃ feature, tree.feature? container position = some feature ∧ step.feature = feature.name ∧
      if feature.isMany then
        step.index = (tree.childrenAt container position).idxOf? child ∧ step.index.isSome
      else step.index = none := by
  simp only [lastStep?, Option.bind_eq_some_iff] at last
  obtain ⟨classifier, found, feature, declared, last⟩ := last
  refine ⟨feature, by simp [feature?, found, declared], ?_⟩
  split at last
  · next many =>
    obtain ⟨index, place, rfl⟩ := Option.map_eq_some_iff.mp last
    simp [many, place]
  · next one =>
    cases last
    simp [one]

theorem contains_of_leads (consistent : tree.Consistent) (leads : tree.Leads steps id) :
    tree.contains id = true := by
  cases leads with
  | root rooted => exact (consistent.root rooted).1
  | step _ held _ => exact contains_of_container held

theorem names_of_leads (named : tree.PathNamed) (leads : tree.Leads steps id) :
    ∀ step ∈ steps, IsPathName step.feature := by
  induction leads with
  | root => simp
  | step higher held last ih =>
    intro step member
    rcases List.mem_append.mp member with earlier | final
    · exact ih step earlier
    · rw [List.mem_singleton] at final
      obtain ⟨feature, found, same, _⟩ := lastStep?_eq_some (final ▸ last)
      exact same ▸ named found

namespace Consistent

variable (consistent : tree.Consistent)
include consistent

theorem length_childrenAt_le : (tree.childrenAt id position).length ≤ tree.size := by
  have among : tree.childrenAt id position ⊆ List.range tree.size := fun child member =>
    List.mem_range.mpr (lt_size_of_contains (contains_of_container (consistent.listed member)))
  simpa using (consistent.nodup_childrenAt.subperm among).length_le

-- The positions on the way to a node are smaller than the number of nodes.
theorem index_of_leads (leads : tree.Leads steps id) :
    ∀ step ∈ steps, ∀ index, step.index = some index → index < tree.size := by
  induction leads with
  | root => simp
  | step higher held last ih =>
    intro step member index numbered
    rcases List.mem_append.mp member with earlier | final
    · exact ih step earlier index numbered
    · rw [List.mem_singleton] at final
      obtain ⟨feature, _, _, place⟩ := lastStep?_eq_some (final ▸ last)
      split at place
      · rw [numbered] at place
        obtain ⟨bound, _⟩ := List.findIdx?_eq_some_iff_getElem.mp place.1.symm
        exact Nat.lt_of_lt_of_le bound consistent.length_childrenAt_le
      · rw [numbered] at place
        cases place

-- Going down looks the feature up by its name, and finds the one that the node is held by because
-- a node is attached only to the first feature of a name.
theorem lastStep_leads (held : tree.container? child = some (container, position)) :
    ∃ step, tree.lastStep? container position child = some step ∧
      tree.stepFrom container step = some child := by
  obtain ⟨own, classifier, declared, _, holder, named, _⟩ := consistent.held held
  obtain ⟨found, _⟩ := Classifier.featureNamed?_eq_some named
  have declares : tree.feature? container position = some declared := by
    simp [feature?, holder, found]
  have member : child ∈ tree.childrenAt container position := consistent.mem_childrenAt.mpr held
  have kind : declared.isContainment = true := by
    obtain ⟨feature, again, kind⟩ := consistent.feature_of_container held
    cases declares.symm.trans again
    rw [Feature.isContainment, decide_eq_true_eq, kind]
  cases many : declared.isMany with
  | true =>
    obtain ⟨index, place⟩ : ∃ index, (tree.childrenAt container position).idxOf? child = some index :=
      Option.isSome_iff_exists.mp (List.isSome_idxOf?.mpr member)
    obtain ⟨bound, same, _⟩ := List.findIdx?_eq_some_iff_getElem.mp place
    refine ⟨⟨declared.name, some index⟩, by simp [lastStep?, holder, found, many, place], ?_⟩
    simp only [stepFrom, holder, Option.bind_some, named, kind, many]
    rw [List.getElem?_eq_getElem bound]
    simpa using same
  | false =>
    refine ⟨⟨declared.name, none⟩, by simp [lastStep?, holder, found, many], ?_⟩
    have few := consistent.length_childrenAt_le_one declares many
    simp only [stepFrom, holder, Option.bind_some, named, kind, many]
    cases listed : tree.childrenAt container position with
    | nil => simp [listed] at member
    | cons first rest =>
      rw [listed] at member few
      have alone : rest = [] := List.eq_nil_of_length_eq_zero (by simpa using few)
      simpa [alone, eq_comm] using member

theorem exists_leads_iff : (∃ steps, tree.Leads steps id) ↔ id ∈ tree.allNodes := by
  constructor
  · rintro ⟨steps, leads⟩
    induction leads with
    | root rooted => exact (consistent.mem_allNodes_of_free (consistent.root rooted).2).mpr rooted
    | step _ held _ ih => exact (consistent.mem_allNodes_of_holds ⟨_, held⟩).mpr ih
  · intro member
    obtain ⟨root, rooted, lower⟩ := consistent.mem_allNodes.mp member
    induction lower with
    | refl => exact ⟨[], .root rooted⟩
    | tail higher direct ih =>
      obtain ⟨steps, leads⟩ := ih (consistent.mem_allNodes.mpr ⟨root, rooted, higher⟩)
      obtain ⟨position, held⟩ := direct
      obtain ⟨step, last, _⟩ := consistent.lastStep_leads held
      exact ⟨_, .step leads held last⟩

/-- The written path of a node is that of the steps that lead to it. -/
theorem fragment?_eq_some {path : Fragment} :
    tree.fragment? id = some path ↔ ∃ steps, tree.Leads steps id ∧ Fragment.ofSteps steps = path := by
  -- whatever the bound, what is found is right; that something is found needs it above the depth
  constructor
  · have sound : ∀ bound {id path}, tree.fragmentWithin bound id = some path →
        ∃ steps, tree.Leads steps id ∧ Fragment.ofSteps steps = path := by
      intro bound
      induction bound with
      | zero => simp [fragmentWithin]
      | succ bound ih =>
        intro id path found
        rw [fragmentWithin] at found
        split at found
        · split at found
          · next rooted =>
            cases found
            exact ⟨[], .root rooted, rfl⟩
          · cases found
        · next container position held =>
          simp only [Option.bind_eq_some_iff, Option.map_eq_some_iff] at found
          obtain ⟨step, last, above, higher, rfl⟩ := found
          obtain ⟨steps, leads, rfl⟩ := ih higher
          exact ⟨steps ++ [step], .step leads held last, Fragment.ofSteps_concat steps step⟩
    exact sound tree.size
  · have complete : ∀ {bound id steps}, tree.Leads steps id → tree.depth id < bound →
        tree.fragmentWithin bound id = some (Fragment.ofSteps steps) := by
      intro bound id steps leads
      induction leads generalizing bound with
      | @root id rooted =>
        intro room
        obtain ⟨bound, rfl⟩ := Nat.exists_eq_add_of_lt (Nat.zero_lt_of_lt room)
        simp [fragmentWithin, (consistent.root rooted).2, rooted, Fragment.ofSteps]
      | step higher held last ih =>
        intro room
        obtain ⟨bound, rfl⟩ := Nat.exists_eq_add_of_lt (Nat.zero_lt_of_lt room)
        have deeper := consistent.forest.depth_of_holds ⟨_, held⟩
        rw [Nat.zero_add, fragmentWithin, held]
        simp [last, @ih bound (by omega), Fragment.ofSteps_concat]
    rintro ⟨steps, leads, rfl⟩
    exact complete leads (consistent.forest.depth_lt_size (contains_of_leads consistent leads))

theorem isSome_fragment? : (tree.fragment? id).isSome = true ↔ id ∈ tree.allNodes := by
  rw [Option.isSome_iff_exists, ← consistent.exists_leads_iff]
  constructor
  · rintro ⟨path, found⟩
    obtain ⟨steps, leads, _⟩ := consistent.fragment?_eq_some.mp found
    exact ⟨steps, leads⟩
  · rintro ⟨steps, leads⟩
    exact ⟨_, consistent.fragment?_eq_some.mpr ⟨steps, leads, rfl⟩⟩

theorem follow_leads (leads : tree.Leads steps id) :
    ∃ root, tree.root = some root ∧ steps.foldlM tree.stepFrom root = some id := by
  induction leads with
  | root rooted => exact ⟨_, rooted, rfl⟩
  | step higher held last ih =>
    obtain ⟨root, rooted, followed⟩ := ih
    obtain ⟨step, again, down⟩ := consistent.lastStep_leads held
    cases last.symm.trans again
    exact ⟨root, rooted, by simp [List.foldlM_append, followed, down]⟩

/-- No two nodes have one path. -/
theorem fragment?_injective (named : tree.PathNamed) {other : NodeId} {path : Fragment}
    (first : tree.fragment? id = some path) (second : tree.fragment? other = some path) :
    id = other := by
  obtain ⟨steps, leads, rfl⟩ := consistent.fragment?_eq_some.mp first
  obtain ⟨others, leadsOther, same⟩ := consistent.fragment?_eq_some.mp second
  cases Fragment.ofSteps_injective (names_of_leads named leadsOther) (names_of_leads named leads) same
  obtain ⟨root, rooted, followed⟩ := consistent.follow_leads leads
  obtain ⟨again, rootedAgain, followedOther⟩ := consistent.follow_leads leadsOther
  cases rooted.symm.trans rootedAgain
  exact Option.some.inj (followed.symm.trans followedOther)

/-- Following the written path of a node leads to the node. -/
theorem resolve?_fragment (named : tree.PathNamed) (fits : tree.size ≤ Text.indexBound)
    {path : Fragment} (found : tree.fragment? id = some path) : tree.resolve? path = some id := by
  obtain ⟨steps, leads, rfl⟩ := consistent.fragment?_eq_some.mp found
  obtain ⟨root, rooted, followed⟩ := consistent.follow_leads leads
  have decoded := Fragment.steps_ofSteps (names_of_leads named leads) fun step member index numbered =>
    Nat.lt_of_lt_of_le (consistent.index_of_leads leads step member index numbered) fits
  simp only [resolve?, decoded, rooted, followed]

/-- If the written path of a node leads anywhere, it leads to the node. How large the tree is does
not matter for this. -/
theorem eq_of_resolve? (named : tree.PathNamed) {other : NodeId} {path : Fragment}
    (found : tree.fragment? id = some path) (leadsTo : tree.resolve? path = some other) :
    other = id := by
  obtain ⟨steps, leads, rfl⟩ := consistent.fragment?_eq_some.mp found
  obtain ⟨root, rooted, followed⟩ := consistent.follow_leads leads
  unfold resolve? at leadsTo
  split at leadsTo
  · next others again decoded rootedAgain =>
    cases rooted.symm.trans rootedAgain
    rw [Fragment.eq_of_steps (names_of_leads named leads) decoded] at leadsTo
    exact Option.some.inj (leadsTo.symm.trans followed)
  · cases leadsTo

end Consistent

end Crosslink.Tree
