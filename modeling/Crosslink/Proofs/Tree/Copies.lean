import Crosslink.Proofs.Naming
import Crosslink.Site

/-! Trees that differ in the positions of their nodes only.

A text that is read again, or a tree that is built in another order, has the same nodes at other
positions. What lies below a node, the names above it and its path do not tell them apart.
-/

set_option autoImplicit false

namespace Crosslink

namespace Tree

/-- The nodes of a tree have images in another tree, of the same classifiers and attributes, that
contain each other likewise. What cannot be reached, ranges and the values of references do not
count. -/
structure Copy (tree copy : Tree) (image : NodeId → NodeId) : Prop where
  root : copy.root = tree.root.map image
  classifier : ∀ id ∈ tree.allNodes, copy.classifier? (image id) = tree.classifier? id
  attributes : ∀ id ∈ tree.allNodes, ∀ name,
    copy.attributes (image id) name = tree.attributes id name
  children : ∀ id ∈ tree.allNodes, ∀ position,
    copy.childrenAt (image id) position = (tree.childrenAt id position).map image

variable {tree copy : Tree} {image : NodeId → NodeId} {id above : NodeId}
  {position : FeatureId}

def width (tree : Tree) (id : NodeId) : Nat := ((tree.node? id).map (·.slots.length)).getD 0

theorem flatMap_children (slots : List Slot) {bound : Nat} (enough : slots.length ≤ bound) :
    slots.flatMap Slot.children = (List.range bound).flatMap fun position =>
      (slots[position]?.map Slot.children).getD [] := by
  induction slots generalizing bound with
  | nil => simp
  | cons slot rest ih =>
    obtain ⟨bound, rfl⟩ := Nat.exists_eq_add_of_lt (Nat.lt_of_lt_of_le (Nat.zero_lt_succ _) enough)
    rw [Nat.zero_add, List.range_succ_eq_map, List.flatMap_cons, List.flatMap_cons,
      List.flatMap_map, ih (by simpa using enough)]
    simp

/-- The children of a node are those of its features, up to any bound that is not too small. -/
theorem contents_eq {bound : Nat} (enough : tree.width id ≤ bound) :
    tree.contents id = (List.range bound).flatMap (tree.childrenAt id) := by
  unfold contents childrenAt slot? width at *
  cases held : tree.node? id with
  | none => simp
  | some node =>
    rw [held] at enough
    exact flatMap_children node.slots enough

theorem idxOf?_map {nodes : List NodeId} (apart : (nodes.map image).Nodup) (member : id ∈ nodes) :
    (nodes.map image).idxOf? (image id) = nodes.idxOf? id := by
  induction nodes with
  | nil => cases member
  | cons first rest ih =>
    obtain ⟨fresh, apart⟩ := List.nodup_cons.mp apart
    rw [List.map_cons, List.idxOf?_cons, List.idxOf?_cons]
    rcases List.mem_cons.mp member with rfl | later
    · simp
    · have image_ne : image first ≠ image id := fun same =>
        fresh (same ▸ List.mem_map_of_mem later)
      have ne : first ≠ id := fun same => image_ne (congrArg image same)
      simp only [beq_iff_eq, image_ne, ne, if_false]
      rw [ih apart later]

theorem Consistent.contains_of_mem (consistent : tree.Consistent) (member : id ∈ tree.allNodes) :
    tree.contains id = true := by
  obtain ⟨root, rooted, lower⟩ := consistent.mem_allNodes.mp member
  exact contains_of_reflTransGen (consistent.root rooted).1 lower

namespace Copy

/-! ### Downwards -/

section Down

variable (copies : Copy tree copy image)
include copies

theorem contents (member : id ∈ tree.allNodes) :
    copy.contents (image id) = (tree.contents id).map image := by
  rw [contents_eq (Nat.le_max_right (tree.width id) (copy.width (image id))),
    contents_eq (Nat.le_max_left (tree.width id) (copy.width (image id))), List.map_flatMap]
  exact List.flatMap_congr fun position _ => copies.children id member position

variable (consistent : tree.Consistent)
include consistent

theorem contains (member : id ∈ tree.allNodes) : copy.contains (image id) = true := by
  obtain ⟨node, held⟩ := contains_iff.mp (consistent.contains_of_mem member)
  have same := copies.classifier id member
  rw [classifier?, classifier?, held, Option.map_some] at same
  obtain ⟨node', held', _⟩ := Option.map_eq_some_iff.mp same
  exact contains_iff.mpr ⟨node', held'⟩

variable (consistent' : copy.Consistent)
include consistent'

theorem descendants (member : id ∈ tree.allNodes) :
    copy.descendants (image id) = (tree.descendants id).map image := by
  induction id using consistent.downward.induction with
  | _ id ih =>
    rw [consistent'.descendants_eq (copies.contains consistent member),
      consistent.descendants_eq (consistent.contains_of_mem member), copies.contents member,
      List.map_cons, List.flatMap_map, List.map_flatMap]
    congr 1
    refine List.flatMap_congr fun child listed => ?_
    have direct := consistent.mem_contents_iff.mp listed
    exact ih child direct ((consistent.mem_allNodes_of_holds direct).mpr member)

theorem allNodes : copy.allNodes = tree.allNodes.map image := by
  have rooted := copies.root
  unfold Tree.allNodes at *
  cases top : tree.root with
  | none =>
    rw [top] at rooted
    simp [rooted]
  | some root =>
    rw [top] at rooted
    rw [rooted]
    exact copies.descendants consistent consistent'
      ((consistent.mem_allNodes_of_free (consistent.root top).2).mpr top)

end Down

/-! ### Upwards -/

section Up

variable (copies : Copy tree copy image) (consistent : tree.Consistent)
  (consistent' : copy.Consistent)
include copies consistent consistent'

theorem held (member : above ∈ tree.allNodes)
    (held : tree.container? id = some (above, position)) :
    copy.container? (image id) = some (image above, position) := by
  apply consistent'.listed
  rw [copies.children above member]
  exact List.mem_map_of_mem (consistent.mem_childrenAt.mpr held)

theorem lastStep (member : above ∈ tree.allNodes)
    (held : tree.container? id = some (above, position)) :
    copy.lastStep? (image above) position (image id) = tree.lastStep? above position id := by
  have siblings := copies.children above member position
  have apart : ((tree.childrenAt above position).map image).Nodup :=
    siblings ▸ consistent'.nodup_childrenAt
  rw [lastStep?, lastStep?, copies.classifier above member, siblings,
    idxOf?_map apart (consistent.mem_childrenAt.mpr held)]

theorem leads {steps : List Step} (leads : tree.Leads steps id) : copy.Leads steps (image id) := by
  induction leads with
  | root rooted => exact .root (by rw [copies.root, rooted, Option.map_some])
  | step higher held last ih =>
    have above := consistent.exists_leads_iff.mp ⟨_, higher⟩
    refine .step ih (copies.held consistent consistent' above held) ?_
    rwa [copies.lastStep consistent consistent' above held]

theorem fragment (member : id ∈ tree.allNodes) :
    copy.fragment? (image id) = tree.fragment? id := by
  obtain ⟨steps, leads⟩ := consistent.exists_leads_iff.mpr member
  rw [consistent.fragment?_eq_some.mpr ⟨steps, leads, rfl⟩]
  exact consistent'.fragment?_eq_some.mpr ⟨steps, copies.leads consistent consistent' leads, rfl⟩

theorem ancestors (member : id ∈ tree.allNodes) :
    copy.ancestors (image id) = (tree.ancestors id).map image := by
  obtain ⟨steps, leads⟩ := consistent.exists_leads_iff.mpr member
  clear member
  induction leads with
  | @root top rooted =>
    have rooted' : copy.root = some (image top) := by rw [copies.root, rooted, Option.map_some]
    rw [Tree.ancestors, Tree.ancestors, ancestorsWithin_of_free _ (consistent.root rooted).2,
      ancestorsWithin_of_free _ (consistent'.root rooted').2, List.map_nil]
  | step higher held last ih =>
    have above := consistent.exists_leads_iff.mp ⟨_, higher⟩
    rw [consistent.forest.ancestors_of_container held, consistent'.forest.ancestors_of_container
      (copies.held consistent consistent' above held), ih, List.map_cons]

end Up

end Copy

theorem Consistent.mem_allNodes_of_ancestor {tree : Tree} {id above : NodeId}
    (consistent : tree.Consistent) (member : id ∈ tree.allNodes)
    (higher : above ∈ tree.ancestors id) : above ∈ tree.allNodes := by
  have lower := transGen_of_mem_ancestorsWithin higher
  clear higher
  induction lower with
  | single direct => exact (consistent.mem_allNodes_of_holds direct).mp member
  | tail _ direct ih => exact ih ((consistent.mem_allNodes_of_holds direct).mp member)

end Tree

/-! ### Names of copies -/

namespace Naming

def IgnoresPositions (naming : Naming) : Prop :=
  ∀ (tree copy : Tree) (image : NodeId → NodeId), tree.Copy copy image → tree.Consistent →
    copy.Consistent → ∀ (uri : ResourceUri), ∀ id ∈ tree.allNodes,
      naming ⟨uri, copy, image id⟩ = naming ⟨uri, tree, id⟩

variable {tree copy : Tree} {image : NodeId → NodeId} {id : NodeId}

theorem name?_of_copy (copies : tree.Copy copy image) (member : id ∈ tree.allNodes)
    (uri : ResourceUri) :
    (⟨uri, copy, image id⟩ : Site).name? = (⟨uri, tree, id⟩ : Site).name? := by
  unfold Site.name? Tree.attribute?
  dsimp only
  rw [copies.attributes id member]

theorem simple_ignoresPositions : simple.IgnoresPositions := by
  intro tree copy image copies _ _ uri id member
  unfold simple
  rw [name?_of_copy copies member]

theorem nested_ignoresPositions : nested.IgnoresPositions := by
  intro tree copy image copies consistent consistent' uri id member
  have names : ((⟨uri, copy, image id⟩ : Site).ancestors.filterMap Site.name?) =
      (⟨uri, tree, id⟩ : Site).ancestors.filterMap Site.name? := by
    unfold Site.ancestors
    dsimp only
    rw [copies.ancestors consistent consistent' member, List.filterMap_map, List.filterMap_map,
      List.filterMap_map]
    refine List.filterMap_congr fun above higher => ?_
    exact name?_of_copy copies (consistent.mem_allNodes_of_ancestor member higher) uri
  unfold nested
  rw [name?_of_copy copies member, names]

end Naming

end Crosslink
