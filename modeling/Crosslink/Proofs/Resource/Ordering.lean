import Crosslink.Proofs.Resource.Views
import Crosslink.Proofs.ResourceSet.Members

/-! The order in which references wait.

A resource sorts what waits whenever it opens a reference again, and else leaves
it as it is listed. An edit that opens no reference may still move nodes, and
then the list keeps the order that the document had before.
-/

set_option autoImplicit false

namespace Crosslink

theorem notAfter_iff_of_place {first second : Nat × Nat × Nat} :
    Pending.notAfter first second = true ↔ first.1 < second.1 ∨
      first.1 = second.1 ∧ Pending.notAfter (0, first.2) (0, second.2) = true := by
  rw [notAfter_iff, notAfter_iff]
  dsimp only [Precedes]
  omega

namespace Content

variable {content next : Content} {uri : ResourceUri} {change : Tree → Tree}

def Ordered (content : Content) : Prop :=
  content.pending.Pairwise fun first second => Pending.notAfter
    (first.rank content.tree.allNodes) (second.rank content.tree.allNodes) = true

-- The place of what waits does not depend on what it waits for.
theorem ordered_congr (slots : next.pending.map (·.slot) = content.pending.map (·.slot))
    (nodes : next.tree.allNodes = content.tree.allNodes) : next.Ordered ↔ content.Ordered := by
  have by_slots : ∀ other : Content, other.Ordered ↔
      (other.pending.map (·.slot)).Pairwise fun first second =>
        Pending.notAfter (Pending.rank other.tree.allNodes ⟨first, .name ⟨[]⟩⟩)
          (Pending.rank other.tree.allNodes ⟨second, .name ⟨[]⟩⟩) = true := by
    intro other
    rw [List.pairwise_map]
    rfl
  rw [by_slots, by_slots, slots, nodes]

theorem ordered_ofParsed (parsed : Parsed) (lines : Option LineIndex) :
    (ofParsed parsed lines).Ordered :=
  Tree.pairwise_inDocumentOrder parsed.pending

theorem ordered_reopenAll_cons (slot : SlotKey × Uri) (slots : List (SlotKey × Uri)) :
    (content.reopenAll (slot :: slots)).Ordered :=
  Tree.pairwise_inDocumentOrder _

theorem Ordered.reopenAll (ordered : content.Ordered) (slots : List (SlotKey × Uri)) :
    (content.reopenAll slots).Ordered := by
  cases slots with
  | nil => exact ordered
  | cons slot rest => exact ordered_reopenAll_cons slot rest

theorem Ordered.demote (ordered : content.Ordered) (resource : ResourceUri) :
    ((content.demote? resource).getD content).Ordered := by
  rw [demote?_eq]
  exact ordered.reopenAll _

theorem slots_foldl_redirect (entries : List (SlotKey × Reference)) :
    (entries.foldl redirecting.change content).pending.map (·.slot) =
      content.pending.map (·.slot) := by
  have once : ∀ (content : Content) (entry : SlotKey × Reference),
      (redirecting.change content entry).pending.map (·.slot) = content.pending.map (·.slot) := by
    rintro content ⟨slot, value⟩
    unfold redirecting redirect
    cases value with
    | bound target => rfl
    | unresolved proxy =>
      dsimp only
      rw [List.map_map]
      refine List.map_congr_left fun pending _ => ?_
      dsimp only [Function.comp_apply]
      split <;> rfl
  induction entries generalizing content with
  | nil => rfl
  | cons entry rest ih => exact ih.trans (once content entry)

theorem ordered_redirected_iff (entries : List (SlotKey × Reference)) :
    (entries.foldl redirecting.change content).Ordered ↔ content.Ordered :=
  ordered_congr (slots_foldl_redirect entries)
    (Tree.allNodes_of_shape (redirecting.shape_foldl entries content))

theorem Ordered.relocate (ordered : content.Ordered) (relocation : Relocation) :
    ((content.relocate? relocation).getD content).Ordered := by
  rw [relocate?_eq]
  exact ((ordered_redirected_iff _).mpr ordered).reopenAll _

theorem Ordered.bind (ordered : content.Ordered) {pending : Pending} {target : Uri}
    {warning : Option Diagnostic} (done : content.bind? pending target warning = some next) :
    next.Ordered := by
  obtain ⟨_, tree, waits, _⟩ := bind?_eq_some done
  unfold Ordered
  rw [tree, waits, Tree.allNodes_of_shape Tree.shape_replaceReference]
  exact ordered.filter _

theorem Ordered.imported (ordered : content.Ordered) {name : QualifiedName}
    (done : content.importName? name = some next) : next.Ordered := by
  rw [importName?_eq_some done]
  exact ordered

/-! ### Edits -/

def changed (content : Content) (change : Tree → Tree) : Content :=
  { content with tree := change content.tree }

def displaced (content : Content) (uri : ResourceUri) (change : Tree → Tree) : Relocation :=
  .between (content.addresses uri) ((content.changed change).addresses uri)

def cleared (content : Content) (uri : ResourceUri) (change : Tree → Tree) : Content :=
  (content.changed change).forgetStale ((content.changed change).addresses uri)

/-- The change detaches a node that a reference of the changed tree is bound to. -/
def Loses (content : Content) (uri : ResourceUri) (change : Tree → Tree) : Prop :=
  ∃ slot target, (slot, .bound target) ∈ (change content.tree).referenceValues ∧
    target ∈ (content.displaced uri change).detached

/-- The nodes of what waits that the change leaves in the tree are still in the order in which
they are listed. -/
def KeepsOrder (content : Content) (uri : ResourceUri) (change : Tree → Tree) : Prop :=
  (content.cleared uri change).pending.Pairwise fun first second =>
    (change content.tree).allNodes.idxOf first.source ≤
      (change content.tree).allNodes.idxOf second.source

theorem picked_lost_eq_nil_iff : picked (content.cleared uri change).tree
    (content.displaced uri change).lost? = [] ↔ ¬ content.Loses uri change := by
  rw [List.eq_nil_iff_forall_not_mem]
  constructor
  · rintro none ⟨slot, target, member, gone⟩
    exact none (slot, target) (mem_picked.mpr ⟨_, member, if_pos gone⟩)
  · rintro kept ⟨slot, target⟩ listed
    obtain ⟨value, member, lost⟩ := mem_picked.mp listed
    cases value with
    | unresolved proxy => cases lost
    | bound led =>
      obtain ⟨gone, same⟩ := Option.ite_none_right_eq_some.mp lost
      cases same
      exact kept ⟨slot, target, member, gone⟩

theorem mem_allNodes_of_cleared {pending : Pending}
    (waits : pending ∈ (content.cleared uri change).pending) :
    pending.source ∈ (change content.tree).allNodes := by
  have reached : (((content.changed change).addresses uri).lookup pending.source).isSome = true :=
    (List.mem_filter.mp waits).2
  obtain ⟨address, found⟩ := Option.isSome_iff_exists.mp reached
  have listed := @OrderedMap.mem_of_get? _ _ _ ⟨_⟩ _ _ found
  obtain ⟨id, member, here⟩ := List.mem_filterMap.mp listed
  obtain ⟨_, _, same⟩ := Option.map_eq_some_iff.mp here
  cases same
  exact member

-- Two entries of one node are listed by feature and index, which no change of the tree touches; of
-- two nodes only the places count.
theorem ordered_cleared_iff (ordered : content.Ordered) :
    (content.cleared uri change).Ordered ↔ content.KeepsOrder uri change := by
  constructor
  · intro sorted
    refine sorted.imp fun before => ?_
    rcases notAfter_iff_of_place.mp before with lower | ⟨same, _⟩
    · exact lower.le
    · exact same.le
  · intro keeps
    have listed : (content.cleared uri change).pending.Pairwise fun first second =>
        Pending.notAfter (first.rank content.tree.allNodes) (second.rank content.tree.allNodes) = true :=
      ordered.filter _
    refine (keeps.and listed).imp_of_mem ?_
    rintro first second left right ⟨place, before⟩
    rw [notAfter_iff_of_place] at before ⊢
    rcases place.lt_or_eq with lower | equal
    · exact .inl lower
    · have same : first.source = second.source :=
        (List.idxOf_inj (mem_allNodes_of_cleared left)).mp equal
      have level : (first.rank content.tree.allNodes).1 = (second.rank content.tree.allNodes).1 :=
        congrArg content.tree.allNodes.idxOf same
      exact .inr ⟨equal, (before.resolve_left level.not_lt).2⟩

/-- What a change of the tree leaves of an ordered content is ordered exactly if the change opens a
reference or keeps the nodes of what waits in their order. -/
theorem ordered_edited_iff (ordered : content.Ordered) :
    (((content.cleared uri change).relocate? (content.displaced uri change)).getD
      (content.cleared uri change)).Ordered ↔
        content.Loses uri change ∨ content.KeepsOrder uri change := by
  rw [relocate?_eq]
  cases lost : picked (content.cleared uri change).tree (content.displaced uri change).lost? with
  | nil =>
    rw [or_iff_right (picked_lost_eq_nil_iff.mp lost), ← ordered_cleared_iff ordered]
    exact ordered_redirected_iff _
  | cons slot rest =>
    have loses : content.Loses uri change := by
      by_contra kept
      rw [picked_lost_eq_nil_iff.mpr kept] at lost
      cases lost
    exact iff_of_true (ordered_reopenAll_cons slot rest) (.inl loses)

end Content

/-! ### Resources -/

namespace Resource

variable {resource : Resource}

def Ordered (resource : Resource) : Prop :=
  ∀ content, resource.content = some content → content.Ordered

inductive Action where
  | load (text : String)
  | install (parsed : Parsed) (lines : Option LineIndex)
  | unload
  | edit (change : Tree → Tree)

def act (resource : Resource) : Action → Resource
  | .load text => ((resource.load text).toOption.map (·.1)).getD resource
  | .install parsed lines => (resource.install parsed lines).1
  | .unload => resource.unload
  | .edit change =>
    ((resource.edit fun tree => (change tree, ())).toOption.map (·.1)).getD resource

/-- Reading and unloading are orderly. An edit is if it opens a reference of the resource, or
keeps the nodes of what waits in their order. -/
def Orderly (resource : Resource) : Action → Prop
  | .edit change => ∀ content, resource.content = some content →
      content.Loses resource.uri change ∨ content.KeepsOrder resource.uri change
  | _ => True

theorem uri_act (action : Action) : (resource.act action).uri = resource.uri := by
  cases action with
  | load text =>
    unfold act load
    cases resource.language <;> rfl
  | install parsed lines => rfl
  | unload => exact resource.uri_unload
  | edit change =>
    unfold act edit
    cases resource.content <;> rfl

theorem ordered_put_iff {content : Content} : (resource.put content).Ordered ↔ content.Ordered := by
  simp [Ordered, content_put]

theorem Ordered.update (ordered : resource.Ordered) {change? : Content → Option Content}
    (keeps : ∀ content after, content.Ordered → change? content = some after → after.Ordered) :
    (resource.update change?).Ordered := by
  unfold Resource.update
  split
  · next after done =>
    obtain ⟨content, held, changed⟩ := Option.bind_eq_some_iff.mp done
    exact ordered_put_iff.mpr (keeps content after (ordered content held) changed)
  · exact ordered

theorem Ordered.demote (ordered : resource.Ordered) (uri : ResourceUri) :
    (resource.demote uri).Ordered := by
  refine ordered.update fun content after kept done => ?_
  have opened := kept.demote uri
  rwa [done] at opened

theorem Ordered.relocate (ordered : resource.Ordered) (relocation : Relocation) :
    (resource.relocate relocation).Ordered := by
  refine ordered.update fun content after kept done => ?_
  have followed := kept.relocate relocation
  rwa [done] at followed

theorem ordered_of_closed (closed : resource.content = none) : resource.Ordered := by
  intro content held
  rw [closed] at held
  cases held

theorem ordered_unload : resource.unload.Ordered := ordered_of_closed resource.content_unload

theorem ordered_load {text : String} {loaded : Resource} {report : LoadReport}
    (done : resource.load text = .ok (loaded, report)) : loaded.Ordered := by
  obtain ⟨language, _, rfl⟩ := load_ok done
  exact ordered_put_iff.mpr (Content.ordered_ofParsed _ _)

/-- An action leaves an ordered resource ordered exactly if it is orderly. -/
theorem ordered_act_iff (ordered : resource.Ordered) (action : Action) :
    (resource.act action).Ordered ↔ resource.Orderly action := by
  cases action with
  | load text =>
    refine iff_of_true ?_ trivial
    cases done : resource.load text with
    | error fault => simpa [act, done, Except.toOption] using ordered
    | ok loaded => simpa [act, done, Except.toOption] using ordered_load done
  | install parsed lines =>
    exact iff_of_true (ordered_put_iff.mpr (Content.ordered_ofParsed parsed lines)) trivial
  | unload => exact iff_of_true ordered_unload trivial
  | edit change =>
    unfold act edit Orderly
    cases held : resource.content with
    | none => simpa [Except.toOption] using ordered
    | some content =>
      simp only [Option.some.injEq, forall_eq']
      exact ordered_put_iff.trans (Content.ordered_edited_iff (ordered content held))

end Resource

end Crosslink
