import Crosslink.Proofs.ResourceSet.Relocating
import Crosslink.Proofs.Tree.Writing
import Crosslink.Proofs.Types.Classes
import Crosslink.Types.Language
import Mathlib

/-! How references fare when a resource is edited.

The references of all members follow the nodes that an edit moves, and are opened
again where it detaches them.
-/

set_option autoImplicit false

namespace Crosslink

structure Content.WellFormed (content : Content) : Prop where
  consistent : content.tree.Consistent
  once : content.writtenNames.keys.Nodup

namespace ResourceSet

variable {α : Type} {set : ResourceSet} {uri home : ResourceUri} {content own : Content}

def edited (content : Content) (edits : List Edit) : Content :=
  { content with tree := content.tree.run edits }

def relocation (uri : ResourceUri) (content : Content) (edits : List Edit) : Relocation :=
  .between (content.addresses uri) ((edited content edits).addresses uri)

def refreshed (uri : ResourceUri) (content : Content) (edits : List Edit) : Content :=
  (edited content edits).forgetStale ((edited content edits).addresses uri)

def relocated (relocation : Relocation) (content : Content) : Content :=
  (content.relocate? relocation).getD content

theorem content?_edit (held : set.content? uri = some content) (edits : List Edit) (answer : α)
    (home : ResourceUri) :
    (set.edit uri fun tree => (tree.run edits, answer)).1.content? home =
      if home = uri then some (relocated (relocation uri content edits) (refreshed uri content edits))
      else (set.content? home).map (relocated (relocation uri content edits)) := by
  obtain ⟨resource, found, filled⟩ := Option.bind_eq_some_iff.mp held
  have named := uri_of_get? found
  let after := resource.put (relocated (relocation uri content edits) (refreshed uri content edits))
  have changed : resource.edit (fun tree => (tree.run edits, answer)) =
      .ok (after, answer, relocation uri content edits) := by
    unfold Resource.edit
    rw [filled]
    dsimp only
    rw [named]
    rfl
  unfold edit
  rw [found]
  dsimp only
  rw [changed]
  dsimp only
  have keeps : ∀ other : Resource, other.uri = uri → after.uri = uri :=
    fun _ _ => (resource.uri_put _).trans named
  have own : (set.modify uri fun _ => after).content? uri = after.content := by
    rw [content?, get?_modify keeps, if_pos rfl, found]
    rfl
  have others : ∀ other ≠ uri, (set.modify uri fun _ => after).content? other = set.content? other := by
    intro other apart
    rw [content?, get?_modify keeps, if_neg apart, content?]
  split
  · next empty =>
    split
    · next here =>
      rw [here, own]
      rfl
    · next apart =>
      rw [others home apart]
      cases set.content? home with
      | none => rfl
      | some other => simp [relocated, Relocation.relocate?_of_isEmpty empty]
  · unfold Resource.relocate
    rw [content?_modifyOthers_update]
    split
    · next here =>
      rw [here, own]
      rfl
    · next apart =>
      rw [others home apart]
      rfl

/-- How a reference fares in an edit of the resource at `uri`, from `before` to `after`; its own
resource changes from `own` to `last`. -/
structure Followed (uri : ResourceUri) (before after own last : Content) (slot : SlotKey)
    (value : Reference) : Prop where
  /-- A bound reference to a node that is still there is bound to the new address. -/
  moved : ∀ {id old new}, before.tree.fragment? id = some old → after.tree.fragment? id = some new →
    value = .bound ⟨uri, old⟩ → (slot, .bound ⟨uri, new⟩) ∈ last.tree.referenceValues
  /-- A bound reference to a node that is gone is opened to the name that led to it, or else to
  its address, and waits. -/
  lost : ∀ {id old}, before.tree.fragment? id = some old → after.tree.fragment? id = none →
    value = .bound ⟨uri, old⟩ →
      (slot, .unresolved (own.reopened slot ⟨uri, old⟩)) ∈ last.tree.referenceValues ∧
        ⟨slot, own.reopened slot ⟨uri, old⟩⟩ ∈ last.pending
  /-- An open reference to a node that is still there has the new address. -/
  redirected : ∀ {id old new}, before.tree.fragment? id = some old →
    after.tree.fragment? id = some new → value = .unresolved (.uri ⟨uri, old⟩) →
      (slot, .unresolved (.uri ⟨uri, new⟩)) ∈ last.tree.referenceValues
  /-- What waits in its slot has the new address too, unless it had another before and the
  node has not moved. -/
  waiting : ∀ {id old new}, before.tree.fragment? id = some old →
    after.tree.fragment? id = some new → value = .unresolved (.uri ⟨uri, old⟩) →
      ((∀ proxy, ⟨slot, proxy⟩ ∈ last.pending → proxy = .uri ⟨uri, new⟩) ↔
        new ≠ old ∨ ∀ proxy, ⟨slot, proxy⟩ ∈ own.pending → proxy = .uri ⟨uri, old⟩)
  /-- Every other reference stays as it is. -/
  kept : (∀ id old, before.tree.fragment? id = some old → value ≠ .bound ⟨uri, old⟩) →
    (∀ id old new, before.tree.fragment? id = some old → after.tree.fragment? id = some new →
      value ≠ .unresolved (.uri ⟨uri, old⟩)) → (slot, value) ∈ last.tree.referenceValues

theorem distinct_addresses (wellFormed : content.WellFormed) (named : content.tree.PathNamed) :
    Relocation.Distinct (content.addresses uri) := by
  intro first second address left right
  obtain ⟨_, path, found, rfl⟩ := Content.mem_addresses.mp left
  obtain ⟨_, path', found', same⟩ := Content.mem_addresses.mp right
  cases same
  exact wellFormed.consistent.fragment?_injective named found found'

theorem mem_of_view {last : Content} {slot : SlotKey} {value value' : Reference}
    (consistent : own.tree.Consistent) (member : (slot, value) ∈ own.tree.referenceValues)
    (same : last.tree.shape = own.tree.shape) (read : (last.view slot).value = some value') :
    (slot, value') ∈ last.tree.referenceValues := by
  obtain ⟨reached, spells, _⟩ := consistent.mem_referenceValues.mp member
  refine (Tree.consistent_of_shape same consistent).mem_referenceValues.mpr ⟨?_, ?_, read⟩
  · rwa [Tree.allNodes_of_shape same]
  · rwa [Tree.spells_of_shape same]

section Relocated

variable {after fresh last : Content} {edits : List Edit} {slot : SlotKey} {value : Reference}

/-- What has to be known before a reference can follow the nodes that an edit moved. -/
structure Follows (uri : ResourceUri) (content after own fresh last : Content) (edits : List Edit)
    (slot : SlotKey) (value : Reference) : Prop where
  wellFormed : content.WellFormed
  named : content.tree.PathNamed
  /-- The edited tree, but for the values of its references. -/
  grown : after.tree.shape = (content.tree.run edits).shape
  consistent : fresh.tree.Consistent
  member : (slot, value) ∈ fresh.tree.referenceValues
  waits : (fresh.view slot).waits = (own.view slot).waits
  opens : ∀ target, value = .bound target →
    (fresh.view slot).reopened target = own.reopened slot target
  changed : relocated (relocation uri content edits) fresh = last

namespace Follows

variable (follows : Follows uri content after own fresh last edits slot value)
include follows

theorem reads : (fresh.view slot).value = some value :=
  (follows.consistent.mem_referenceValues.mp follows.member).2.2

theorem listed {value' : Reference} (read : (last.view slot).value = some value') :
    (slot, value') ∈ last.tree.referenceValues :=
  mem_of_view follows.consistent follows.member (follows.changed ▸ Content.shape_relocate _) read

theorem seen : last.view slot =
    match (relocation uri content edits).follow? value, (relocation uri content edits).lost? value with
    | some moved, _ => (fresh.view slot).redirect moved
    | none, some target => (fresh.view slot).reopen target
    | none, none => fresh.view slot := by
  rw [← follows.changed]
  exact Content.view_relocate follows.consistent (relocation uri content edits) follows.member

theorem address {id : NodeId} {old : Fragment} (found : content.tree.fragment? id = some old) :
    (id, (⟨uri, old⟩ : Uri)) ∈ content.addresses uri :=
  Content.mem_addresses.mpr
    ⟨follows.wellFormed.consistent.isSome_fragment?.mp (by rw [found]; rfl), _, found, rfl⟩

theorem lookup (id : NodeId) : ((edited content edits).addresses uri).lookup id =
    (after.tree.fragment? id).map fun path => ⟨uri, path⟩ := by
  have consistent : (edited content edits).tree.Consistent := follows.wellFormed.consistent.run edits
  rw [Content.lookup_addresses consistent, Tree.fragment?_of_shape follows.grown]
  rfl

theorem there {id : NodeId} {new : Fragment} (found : after.tree.fragment? id = some new) :
    ((edited content edits).addresses uri).lookup id = some ⟨uri, new⟩ := by
  rw [follows.lookup, found]
  rfl

theorem moved {id : NodeId} {old new : Fragment} (before : content.tree.fragment? id = some old)
    (found : after.tree.fragment? id = some new) (same : value = .bound ⟨uri, old⟩) :
    (slot, .bound ⟨uri, new⟩) ∈ last.tree.referenceValues := by
  subst same
  have distinct := @distinct_addresses uri content follows.wellFormed follows.named
  have moves : (relocation uri content edits).follow? (.bound ⟨uri, old⟩) = _ :=
    Relocation.follow?_bound distinct (follows.address before) (follows.there found)
  have kept : (relocation uri content edits).lost? (.bound ⟨uri, old⟩) = none :=
    Relocation.lost?_bound distinct (follows.address before) (follows.there found)
  apply follows.listed
  rw [follows.seen, moves, kept]
  by_cases still : (⟨uri, new⟩ : Uri) = ⟨uri, old⟩
  · rw [if_pos still, follows.reads, still]
  · rw [if_neg still]
    rfl

theorem lost {id : NodeId} {old : Fragment} (before : content.tree.fragment? id = some old)
    (missing : after.tree.fragment? id = none) (same : value = .bound ⟨uri, old⟩) :
    (slot, .unresolved (own.reopened slot ⟨uri, old⟩)) ∈ last.tree.referenceValues ∧
      ⟨slot, own.reopened slot ⟨uri, old⟩⟩ ∈ last.pending := by
  subst same
  have distinct := @distinct_addresses uri content follows.wellFormed follows.named
  have gone : ((edited content edits).addresses uri).lookup id = none := by
    rw [follows.lookup, missing]
    rfl
  have stays : (relocation uri content edits).follow? (.bound ⟨uri, old⟩) = none :=
    Relocation.follow?_bound_of_lost distinct (follows.address before) gone
  have leaves : (relocation uri content edits).lost? (.bound ⟨uri, old⟩) = some ⟨uri, old⟩ :=
    Relocation.lost?_bound_of_lost distinct (follows.address before) gone
  have seen : last.view slot = (fresh.view slot).reopen ⟨uri, old⟩ := by
    rw [follows.seen, stays, leaves]
  have opened := follows.opens _ rfl
  constructor
  · apply follows.listed
    rw [seen, ← opened]
    rfl
  · have waits : (last.view slot).waits (own.reopened slot ⟨uri, old⟩) := by
      rw [seen, ← opened]
      exact .inr rfl
    exact waits

theorem seen_uri {id : NodeId} {old new : Fragment} (before : content.tree.fragment? id = some old)
    (found : after.tree.fragment? id = some new) (same : value = .unresolved (.uri ⟨uri, old⟩)) :
    last.view slot = if new = old then fresh.view slot
      else (fresh.view slot).redirect (.unresolved (.uri ⟨uri, new⟩)) := by
  subst same
  have distinct := @distinct_addresses uri content follows.wellFormed follows.named
  have moves : (relocation uri content edits).follow? (.unresolved (.uri ⟨uri, old⟩)) = _ :=
    Relocation.follow?_uri distinct (follows.address before) (follows.there found)
  have kept : (relocation uri content edits).lost? (.unresolved (.uri ⟨uri, old⟩)) = none := rfl
  rw [follows.seen, moves, kept]
  by_cases still : new = old
  · rw [if_pos (by rw [still]), if_pos still]
  · rw [if_neg still, if_neg fun same => still (Uri.mk.inj same).2]

theorem redirected {id : NodeId} {old new : Fragment} (before : content.tree.fragment? id = some old)
    (found : after.tree.fragment? id = some new) (same : value = .unresolved (.uri ⟨uri, old⟩)) :
    (slot, .unresolved (.uri ⟨uri, new⟩)) ∈ last.tree.referenceValues := by
  apply follows.listed
  rw [follows.seen_uri before found same]
  split
  · next still => rw [follows.reads, same, still]
  · rfl

theorem waiting {id : NodeId} {old new : Fragment} (before : content.tree.fragment? id = some old)
    (found : after.tree.fragment? id = some new) (same : value = .unresolved (.uri ⟨uri, old⟩)) :
    (∀ proxy, ⟨slot, proxy⟩ ∈ last.pending → proxy = .uri ⟨uri, new⟩) ↔
      new ≠ old ∨ ∀ proxy, ⟨slot, proxy⟩ ∈ own.pending → proxy = .uri ⟨uri, old⟩ := by
  have seen := congrArg SlotView.waits (follows.seen_uri before found same)
  have entries : ∀ proxy, ⟨slot, proxy⟩ ∈ last.pending ↔ (last.view slot).waits proxy :=
    fun _ => Iff.rfl
  have entries' : ∀ proxy, ⟨slot, proxy⟩ ∈ own.pending ↔ (own.view slot).waits proxy :=
    fun _ => Iff.rfl
  simp only [entries, entries', seen]
  by_cases still : new = old
  · rw [if_pos still, follows.waits, still]
    exact ⟨.inr, fun waited => waited.resolve_left fun apart => apart rfl⟩
  · rw [if_neg still]
    exact ⟨fun _ => .inl still, fun _ proxy waits => waits.1⟩

theorem kept (elsewhere : ∀ id old, content.tree.fragment? id = some old → value ≠ .bound ⟨uri, old⟩)
    (open_elsewhere : ∀ id old new, content.tree.fragment? id = some old →
      after.tree.fragment? id = some new → value ≠ .unresolved (.uri ⟨uri, old⟩)) :
    (slot, value) ∈ last.tree.referenceValues := by
  have still := @Relocation.follow?_eq_none (content.addresses uri)
    ((edited content edits).addresses uri) value ?_ ?_
  · have stays : (relocation uri content edits).follow? value = none := still.1
    have remains : (relocation uri content edits).lost? value = none := still.2
    apply follows.listed
    rw [follows.seen, stays, remains, follows.reads]
  · intro id old listed
    obtain ⟨_, path, found, rfl⟩ := Content.mem_addresses.mp listed
    exact elsewhere id path found
  · intro id old new listed found
    obtain ⟨_, path, before, rfl⟩ := Content.mem_addresses.mp listed
    rw [follows.lookup] at found
    obtain ⟨path', left, rfl⟩ := Option.map_eq_some_iff.mp found
    exact open_elsewhere id path path' before left

theorem followed : Followed uri content after own last slot value where
  moved := follows.moved
  lost := follows.lost
  redirected := follows.redirected
  waiting := follows.waiting
  kept := follows.kept

end Follows

end Relocated

def WellFormed (set : ResourceSet) : Prop :=
  ∀ {uri content}, set.content? uri = some content → content.WellFormed

theorem isSome_lookup_addresses (wellFormed : content.WellFormed) {id : NodeId} {edits : List Edit}
    (reached : id ∈ (content.tree.run edits).allNodes) :
    (((edited content edits).addresses uri).lookup id).isSome = true := by
  have consistent : (edited content edits).tree.Consistent := wellFormed.consistent.run edits
  rw [Content.lookup_addresses consistent, Option.isSome_map]
  exact consistent.isSome_fragment?.mpr reached

section Own

variable {slot : SlotKey} {value : Reference} {target : Uri} {edits : List Edit} {last : Content}

-- The written name of a slot is forgotten only if it led elsewhere, and then the slot would not be
-- opened to it either.
theorem reopened_refreshed (wellFormed : content.WellFormed)
    (reached : slot.source ∈ (content.tree.run edits).allNodes)
    (held : (content.tree.run edits).referenceAt? slot = some (.bound target)) :
    ((refreshed uri content edits).view slot).reopened target = content.reopened slot target := by
  have once : (edited content edits).writtenNames.keys.Nodup := wellFormed.once
  have written : ((edited content edits).view slot).written = content.writtenNames.get? slot := rfl
  have value : (edited content edits).tree.referenceAt? slot = some (.bound target) := held
  unfold refreshed
  rw [Content.view_forgetStale once (isSome_lookup_addresses wellFormed reached)]
  unfold SlotView.reopened Content.reopened
  rw [written, value]
  cases content.writtenNames.get? slot with
  | none => rfl
  | some pair =>
    obtain ⟨name, led⟩ := pair
    by_cases here : led = target
    · simp [Option.filter, here]
    · simp [Option.filter, here, Ne.symm here]

theorem follows_own (wellFormed : content.WellFormed) (named : content.tree.PathNamed)
    (member : (slot, value) ∈ content.tree.referenceValues)
    (untouched : content.tree.Untouched slot edits)
    (reached : slot.source ∈ (content.tree.run edits).allNodes)
    (changed : relocated (relocation uri content edits) (refreshed uri content edits) = last) :
    Follows uri content last content (refreshed uri content edits) last edits slot value := by
  obtain ⟨_, spells, held⟩ := wellFormed.consistent.mem_referenceValues.mp member
  have consistent := wellFormed.consistent.run edits
  have kept := Tree.referenceAt?_run wellFormed.consistent edits untouched held
  have once : (edited content edits).writtenNames.keys.Nodup := wellFormed.once
  refine ⟨wellFormed, named, ?_, consistent, ?_, ?_, ?_, changed⟩
  · rw [← changed]
    exact Content.shape_relocate _
  · exact consistent.mem_referenceValues.mpr ⟨reached, Tree.spells_run spells edits, kept⟩
  · unfold refreshed
    rw [Content.view_forgetStale once (isSome_lookup_addresses wellFormed reached)]
    rfl
  · rintro target rfl
    exact reopened_refreshed wellFormed reached kept

end Own

/-- Every edit of a loaded resource leaves the references of all members on their targets: those
of other members all, and its own as far as they are still reached and not written to. -/
theorem edit_follows {slot : SlotKey} {value : Reference} (wellFormed : set.WellFormed)
    (held : set.content? uri = some content) (named : content.tree.PathNamed) (edits : List Edit)
    (answer : α) (source : set.content? home = some own)
    (member : (slot, value) ∈ own.tree.referenceValues)
    (untouched : home = uri → own.tree.Untouched slot edits) :
    ∃ after last,
      (set.edit uri fun tree => (tree.run edits, answer)).1.content? uri = some after ∧
      (set.edit uri fun tree => (tree.run edits, answer)).1.content? home = some last ∧
      (slot.source ∈ last.tree.allNodes → Followed uri content after own last slot value) := by
  have after := content?_edit held edits answer uri
  have last := content?_edit held edits answer home
  have grown : (relocated (relocation uri content edits) (refreshed uri content edits)).tree.shape =
      (content.tree.run edits).shape := Content.shape_relocate _
  rw [if_pos rfl] at after
  -- the edited resource has forgotten what is stale before its references follow, the others not
  by_cases here : home = uri
  · subst here
    cases held.symm.trans source
    rw [if_pos rfl] at last
    refine ⟨_, _, after, last, fun reached => ?_⟩
    rw [Tree.allNodes_of_shape grown] at reached
    exact (follows_own (wellFormed held) named member (untouched rfl) reached rfl).followed
  · rw [if_neg here, source] at last
    refine ⟨_, _, after, last, fun _ => ?_⟩
    have follows : Follows uri content
        (relocated (relocation uri content edits) (refreshed uri content edits)) own own
        (relocated (relocation uri content edits) own) edits slot value :=
      { wellFormed := wellFormed held
        named
        grown
        consistent := (wellFormed source).consistent
        member
        waits := rfl
        opens := fun target _ => (Content.reopened_view target).symm
        changed := rfl }
    exact follows.followed

/-! ### A row of types -/

def rowUri : ResourceUri := ⟨"row.types"⟩

def rowAddress (index : Nat) : Uri := ⟨rowUri, .ofSteps [⟨"elements", some index⟩]⟩

def rowEdits : List Edit :=
  [.create Types.modelClass, .create Types.typeClass, .create Types.typeClass,
    .create Types.typeClass, .setRoot 0, .attach 0 "elements" none 1, .attach 0 "elements" none 2,
    .attach 0 "elements" none 3, .setReference 3 "extends" (.bound (rowAddress 1))]

def rowContent : Content := { tree := Tree.empty.run rowEdits }

def row : ResourceSet :=
  { resources := [{ uri := rowUri, content := some rowContent, stamp := ⟨0, 0⟩ }] }

theorem row_wellFormed : row.WellFormed := by
  intro uri content held
  by_cases here : rowUri = uri
  · subst here
    have same : row.content? rowUri = some rowContent := by
      simp [row, content?, get?]
    cases same.symm.trans held
    exact ⟨Tree.consistent_empty.run rowEdits, List.nodup_nil⟩
  · have missing : row.content? uri = none := by simp [row, content?, get?, here]
    rw [missing] at held
    cases held

theorem row_named : rowContent.tree.PathNamed := by
  have classifiers : rowContent.tree.nodes.toList.map (·.classifier) =
      [Types.modelClass, Types.typeClass, Types.typeClass, Types.typeClass] := by cbv
  apply Types.Typed.pathNamed
  apply Types.typed_of_classifiers
  rw [classifiers]
  simp [Types.classes]

/-- When the first type is detached, the last one still extends what is the first one then. -/
theorem row_follows : ∃ last,
    (row.edit rowUri fun tree => (tree.run [.detach 1], ())).1.content? rowUri = some last ∧
      (⟨3, 1, none⟩, .bound (rowAddress 0)) ∈ last.tree.referenceValues := by
  have held : row.content? rowUri = some rowContent := by simp [row, content?, get?]
  have values : rowContent.tree.referenceValues = [(⟨3, 1, none⟩, .bound (rowAddress 1))] := by cbv
  have untouched : rowContent.tree.Untouched ⟨3, 1, none⟩ [.detach 1] :=
    ⟨fun writes => writes.2, trivial⟩
  obtain ⟨after, last, edited, edited', follows⟩ := edit_follows row_wellFormed held row_named
    [.detach 1] () held (values ▸ List.mem_singleton_self _) fun _ => untouched
  cases edited.symm.trans edited'
  have seen : ((row.edit rowUri fun tree => (tree.run [.detach 1], ())).1.content? rowUri).map
      (fun content => (content.tree.allNodes, content.tree.fragment? 2)) =
      some ([0, 2, 3], some (rowAddress 0).fragment) := by cbv
  have before : rowContent.tree.fragment? 2 = some (rowAddress 1).fragment := by cbv
  rw [edited, Option.map_some, Option.some.injEq] at seen
  obtain ⟨nodes, address⟩ := Prod.mk.inj seen
  exact ⟨after, edited, (follows (by simp [nodes])).moved before address rfl⟩

/-! ### A name that waits behind an address -/

def readdressed : ResourceSet :=
  ((({ languages := ({} : Languages).register Types.language } : ResourceSet).load rowUri
    "type A extends B type C").1.edit rowUri fun tree =>
      (tree.run [.setReference 1 "extends" (.unresolved (.uri (rowAddress 1)))], ())).1

/-- The name still waits for the slot after an edit that changes nothing, though the slot reads
the address of a node that is still there. -/
theorem readdressed_waits :
    ((readdressed.edit rowUri fun tree => (tree.run [], ())).1.content? rowUri).map (fun content =>
      (content.tree.referenceValues, content.tree.fragment? 2, content.pending)) =
    some ([(⟨1, 1, none⟩, .unresolved (.uri (rowAddress 1)))], some (rowAddress 1).fragment,
      [⟨⟨1, 1, none⟩, .name ⟨["B"]⟩⟩]) := by
  cbv

end ResourceSet

end Crosslink
