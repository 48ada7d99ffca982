import Crosslink.Proofs.Linking.Reachable
import Crosslink.Proofs.Linking.Settling
import Crosslink.Proofs.Resource.Ordering
import Crosslink.Proofs.Resource.Soundness

/-! Diagnostics and the slots that they are about.

A diagnostic is filed under a slot, but it names its node and the target of its
slot by their addresses. It is written for what the resource holds at the time.
What is written for a slot that waits will be written again, and what is written
for another slot stays as it is, also where an edit moves the node or the target.
-/

set_option autoImplicit false

namespace Crosslink

open Linking ResourceSet

namespace Content

variable {content next : Content} {uri home : ResourceUri} {slot : SlotKey} {target : Uri}
  {diagnostic : Diagnostic} {pending : Pending}

/-- The diagnostic points at the node that holds the slot, and a warning that there were several
candidates names the one that the slot is bound to. -/
structure Current (content : Content) (uri : ResourceUri) (slot : SlotKey)
    (diagnostic : Diagnostic) : Prop where
  source : ∃ path, content.tree.fragment? slot.source = some path ∧
    diagnostic.source = some ⟨uri, path⟩
  names : diagnostic.code = some Diagnostic.ambiguousCode → ∃ feature name target count,
    content.tree.feature? slot.source slot.feature = some feature ∧
    content.tree.referenceAt? slot = some (.bound target) ∧
    content.writtenNames.get? slot = some (name, target) ∧
    diagnostic.message = (ambiguityWarning ⟨uri, content.tree, slot.source⟩ feature (.name name)
      count target).message

def Awaits (content : Content) (slot : SlotKey) : Prop := ∃ proxy, ⟨slot, proxy⟩ ∈ content.pending

def Rests (content : Content) (slot : SlotKey) : Prop :=
  (∃ diagnostic, (slot, diagnostic) ∈ content.linkDiagnostics.entries) ∧ ¬ content.Awaits slot

def Lasting (uri : ResourceUri) (content : Content) : Prop :=
  ∀ slot diagnostic, (slot, diagnostic) ∈ content.linkDiagnostics.entries →
    ¬ content.Awaits slot → content.Current uri slot diagnostic

structure Anchored (content : Content) : Prop extends content.WellFormed where
  waits : ∀ {pending}, pending ∈ content.pending → content.tree.Lists pending.slot
  notes : ∀ {slot diagnostic}, (slot, diagnostic) ∈ content.linkDiagnostics.entries →
    content.tree.Lists slot

theorem lasting_of_clean (clean : content.linkDiagnostics = {}) : content.Lasting uri := by
  intro slot diagnostic noted
  rw [clean] at noted
  cases noted

theorem awaits_of_mem (waits : pending ∈ content.pending) : content.Awaits pending.slot :=
  ⟨pending.proxy, waits⟩

/-- A diagnostic stays current where its node stays, and what is known of its slot. -/
theorem Current.carried (current : content.Current uri slot diagnostic)
    (path : next.tree.fragment? slot.source = content.tree.fragment? slot.source)
    (feature : next.tree.feature? slot.source slot.feature =
      content.tree.feature? slot.source slot.feature)
    (bound : ∀ {name target}, content.tree.referenceAt? slot = some (.bound target) →
      content.writtenNames.get? slot = some (name, target) →
      next.tree.referenceAt? slot = some (.bound target) ∧
        next.writtenNames.get? slot = some (name, target)) :
    next.Current uri slot diagnostic where
  source := by
    rw [path]
    exact current.source
  names warns := by
    obtain ⟨declared, name, target, count, found, read, written, worded⟩ := current.names warns
    obtain ⟨read', written'⟩ := bound read written
    exact ⟨declared, name, target, count, feature.trans found, read', written', worded⟩

theorem Current.of_view (current : content.Current uri slot diagnostic)
    (shape : next.tree.shape = content.tree.shape) (same : next.view slot = content.view slot) :
    next.Current uri slot diagnostic := by
  refine current.carried (Tree.fragment?_of_shape shape _) (Tree.feature?_of_shape shape _ _) ?_
  intro name target read written
  exact ⟨(congrArg SlotView.value same).trans read, (congrArg SlotView.written same).trans written⟩

theorem listed_picked {α : Type} {pick : Reference → Option α} {entry : SlotKey × α}
    (member : entry ∈ picked content.tree pick) : content.tree.Lists entry.1 := by
  obtain ⟨value, listed, _⟩ := mem_picked.mp member
  exact ⟨value, listed⟩

theorem notes_foldl_redirect (entries : List (SlotKey × Reference)) :
    (entries.foldl redirecting.change content).linkDiagnostics = content.linkDiagnostics := by
  refine redirecting.keeps_foldl linkDiagnostics (fun content entry => ?_) entries content
  obtain ⟨slot, value⟩ := entry
  cases value <;> rfl

theorem notes_reopenAll {slots : List (SlotKey × Uri)}
    (noted : (slot, diagnostic) ∈ (content.reopenAll slots).linkDiagnostics.entries) :
    (slot, diagnostic) ∈ content.linkDiagnostics.entries := by
  have wrong : ((content.reopenAll slots).view slot).wrong diagnostic := noted
  rw [view_reopenAll] at wrong
  exact notes_foldl_reopen wrong

theorem notes_relocate {relocation : Relocation}
    (noted : (slot, diagnostic) ∈
      ((content.relocate? relocation).getD content).linkDiagnostics.entries) :
    (slot, diagnostic) ∈ content.linkDiagnostics.entries := by
  rw [relocate?_eq] at noted
  have earlier := notes_reopenAll noted
  rwa [notes_foldl_redirect] at earlier

/-! ### What waits and what is noted stays in the document -/

theorem awaits_of_view (same : next.view slot = content.view slot) :
    next.Awaits slot ↔ content.Awaits slot := by
  have waits := congrArg SlotView.waits same
  exact exists_congr fun proxy => iff_of_eq (congrFun waits proxy)

/-- What is noted of a slot that is left alone is as current as it was. -/
theorem Lasting.of_view (lasting : content.Lasting uri) (shape : next.tree.shape = content.tree.shape)
    (same : next.view slot = content.view slot) (idle : ¬ next.Awaits slot)
    (noted : (slot, diagnostic) ∈ content.linkDiagnostics.entries) :
    next.Current uri slot diagnostic :=
  (lasting slot diagnostic noted (mt (awaits_of_view same).mpr idle)).of_view shape same

namespace Anchored

variable (anchored : content.Anchored)
include anchored

theorem mem_notes (noted : (slot, diagnostic) ∈ content.linkDiagnostics.entries) :
    ∃ value, (slot, value) ∈ content.tree.referenceValues ∧
      content.tree.referenceAt? slot = some value := by
  obtain ⟨value, member⟩ := anchored.notes noted
  exact ⟨value, member, (anchored.consistent.mem_referenceValues.mp member).2.2⟩

/-- A change that keeps the shape and adds nothing elsewhere. -/
theorem reshaped (wellFormed : next.WellFormed) (shape : next.tree.shape = content.tree.shape)
    (waits : ∀ pending ∈ next.pending, content.tree.Lists pending.slot)
    (notes : ∀ slot diagnostic, (slot, diagnostic) ∈ next.linkDiagnostics.entries →
      content.tree.Lists slot) : next.Anchored where
  toWellFormed := wellFormed
  waits {pending} member := (Tree.lists_of_shape shape anchored.consistent).mpr (waits pending member)
  notes {slot diagnostic} noted :=
    (Tree.lists_of_shape shape anchored.consistent).mpr (notes slot diagnostic noted)

theorem reopenAll {slots : List (SlotKey × Uri)}
    (listed : ∀ entry ∈ slots, content.tree.Lists entry.1) : (content.reopenAll slots).Anchored := by
  refine anchored.reshaped (anchored.toWellFormed.reopenAll slots) (shape_reopenAll slots) ?waits ?notes
  case waits =>
    intro pending waits
    have awaits : (content.reopenAll slots).view pending.slot |>.waits pending.proxy := waits
    rw [view_reopenAll] at awaits
    have among : pending.slot ∈ (slots.foldl reopening.change content).pending.map (·.slot) :=
      List.mem_map_of_mem awaits
    rw [slots_foldl_reopen, List.mem_append] at among
    rcases among with earlier | opened
    · obtain ⟨other, waiting, same⟩ := List.mem_map.mp earlier
      exact same ▸ anchored.waits waiting
    · obtain ⟨other, member, same⟩ := List.mem_map.mp opened
      exact same ▸ listed other member
  case notes => exact fun slot diagnostic noted => anchored.notes (notes_reopenAll noted)

theorem demoted (resource : ResourceUri) : ((content.demote? resource).getD content).Anchored := by
  rw [demote?_eq]
  exact anchored.reopenAll fun _ member => listed_picked member

theorem relocated (relocation : Relocation) :
    ((content.relocate? relocation).getD content).Anchored := by
  rw [relocate?_eq]
  generalize moves : picked content.tree relocation.follow? = entries
  have shape := redirecting.shape_foldl entries content
  have moved : (entries.foldl redirecting.change content).Anchored := by
    refine anchored.reshaped ?_ shape ?_ ?_
    · exact WellFormed.foldl (fun _ entry kept => kept.redirect entry.1 entry.2) entries
        anchored.toWellFormed
    · intro pending waits
      have among := List.mem_map_of_mem (f := Pending.slot) waits
      rw [slots_foldl_redirect] at among
      obtain ⟨other, waiting, same⟩ := List.mem_map.mp among
      exact same ▸ anchored.waits waiting
    · intro slot diagnostic noted
      rw [notes_foldl_redirect] at noted
      exact anchored.notes noted
  exact moved.reopenAll fun _ member =>
    (Tree.lists_of_shape shape anchored.consistent).mpr (listed_picked member)

theorem lists_refreshed {edits : List Edit} (listed : content.tree.Lists slot)
    (reached : slot.source ∈ (content.tree.run edits).allNodes) :
    (content.tree.run edits).Lists slot := by
  obtain ⟨_, spells, present⟩ := (Tree.lists_iff anchored.consistent).mp listed
  exact (Tree.lists_iff (anchored.consistent.run edits)).mpr ⟨reached, Tree.spells_run spells edits,
    Tree.isSome_referenceAt?_run anchored.consistent edits present⟩

theorem reached_refreshed {edits : List Edit} {id : NodeId}
    (there : (((edited content edits).addresses uri).lookup id).isSome = true) :
    id ∈ (content.tree.run edits).allNodes := by
  have consistent : (edited content edits).tree.Consistent := anchored.consistent.run edits
  rw [lookup_addresses consistent, Option.isSome_map] at there
  exact consistent.isSome_fragment?.mp there

theorem refreshed (uri : ResourceUri) (edits : List Edit) :
    (ResourceSet.refreshed uri content edits).Anchored where
  consistent := anchored.consistent.run edits
  once := OrderedMap.nodup_keys_filter _ anchored.once
  waits {pending} member := by
    obtain ⟨waits, there⟩ := List.mem_filter.mp member
    exact anchored.lists_refreshed (anchored.waits waits) (anchored.reached_refreshed there)
  notes {slot diagnostic} noted := by
    obtain ⟨noted, there⟩ := List.mem_filter.mp noted
    exact anchored.lists_refreshed (anchored.notes noted) (anchored.reached_refreshed there)

end Anchored

/-! ### What is noted where nothing waits -/

theorem Lasting.demoted (lasting : content.Lasting uri) (anchored : content.Anchored)
    (resource : ResourceUri) : ((content.demote? resource).getD content).Lasting uri := by
  intro slot diagnostic noted idle
  have earlier : (slot, diagnostic) ∈ content.linkDiagnostics.entries := by
    rw [demote?_eq] at noted
    exact notes_reopenAll noted
  obtain ⟨value, member, _⟩ := anchored.mem_notes earlier
  have seen := view_demote anchored.consistent resource member
  cases opens : boundIn? resource value with
  | some target =>
    -- what is opened loses its diagnostic
    rw [opens] at seen
    have wrong : (((content.demote? resource).getD content).view slot).wrong diagnostic := noted
    rw [seen] at wrong
    exact wrong.elim
  | none =>
    rw [opens] at seen
    exact lasting.of_view (shape_demote resource) seen idle earlier

/-- References that rest do not follow. -/
def Stays (content : Content) (relocation : Relocation) : Prop :=
  ∀ {slot target}, content.Rests slot → content.tree.referenceAt? slot = some (.bound target) →
    relocation.follow? (.bound target) = none

theorem Lasting.relocated (lasting : content.Lasting uri) (anchored : content.Anchored)
    {relocation : Relocation} (stays : content.Stays relocation) :
    ((content.relocate? relocation).getD content).Lasting uri := by
  intro slot diagnostic noted idle
  have earlier := notes_relocate noted
  obtain ⟨value, member, held⟩ := anchored.mem_notes earlier
  have seen := view_relocate anchored.consistent relocation member
  have shape := @shape_relocate content relocation
  generalize (content.relocate? relocation).getD content = next at noted idle seen shape
  have entries : ∀ proxy, (next.view slot).waits proxy ↔ ⟨slot, proxy⟩ ∈ next.pending :=
    fun _ => Iff.rfl
  cases follows : relocation.follow? value with
  | some moved =>
    rw [follows] at seen
    dsimp only at seen
    have waited : ¬ content.Awaits slot := by
      rintro ⟨proxy, waits⟩
      cases moved with
      | bound target =>
        refine idle ⟨proxy, (entries proxy).mp ?_⟩
        rw [seen]
        exact waits
      | unresolved proxy' =>
        refine idle ⟨proxy', (entries proxy').mp ?_⟩
        rw [seen]
        exact ⟨rfl, proxy, waits⟩
    refine (lasting slot diagnostic earlier waited).carried (Tree.fragment?_of_shape shape _)
      (Tree.feature?_of_shape shape _ _) fun {name target} read _ => ?_
    have still := stays ⟨⟨diagnostic, earlier⟩, waited⟩ read
    cases held.symm.trans read
    rw [still] at follows
    cases follows
  | none =>
    rw [follows] at seen
    cases loses : relocation.lost? value with
    | some target =>
      rw [loses] at seen
      have wrong : (next.view slot).wrong diagnostic := noted
      rw [seen] at wrong
      exact wrong.elim
    | none =>
      rw [loses] at seen
      exact lasting.of_view shape seen idle earlier

/-- A change of the tree at `uri` leaves what rests at `home`: neither a node that holds such a
slot nor one that it is bound to gets another address, and its value is not replaced. -/
structure Undisturbed (own : Content) (home uri : ResourceUri) (before after : Tree) : Prop where
  target : ∀ {slot id old new}, own.Rests slot →
    own.tree.referenceAt? slot = some (.bound ⟨uri, old⟩) → before.fragment? id = some old →
      after.fragment? id = some new → new = old
  holder : home = uri → ∀ {slot path}, own.Rests slot → after.fragment? slot.source = some path →
    before.fragment? slot.source = some path ∧ after.referenceAt? slot = before.referenceAt? slot

/-! ### Edits -/

section Edited

variable {own : Content} {edits : List Edit}

theorem Undisturbed.stays
    (undisturbed : own.Undisturbed home uri content.tree (content.tree.run edits))
    (wellFormed : content.WellFormed) : own.Stays (relocation uri content edits) := by
  intro slot target rests bound
  have unmoved : (relocation uri content edits).moved.lookup target = none := by
    apply Relocation.lookup_moved_eq_none
    intro id new listed found
    obtain ⟨_, old, before, rfl⟩ := mem_addresses.mp listed
    have consistent : (edited content edits).tree.Consistent := wellFormed.consistent.run edits
    rw [lookup_addresses consistent] at found
    obtain ⟨path, after, rfl⟩ := Option.map_eq_some_iff.mp found
    rw [undisturbed.target rests bound before after]
  simp [Relocation.follow?, unmoved]

theorem awaits_refreshed (there : slot.source ∈ (content.tree.run edits).allNodes)
    (wellFormed : content.WellFormed) :
    (ResourceSet.refreshed uri content edits).Awaits slot ↔ content.Awaits slot := by
  have reached := @isSome_lookup_addresses uri content wellFormed slot.source edits there
  have kept : ∀ proxy, ⟨slot, proxy⟩ ∈ (ResourceSet.refreshed uri content edits).pending ↔
      ⟨slot, proxy⟩ ∈ content.pending :=
    fun proxy => List.mem_filter.trans (and_iff_left reached)
  simp only [Awaits, kept]

/-- What rests after the edit has rested before it. -/
theorem rests_of_refreshed (anchored : content.Anchored)
    (rests : (ResourceSet.refreshed uri content edits).Rests slot) :
    content.Rests slot ∧ slot.source ∈ (content.tree.run edits).allNodes := by
  obtain ⟨⟨diagnostic, noted⟩, idle⟩ := rests
  obtain ⟨noted, there⟩ := List.mem_filter.mp noted
  have reached := anchored.reached_refreshed there
  rw [awaits_refreshed reached anchored.toWellFormed] at idle
  exact ⟨⟨⟨diagnostic, noted⟩, idle⟩, reached⟩

theorem Lasting.refreshed (lasting : content.Lasting uri) (anchored : content.Anchored)
    (undisturbed : content.Undisturbed uri uri content.tree (content.tree.run edits)) :
    (ResourceSet.refreshed uri content edits).Lasting uri := by
  intro slot diagnostic noted idle
  obtain ⟨rests, reached⟩ := rests_of_refreshed anchored ⟨⟨diagnostic, noted⟩, idle⟩
  have consistent := anchored.consistent.run edits
  obtain ⟨path, after⟩ := Option.isSome_iff_exists.mp (consistent.isSome_fragment?.mpr reached)
  obtain ⟨before, value⟩ := undisturbed.holder rfl rests after
  have current := lasting slot diagnostic (List.mem_filter.mp noted).1 rests.2
  obtain ⟨_, _, present⟩ := (Tree.lists_iff anchored.consistent).mp
    (anchored.notes (List.mem_filter.mp noted).1)
  obtain ⟨held, read⟩ := Option.isSome_iff_exists.mp present
  obtain ⟨feature, declared⟩ := anchored.consistent.feature_of_referenceAt? read
  refine current.carried (after.trans before.symm)
    ((Tree.feature?_run declared edits).trans declared.symm) fun {name target} bound written => ?_
  have still : (content.tree.run edits).referenceAt? slot = some (.bound target) := value.trans bound
  refine ⟨still, ?_⟩
  -- the written name belongs to what the slot still holds
  refine (OrderedMap.get?_filter _ _ _ anchored.once).trans ?_
  have kept : (edited content edits).tree.referenceAt? slot = some (.bound target) := still
  rw [written]
  simp [Option.filter, kept]

theorem Undisturbed.stays_refreshed (anchored : content.Anchored)
    (undisturbed : content.Undisturbed uri uri content.tree (content.tree.run edits)) :
    (ResourceSet.refreshed uri content edits).Stays (relocation uri content edits) := by
  intro slot target rests bound
  obtain ⟨rested, reached⟩ := rests_of_refreshed anchored rests
  have consistent := anchored.consistent.run edits
  obtain ⟨path, after⟩ := Option.isSome_iff_exists.mp (consistent.isSome_fragment?.mpr reached)
  have value := (undisturbed.holder rfl rested after).2
  exact undisturbed.stays anchored.toWellFormed rested (value.symm.trans bound)

end Edited

/-! ### What a visit writes -/

section Settled

variable {scope : Scope} {set : ResourceSet}

theorem view_settle (present : (content.tree.referenceAt? pending.slot).isSome = true)
    (verdict : Verdict) : (content.settle pending verdict).view pending.slot =
      (content.view pending.slot).settle pending.proxy verdict :=
  settling.own content pending.slot (pending.proxy, verdict) present

theorem view_settle_of_ne (listed : content.tree.Lists slot)
    (visited : content.tree.Lists pending.slot) (consistent : content.tree.Consistent)
    (apart : slot ≠ pending.slot) (verdict : Verdict) :
    (content.settle pending verdict).view slot = content.view slot := by
  obtain ⟨_, spells, _⟩ := (Tree.lists_iff consistent).mp listed
  obtain ⟨_, spells', _⟩ := (Tree.lists_iff consistent).mp visited
  exact settling.apart content (pending.slot, pending.proxy, verdict) slot
    fun same => apart (Tree.eq_of_place spells' spells same).symm

theorem Anchored.settle (anchored : content.Anchored) (visited : content.tree.Lists pending.slot)
    (verdict : Verdict) : (content.settle pending verdict).Anchored := by
  refine anchored.reshaped (anchored.toWellFormed.settle verdict) shape_settle ?waits ?notes
  case waits =>
    intro other waits
    rw [pending_settle] at waits
    split at waits
    · exact anchored.waits (List.mem_filter.mp waits).1
    · exact anchored.waits waits
  case notes =>
    intro slot diagnostic noted
    by_cases here : slot = pending.slot
    · exact here ▸ visited
    · exact anchored.notes ((noted_settle_of_ne here).mp noted)

/-- Of a reference that has its node and its feature, a visit reports that it stays open, or binds
it. A warning tells of a name, since an address has one candidate. -/
theorem verdict_of_context {site : Site} {feature : Feature}
    (here : context? set home pending = some (site, feature)) :
    verdict scope set home pending = .kept (unresolvedError site feature pending.proxy) ∨
      ∃ target warning, verdict scope set home pending = .bound target warning ∧
        ∀ diagnostic ∈ warning, ∃ name count, pending.proxy = .name name ∧
          diagnostic = ambiguityWarning site feature (.name name) count target := by
  cases asked : candidates scope set home site feature pending.proxy with
  | mk found uris =>
    rw [verdict_of_asked here asked]
    cases fits : uris.filter (conforms found.set feature) with
    | nil => exact .inl rfl
    | cons target others =>
      refine .inr ⟨target, _, rfl, fun diagnostic warned => ?_⟩
      cases waits : pending.proxy with
      | name name =>
        rw [waits] at warned
        split at warned
        · cases warned
        · cases warned
          exact ⟨name, _, rfl, rfl⟩
      | uri led =>
        rw [waits, candidates_uri] at asked
        cases asked
        have few := List.length_filter_le (conforms (set.ensureLoaded led.resource).1 feature) [led]
        rw [fits] at few
        cases others with
        | nil => cases warned
        | cons second rest => simp at few

/-- What a visit leaves noted for its slot is current. -/
theorem current_of_visit (anchored : content.Anchored) (held : set.content? home = some content)
    (visited : content.tree.Lists pending.slot)
    (noted : (pending.slot, diagnostic) ∈
      (content.settle pending (verdict scope set home pending)).linkDiagnostics.entries) :
    (content.settle pending (verdict scope set home pending)).Current home pending.slot
      diagnostic := by
  obtain ⟨reached, _, present⟩ := (Tree.lists_iff anchored.consistent).mp visited
  obtain ⟨value, read⟩ := Option.isSome_iff_exists.mp present
  obtain ⟨path, found⟩ := Option.isSome_iff_exists.mp
    (anchored.consistent.isSome_fragment?.mpr reached)
  obtain ⟨site, feature, here⟩ := exists_context held anchored.consistent read
  obtain ⟨_, same, rfl, declared⟩ := context?_eq_some_iff.mp here
  cases held.symm.trans same
  have seen := @view_settle content pending present
  have shape := @shape_settle content pending
  have address : (⟨home, content.tree, pending.source⟩ : Site).uri? = some ⟨home, path⟩ := by
    rw [Site.uri?, Site.fragment?, found, Option.map_some]
  rcases @verdict_of_context home pending scope set _ _ here with kept | ⟨target, warning, bound, warns⟩
  · rw [kept] at noted ⊢
    have wrong : ((content.settle pending (.kept (unresolvedError _ feature pending.proxy))).view
      pending.slot).wrong diagnostic := noted
    rw [seen] at wrong
    obtain rfl : diagnostic = unresolvedError _ feature pending.proxy := wrong
    refine ⟨⟨path, (Tree.fragment?_of_shape shape _).trans found, address⟩, fun warns => ?_⟩
    have differs : Diagnostic.unresolvedCode ≠ Diagnostic.ambiguousCode := by decide
    exact absurd (Option.some.inj warns) differs
  · rw [bound] at noted ⊢
    have wrong : ((content.settle pending (.bound target warning)).view pending.slot).wrong
      diagnostic := noted
    rw [seen] at wrong
    obtain ⟨name, count, asked, rfl⟩ := warns diagnostic wrong
    refine ⟨⟨path, (Tree.fragment?_of_shape shape _).trans found, address⟩, fun _ => ?_⟩
    refine ⟨feature, name, target, count, (Tree.feature?_of_shape shape _ _).trans declared, ?_, ?_, rfl⟩
    · exact congrArg SlotView.value (seen (.bound target warning))
    · rw [asked] at seen
      exact congrArg SlotView.written (seen (.bound target warning))

theorem Lasting.visited (lasting : content.Lasting home) (anchored : content.Anchored)
    (held : set.content? home = some content) (visited : content.tree.Lists pending.slot) :
    (content.settle pending (verdict scope set home pending)).Lasting home := by
  intro slot diagnostic noted idle
  by_cases here : slot = pending.slot
  · subst here
    exact current_of_visit anchored held visited noted
  · have earlier := (noted_settle_of_ne here).mp noted
    exact lasting.of_view shape_settle
      (view_settle_of_ne (anchored.notes earlier) visited anchored.consistent here _) idle earlier

end Settled

end Content

end Crosslink
