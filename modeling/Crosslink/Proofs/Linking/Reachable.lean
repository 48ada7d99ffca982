import Crosslink.Proofs.Linking.Verdicts
import Crosslink.Proofs.ResourceSet.Holding
import Crosslink.Proofs.Types.Drafts
import Crosslink.Proofs.Types.Members

/-! Sets of resources that operations can reach.

Resources of any languages are made, read, edited, unloaded and removed, and
linked in any scopes. Their trees are consistent all along, no slot has two
written names, and no two members have one URI.
-/

set_option autoImplicit false

namespace Crosslink

open Linking

def Language.Grows (language : Language) : Prop := ∀ text, (language.parse text).tree.Consistent

theorem Types.language_grows : Types.language.Grows := fun text =>
  (Types.sound_of_parse text).consistent

namespace Content.WellFormed

variable {content after : Content}

theorem ofParsed {parsed : Parsed} (consistent : parsed.tree.Consistent)
    (lines : Option LineIndex) : (Content.ofParsed parsed lines).WellFormed :=
  ⟨consistent, List.nodup_nil⟩

-- What is done for every entry of a list keeps what it keeps for one.
theorem foldl {α : Type} {change : Content → α → Content}
    (keeps : ∀ content entry, content.WellFormed → (change content entry).WellFormed)
    (entries : List α) (wellFormed : content.WellFormed) :
    (entries.foldl change content).WellFormed := by
  induction entries generalizing content with
  | nil => exact wellFormed
  | cons entry rest ih => exact ih (keeps content entry wellFormed)

variable (wellFormed : content.WellFormed)
include wellFormed

theorem replaceReference (slot : SlotKey) (value : Reference) :
    (content.tree.replaceReference slot value).Consistent :=
  Tree.consistent_of_shape Tree.shape_replaceReference wellFormed.consistent

theorem reopen (slot : SlotKey) (target : Uri) : (content.reopen slot target).WellFormed :=
  ⟨wellFormed.replaceReference slot _, OrderedMap.nodup_keys_filter _ wellFormed.once⟩

theorem redirect (slot : SlotKey) (value : Reference) :
    (content.redirect slot value).WellFormed := by
  have consistent := wellFormed.replaceReference slot value
  unfold Content.redirect
  cases value with
  | unresolved proxy => exact ⟨consistent, wellFormed.once⟩
  | bound target =>
    refine ⟨consistent, ?_⟩
    rw [OrderedMap.keys_modify]
    exact wellFormed.once

theorem reopenAll (slots : List (SlotKey × Uri)) : (content.reopenAll slots).WellFormed := by
  cases slots with
  | nil => exact wellFormed
  | cons entry rest =>
    have opened := foldl (fun _ entry kept => kept.reopen entry.1 entry.2) (entry :: rest) wellFormed
    exact ⟨opened.consistent, opened.once⟩

theorem demoted (resource : ResourceUri) : ((content.demote? resource).getD content).WellFormed := by
  rw [demote?_eq]
  exact wellFormed.reopenAll _

theorem relocated (relocation : Relocation) :
    (ResourceSet.relocated relocation content).WellFormed := by
  unfold ResourceSet.relocated
  rw [relocate?_eq]
  exact (foldl (fun _ entry kept => kept.redirect entry.1 entry.2) _ wellFormed).reopenAll _

theorem bind {pending : Pending} {target : Uri} {warning : Option Diagnostic}
    (done : content.bind? pending target warning = some after) : after.WellFormed := by
  obtain ⟨tree, replaced, rfl⟩ := Option.map_eq_some_iff.mp done
  obtain ⟨_, rfl⟩ := Tree.replaceReference?_eq_some_iff.mp replaced
  refine ⟨wellFormed.replaceReference _ _, ?_⟩
  dsimp only
  split
  · exact OrderedMap.nodup_keys_insert _ _ wellFormed.once
  · exact OrderedMap.nodup_keys_filter _ wellFormed.once

theorem settle {pending : Pending} (verdict : Verdict) :
    (content.settle pending verdict).WellFormed := by
  have noted : (content.note pending.proxy).WellFormed := by
    rw [note_eq]
    exact ⟨wellFormed.consistent, wellFormed.once⟩
  cases verdict with
  | passed => exact wellFormed
  | kept error => exact ⟨noted.consistent, noted.once⟩
  | bound target warning =>
    cases done : (content.note pending.proxy).bind? pending target warning with
    | none =>
      rw [Content.settle, done]
      exact noted
    | some after =>
      rw [Content.settle, done]
      exact noted.bind done

theorem edited (uri : ResourceUri) (edits : List Edit) :
    (ResourceSet.relocated (ResourceSet.relocation uri content edits)
      (ResourceSet.refreshed uri content edits)).WellFormed := by
  have fresh : (ResourceSet.refreshed uri content edits).WellFormed :=
    ⟨wellFormed.consistent.run edits, OrderedMap.nodup_keys_filter _ wellFormed.once⟩
  exact fresh.relocated _

end Content.WellFormed

/-! ### Members -/

theorem Language.grows_iff {language : Language} :
    language.Grows ↔ language.Reads Content.WellFormed :=
  ⟨fun grows text => Content.WellFormed.ofParsed (grows text) _,
    fun reads text => (reads text).consistent⟩

structure Resource.WellFormed (resource : Resource) : Prop where
  content : ∀ content, resource.content = some content → content.WellFormed
  grows : ∀ language, resource.language = some language → language.Grows

theorem Resource.wellFormed_iff {resource : Resource} :
    resource.WellFormed ↔ resource.Holding fun _ content => content.WellFormed :=
  ⟨fun fine => ⟨fine.content, fun language spoken => Language.grows_iff.mp (fine.grows language spoken)⟩,
    fun fine => ⟨fine.content, fun language spoken => Language.grows_iff.mpr (fine.reads language spoken)⟩⟩

namespace ResourceSet

structure Grown (set : ResourceSet) : Prop where
  once : set.uris.Nodup
  members : ∀ resource ∈ set.resources, resource.WellFormed
  grows : ∀ uri language, set.languages.for? uri = some language → language.Grows

variable {set : ResourceSet} {uri : ResourceUri}

theorem grown_iff : set.Grown ↔ set.Holding fun _ content => content.WellFormed where
  mp grown := {
    once := grown.once
    members := fun resource member => Resource.wellFormed_iff.mp (grown.members resource member)
    reads := fun uri language known => Language.grows_iff.mp (grown.grows uri language known) }
  mpr holding := {
    once := holding.once
    members := fun resource member => Resource.wellFormed_iff.mpr (holding.members resource member)
    grows := fun uri language known => Language.grows_iff.mpr (holding.reads uri language known) }

namespace Grown

variable (grown : set.Grown)
include grown

theorem wellFormed : set.WellFormed := (grown_iff.mp grown).content?

theorem get? {resource : Resource} (found : set.get? uri = some resource) : resource.WellFormed :=
  grown.members resource (mem_of_get? found)

end Grown

end ResourceSet

/-! ### Runs -/

theorem Resource.Holding.settle {kind : ResourceUri → Content → Prop} {resource : Resource}
    {pending : Pending} {verdict : Verdict} (holding : resource.Holding kind)
    (keeps : ∀ content, resource.content = some content → kind resource.uri content →
      kind resource.uri (content.settle pending verdict)) :
    (resource.settle pending verdict).Holding kind where
  content after settled := by
    rw [Resource.content_settle] at settled
    obtain ⟨content, filled, rfl⟩ := Option.map_eq_some_iff.mp settled
    rw [Resource.uri_settle]
    exact keeps content filled (holding.content content filled)
  reads language spoken := by
    rw [Resource.language_settle] at spoken
    rw [Resource.uri_settle]
    exact holding.reads language spoken

namespace Linking

variable {kind : ResourceUri → Content → Prop} {scope : Scope} {set : ResourceSet}
  {home : ResourceUri} {pending : Pending}

/-- A visit keeps the kind if opening references does, and what it settles in its own resource. -/
theorem holding_resolve (holding : set.Holding kind)
    (opens : ∀ {home content} uri, kind home content → kind home ((content.demote? uri).getD content))
    (settles : ∀ content, (supplied home set pending).content? home = some content →
      kind home content → kind home (content.settle pending (verdict scope set home pending))) :
    (resolve scope set home pending).set.Holding kind := by
  have supplies : (supplied home set pending).Holding kind := by
    unfold supplied
    split
    · exact holding.ensureLoaded opens _
    · exact holding
  rw [set_resolve]
  refine supplies.modify fun resource member named fine =>
    ⟨Resource.uri_settle.trans named, fine.settle fun content filled kept => ?_⟩
  subst named
  exact settles content ((ResourceSet.content?_of_mem supplies.once member).trans filled) kept

theorem wellFormed_link (holding : set.Holding fun _ content => content.WellFormed)
    (stop : Progress → Bool) (turns : Nat) :
    (linkWithin scope stop turns set).Holding fun _ content => content.WellFormed :=
  @linkWithin_induction scope set (fun set => set.Holding fun _ content => content.WellFormed)
    (fun _ _ _ => True) stop (fun _ => trivial)
    (fun holding _ => ⟨holding_resolve holding (fun uri fine => fine.demoted uri)
      fun _ _ fine => fine.settle _, trivial⟩) turns holding

end Linking

/-! ### All that operations can reach -/

/-- The sets that operations can reach, with languages that read every text into a consistent
tree. -/
inductive ResourceSet.Reachable : ResourceSet → Prop where
  | start : Reachable {}
  | provide {set : ResourceSet} (before : Reachable set) (registry : Registry)
      (languages : Languages) (loader : Option Loader)
      (grows : ∀ uri language, languages.for? uri = some language → language.Grows) :
      Reachable { set with registry, languages, loader }
  /-- A resource that has been made elsewhere joins. -/
  | add {set next : ResourceSet} {resource : Resource} (before : Reachable set)
      (fine : resource.WellFormed) (done : set.add resource = .ok next) : Reachable next
  | create {set next : ResourceSet} {uri : ResourceUri} (before : Reachable set)
      (done : set.create uri = .ok next) : Reachable next
  | load {set : ResourceSet} (before : Reachable set) (uri : ResourceUri) (text : String) :
      Reachable (set.load uri text).1
  | unload {set : ResourceSet} (before : Reachable set) (uri : ResourceUri) :
      Reachable (set.unload uri).1
  | remove {set : ResourceSet} (before : Reachable set) (uri : ResourceUri) :
      Reachable (set.remove uri).1
  | edit {set : ResourceSet} (before : Reachable set) (uri : ResourceUri) (edits : List Edit) :
      Reachable (set.edit uri fun tree => (tree.run edits, ())).1
  | fetch {set : ResourceSet} (before : Reachable set) (target : Uri) :
      Reachable (set.fetch target).1
  | link {set : ResourceSet} (before : Reachable set) (scope : Linking.Scope)
      (stop : Linking.Progress → Bool) (turns : Nat) :
      Reachable (Linking.linkWithin scope stop turns set)

namespace ResourceSet.Reachable

theorem types : Reachable { languages := ({} : Languages).register Types.language } := by
  refine .provide .start {} (({} : Languages).register Types.language) none ?_
  intro uri language known
  cases (Types.speaks_empty {}).known known
  exact Types.language_grows

variable {set : ResourceSet} (reachable : set.Reachable)
include reachable

theorem grown : set.Grown := by
  have opens {content : Content} (uri : ResourceUri) (fine : content.WellFormed) :
      ((content.demote? uri).getD content).WellFormed := fine.demoted uri
  rw [grown_iff]
  induction reachable with
  | start => exact holding_empty
  | provide _ registry languages loader grows before =>
    exact before.provide registry loader fun uri language known =>
      Language.grows_iff.mp (grows uri language known)
  | add _ fine done before => exact before.add (Resource.wellFormed_iff.mp fine) done
  | create _ done before => exact before.create done
  | load _ uri text before => exact before.load opens uri text
  | unload _ uri before => exact before.unload opens uri
  | remove _ uri before => exact before.remove opens uri
  | edit _ uri edits before =>
    exact before.edit uri edits () (fun _ fine => fine.edited uri edits)
      fun _ _ _ fine => fine.relocated _
  | fetch _ target before => exact before.fetch opens target
  | link _ scope stop turns before => exact Linking.wellFormed_link before stop turns

theorem linked (scope : Linking.Scope) (stop : Linking.Progress → Bool) :
    Reachable (Linking.link scope stop set).1 := .link reachable scope stop (Linking.visitBound set)

theorem provideLoader (loader : Option Loader) : Reachable { set with loader } :=
  .provide reachable set.registry set.languages loader reachable.grown.grows

/-- Every set that can be reached is well-formed. -/
theorem wellFormed : set.WellFormed := reachable.grown.wellFormed

end ResourceSet.Reachable

end Crosslink
