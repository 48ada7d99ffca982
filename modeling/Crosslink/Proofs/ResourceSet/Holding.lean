import Crosslink.Proofs.ResourceSet.Following
import Crosslink.Proofs.ResourceSet.Steps

/-! Sets whose members hold contents of one kind.

What a set reads comes from the languages of its members, and from those that it
has for new ones. Where all that they read is of a kind that opening references
keeps, members can come and go, and what they hold is of that kind all along.
-/

set_option autoImplicit false

namespace Crosslink

def Language.Reads (language : Language) (kind : Content → Prop) : Prop :=
  ∀ text, kind (.ofParsed (language.parse text) (some (.ofText text)))

structure Resource.Holding (kind : ResourceUri → Content → Prop) (resource : Resource) : Prop where
  content : ∀ content, resource.content = some content → kind resource.uri content
  reads : ∀ language, resource.language = some language → language.Reads (kind resource.uri)

/-- All members, each once, hold contents of a kind, and so do those that can be made. -/
structure ResourceSet.Holding (kind : ResourceUri → Content → Prop) (set : ResourceSet) : Prop where
  once : set.uris.Nodup
  members : ∀ resource ∈ set.resources, resource.Holding kind
  reads : ∀ uri language, set.languages.for? uri = some language → language.Reads (kind uri)

namespace Resource.Holding

variable {kind : ResourceUri → Content → Prop} {resource : Resource} (holding : resource.Holding kind)
include holding

theorem imp {other : ResourceUri → Content → Prop}
    (weaker : ∀ {content}, kind resource.uri content → other resource.uri content) :
    resource.Holding other where
  content content held := weaker (holding.content content held)
  reads language spoken text := weaker (holding.reads language spoken text)

theorem put {content : Content} (fine : kind resource.uri content) :
    (resource.put content).Holding kind where
  content := by
    rintro _ ⟨⟩
    exact fine
  reads := holding.reads

theorem update {change? : Content → Option Content}
    (keeps : ∀ content, resource.content = some content → kind resource.uri content →
      kind resource.uri ((change? content).getD content)) :
    (resource.update change?).Holding kind where
  content after held := by
    rw [resource.content_update] at held
    obtain ⟨content, filled, rfl⟩ := Option.map_eq_some_iff.mp held
    rw [resource.uri_update]
    exact keeps content filled (holding.content content filled)
  reads language spoken := by
    rw [resource.language_update] at spoken
    rw [resource.uri_update]
    exact holding.reads language spoken

theorem unload : resource.unload.Holding kind where
  content content held := by
    rw [resource.content_unload] at held
    cases held
  reads language spoken := by
    rw [resource.language_unload] at spoken
    rw [resource.uri_unload]
    exact holding.reads language spoken

end Resource.Holding

namespace ResourceSet

variable {kind : ResourceUri → Content → Prop}

theorem holding_empty : ({} : ResourceSet).Holding kind where
  once := List.nodup_nil
  members := nofun
  reads uri language known := by
    obtain ⟨extension, _, found⟩ := Option.bind_eq_some_iff.mp known
    cases found

namespace Holding

variable {set next : ResourceSet} {uri : ResourceUri} (holding : set.Holding kind)
include holding

theorem content? {content : Content} (held : set.content? uri = some content) : kind uri content := by
  obtain ⟨resource, found, filled⟩ := Option.bind_eq_some_iff.mp held
  have fine := (holding.members resource (mem_of_get? found)).content content filled
  rwa [uri_of_get? found] at fine

theorem mapped {change : Resource → Resource}
    (keeps : ∀ resource ∈ set.resources, resource.Holding kind →
      (change resource).uri = resource.uri ∧ (change resource).Holding kind) :
    ({ set with resources := set.resources.map change } : ResourceSet).Holding kind where
  once := by
    rw [uris_map fun resource member => (keeps resource member (holding.members resource member)).1]
    exact holding.once
  members resource member := by
    obtain ⟨before, earlier, rfl⟩ := List.mem_map.mp member
    exact (keeps before earlier (holding.members before earlier)).2
  reads := holding.reads

theorem modify {change : Resource → Resource}
    (keeps : ∀ resource ∈ set.resources, resource.uri = uri → resource.Holding kind →
      (change resource).uri = uri ∧ (change resource).Holding kind) :
    (set.modify uri change).Holding kind := by
  refine holding.mapped fun resource member fine => ?_
  split
  · next here =>
    rw [here]
    exact keeps resource member here fine
  · exact ⟨rfl, fine⟩

theorem modifyOthers {change : Resource → Resource}
    (keeps : ∀ resource ∈ set.resources, resource.uri ≠ uri → resource.Holding kind →
      (change resource).uri = resource.uri ∧ (change resource).Holding kind) :
    (set.modifyOthers uri change).Holding kind := by
  refine holding.mapped fun resource member fine => ?_
  split
  · exact ⟨rfl, fine⟩
  · next apart => exact keeps resource member apart fine

theorem provide (registry : Registry) {languages : Languages} (loader : Option Loader)
    (reads : ∀ uri language, languages.for? uri = some language → language.Reads (kind uri)) :
    ({ set with registry, languages, loader } : ResourceSet).Holding kind :=
  ⟨holding.once, holding.members, reads⟩

theorem joined {resource : Resource} (fresh : set.contains resource.uri = false)
    (fine : resource.Holding kind) (serial : Nat) :
    ({ set with resources := set.resources ++ [resource], serial } : ResourceSet).Holding kind where
  once := nodup_uris_append holding.once fresh
  members member listed := by
    rcases List.mem_append.mp listed with earlier | last
    · exact holding.members member earlier
    · rwa [List.mem_singleton.mp last]
  reads := holding.reads

theorem create (done : set.create uri = .ok next) : next.Holding kind := by
  obtain ⟨fresh, language, known, rfl⟩ := create_ok done
  have fine : Resource.Holding kind
      { uri, language := some language, stamp := ⟨set.serial, 0⟩ } := by
    refine ⟨nofun, ?_⟩
    rintro _ ⟨⟩
    exact holding.reads uri language known
  exact holding.joined fresh fine (set.serial + 1)

theorem add {resource : Resource} (fine : resource.Holding kind)
    (done : set.add resource = .ok next) : next.Holding kind := by
  unfold ResourceSet.add at done
  split at done
  · cases done
  · next absent =>
    cases done
    exact holding.joined (Bool.eq_false_iff.mpr absent) fine set.serial

theorem loadMember (uri : ResourceUri) (text : String) :
    (set.loadMember uri text).1.Holding kind := by
  unfold ResourceSet.loadMember
  split
  · exact holding
  · next resource found =>
    have fine := holding.members resource (mem_of_get? found)
    have named := uri_of_get? found
    split
    · exact holding
    · next loaded report done =>
      obtain ⟨language, spoken, rfl⟩ := Resource.load_ok done
      exact holding.modify fun _ _ _ _ => ⟨named, fine.put (fine.reads language spoken text)⟩

-- The edited member is told apart from the others: it has forgotten what is stale before its
-- references follow.
theorem edit {α : Type} (uri : ResourceUri) (edits : List Edit) (answer : α)
    (own : ∀ {content}, set.content? uri = some content → kind uri content →
      kind uri (relocated (relocation uri content edits) (refreshed uri content edits)))
    (others : ∀ {content home other}, set.content? uri = some content → home ≠ uri →
      set.content? home = some other → kind home other →
        kind home (relocated (relocation uri content edits) other)) :
    (set.edit uri fun tree => (tree.run edits, answer)).1.Holding kind := by
  cases found : set.get? uri with
  | none =>
    unfold ResourceSet.edit
    rwa [found]
  | some resource =>
    have fine := holding.members resource (mem_of_get? found)
    obtain rfl := uri_of_get? found
    cases filled : resource.content with
    | none =>
      unfold ResourceSet.edit Resource.edit
      rw [found]
      dsimp only
      rwa [filled]
    | some content =>
      have held : set.content? resource.uri = some content := by
        rw [ResourceSet.content?, found, Option.bind_some, filled]
      let moves := relocation resource.uri content edits
      let last := resource.put (relocated moves (refreshed resource.uri content edits))
      have done : resource.edit (fun tree => (tree.run edits, answer)) = .ok (last, answer, moves) := by
        unfold Resource.edit
        rw [filled]
        rfl
      have fine : last.Holding kind := fine.put (own held (fine.content content filled))
      have changed := @Holding.modify kind set resource.uri holding (fun _ => last)
        fun _ _ _ _ => ⟨rfl, fine⟩
      unfold ResourceSet.edit
      rw [found]
      dsimp only
      rw [done]
      dsimp only
      split
      · exact changed
      · refine changed.modifyOthers fun other member apart fine' =>
          ⟨other.uri_update _, fine'.update fun content' filled' kept => others held apart ?_ kept⟩
        obtain ⟨before, earlier, same⟩ := List.mem_map.mp member
        split at same
        · exact absurd (same ▸ rfl) apart
        · subst same
          rw [content?_of_mem holding.once earlier, filled']

section Opening

variable (opens : ∀ {home content} uri, kind home content → kind home ((content.demote? uri).getD content))
include opens

theorem demoteInto (uri : ResourceUri) : (set.demoteInto uri).Holding kind :=
  holding.modifyOthers fun resource _ _ fine =>
    ⟨resource.uri_update _, fine.update fun _ _ kept => opens uri kept⟩

theorem load (uri : ResourceUri) (text : String) : (set.load uri text).1.Holding kind :=
  load_induction (motive := Holding kind) (fun uri kept => kept.demoteInto opens uri)
    (fun kept made => kept.create made) (fun uri text kept => kept.loadMember uri text) holding uri
    text

theorem unload (uri : ResourceUri) : (set.unload uri).1.Holding kind :=
  unload_induction (motive := Holding kind) (fun uri kept => kept.demoteInto opens uri)
    (fun _ kept => kept.modify fun resource _ named fine =>
      ⟨resource.uri_unload.trans named, fine.unload⟩) holding uri

theorem remove (uri : ResourceUri) : (set.remove uri).1.Holding kind :=
  remove_induction (motive := Holding kind) (fun uri kept => kept.demoteInto opens uri)
    (fun _ kept => ⟨(List.filter_sublist.map _).nodup kept.once,
      fun resource member => kept.members resource (List.mem_filter.mp member).1, kept.reads⟩)
    holding uri

theorem ensureLoaded (uri : ResourceUri) : (set.ensureLoaded uri).1.Holding kind :=
  ensureLoaded_induction (motive := Holding kind)
    (fun _ kept => ⟨kept.once, kept.members, kept.reads⟩)
    (fun uri text kept => kept.load opens uri text) holding uri

theorem fetch (target : Uri) : (set.fetch target).1.Holding kind := by
  rw [fst_fetch]
  exact holding.ensureLoaded opens target.resource

end Opening

end Holding

end ResourceSet

end Crosslink
