import Crosslink.Proofs.OrderedMap
import Crosslink.Proofs.ResourceSet.Steps
import Crosslink.Types.Language

/-! Sets of resources of the types language.

No two members have one URI, and all of them are read in the same language, as
are those that join them. Reading, editing, unloading and removing members keep this.
-/

set_option autoImplicit false

namespace Crosslink.Types

/-- The members, each once, are all of the types language. -/
structure Speaks (set : ResourceSet) : Prop where
  once : set.uris.Nodup
  spoken : ∀ resource ∈ set.resources, resource.language = some language
  known : ∀ {uri own}, set.languages.for? uri = some own → own = language

variable {set next : ResourceSet} {uri other : ResourceUri} {text : String}

theorem speaks_empty (registry : Registry) :
    Speaks { registry, languages := ({} : Languages).register language } where
  once := List.nodup_nil
  spoken := nofun
  known {uri own} found := by
    obtain ⟨extension, _, found⟩ := Option.bind_eq_some_iff.mp found
    have entered := OrderedMap.get?_insert ({} : OrderedMap String Language)
      (String.ofList ("types".toList.dropWhile (· = '.'))) extension language
    have same : (if extension = String.ofList ("types".toList.dropWhile (· = '.')) then some language
        else none) = some own := entered.symm.trans found
    split at same
    · exact (Option.some.inj same).symm
    · cases same

namespace Speaks

variable (speaks : Speaks set)
include speaks

theorem changed (uris : next.uris = set.uris)
    (spoken : ∀ resource ∈ next.resources, resource.language = some language)
    (languages : next.languages = set.languages) : Speaks next where
  once := uris ▸ speaks.once
  spoken := spoken
  known := languages ▸ speaks.known

theorem mapped {change : Resource → Resource}
    (keeps : ∀ resource : Resource, resource.language = some language →
      (change resource).uri = resource.uri ∧ (change resource).language = some language) :
    Speaks { set with resources := set.resources.map change } := by
  refine speaks.changed ?uris ?spoken rfl
  case uris =>
    apply ResourceSet.uris_map
    intro resource member
    exact (keeps resource (speaks.spoken resource member)).1
  case spoken =>
    intro resource member
    obtain ⟨before, earlier, rfl⟩ := List.mem_map.mp member
    exact (keeps before (speaks.spoken before earlier)).2

theorem modify {change : Resource → Resource}
    (keeps : ∀ resource : Resource, resource.uri = uri → resource.language = some language →
      (change resource).uri = uri ∧ (change resource).language = some language) :
    Speaks (set.modify uri change) := by
  apply speaks.mapped
  intro resource own
  split
  · next here =>
    rw [here]
    exact keeps resource here own
  · exact ⟨rfl, own⟩

theorem demoteInto (uri : ResourceUri) : Speaks (set.demoteInto uri) := by
  apply speaks.mapped
  intro resource own
  split
  · exact ⟨rfl, own⟩
  · exact ⟨resource.uri_update _, (resource.language_update _).trans own⟩

theorem create (done : set.create uri = .ok next) : Speaks next := by
  obtain ⟨fresh, own, found, rfl⟩ := ResourceSet.create_ok done
  refine ⟨ResourceSet.nodup_uris_append speaks.once fresh, ?_, speaks.known⟩
  intro resource member
  rcases List.mem_append.mp member with earlier | last
  · exact speaks.spoken resource earlier
  · rw [List.mem_singleton.mp last, speaks.known found]

/-- Reading a text into a member cannot fail. -/
theorem loadMember (present : set.contains uri = true) (text : String) :
    Speaks (set.loadMember uri text).1 ∧ (set.loadMember uri text).1.content? uri =
      some (.ofParsed (parse text) (some (.ofText text))) := by
  obtain ⟨resource, found⟩ := Option.isSome_iff_exists.mp present
  have own := speaks.spoken resource (ResourceSet.mem_of_get? found)
  have named := ResourceSet.uri_of_get? found
  have done : (set.loadMember uri text).1 =
      set.modify uri fun _ => resource.put (.ofParsed (parse text) (some (.ofText text))) := by
    unfold ResourceSet.loadMember Resource.load
    rw [found]
    dsimp only
    rw [own]
    rfl
  rw [done]
  refine ⟨speaks.modify fun _ _ _ => ⟨named, own⟩, ?_⟩
  rw [ResourceSet.content?, ResourceSet.get?_modify, if_pos rfl, found]
  · rfl
  · exact fun _ _ => named

/-- A text that is loaded is held afterwards, unless its resource cannot be made. -/
theorem load (uri : ResourceUri) (text : String) : (set.load uri text).1 = set ∨
    Speaks (set.load uri text).1 ∧ (set.load uri text).1.content? uri =
      some (.ofParsed (parse text) (some (.ofText text))) := by
  unfold ResourceSet.load
  split
  · next present =>
    right
    split
    · refine (speaks.demoteInto uri).loadMember ?_ text
      rw [ResourceSet.contains, ResourceSet.get?_demoteInto, if_pos rfl]
      exact present
    · exact speaks.loadMember present text
  · cases made : set.create uri with
    | error fault => exact .inl rfl
    | ok next =>
      refine .inr ((speaks.create made).loadMember ?_ text)
      obtain ⟨fresh, own, _, rfl⟩ := ResourceSet.create_ok made
      have missing : set.resources.find? (·.uri = uri) = none := by
        simpa [ResourceSet.contains, ResourceSet.get?] using fresh
      simp [ResourceSet.contains, ResourceSet.get?, List.find?_append, missing]

theorem unload (uri : ResourceUri) : Speaks (set.unload uri).1 :=
  ResourceSet.unload_induction (motive := Speaks) (fun uri speaks => speaks.demoteInto uri)
    (fun _ speaks => speaks.modify fun resource named own =>
      ⟨resource.uri_unload.trans named, resource.language_unload.trans own⟩) speaks uri

theorem remove (uri : ResourceUri) : Speaks (set.remove uri).1 :=
  ResourceSet.remove_induction (motive := Speaks) (fun uri speaks => speaks.demoteInto uri)
    (fun _ speaks => ⟨(List.filter_sublist.map _).nodup speaks.once,
      fun resource member => speaks.spoken resource (List.mem_filter.mp member).1, speaks.known⟩)
    speaks uri

theorem provide (loader : Option Loader) : Speaks { set with loader } :=
  ⟨speaks.once, speaks.spoken, speaks.known⟩

theorem edit {α : Type} (uri : ResourceUri) (change : Tree → Tree × α) :
    Speaks (set.edit uri change).1 := by
  unfold ResourceSet.edit
  split
  · exact speaks
  · next resource found =>
    split
    · exact speaks
    · next edited _ relocation done =>
      have after : edited.uri = resource.uri ∧ edited.language = resource.language := by
        unfold Resource.edit at done
        split at done
        · cases done
        · cases done
          exact ⟨rfl, rfl⟩
      have own := speaks.spoken resource (ResourceSet.mem_of_get? found)
      have changed := @Speaks.modify set uri speaks (fun _ => edited) fun _ _ _ =>
        ⟨after.1.trans (ResourceSet.uri_of_get? found), after.2.trans own⟩
      dsimp only
      split
      · exact changed
      · apply changed.mapped
        intro other known
        split
        · exact ⟨rfl, known⟩
        · exact ⟨other.uri_update _, (other.language_update _).trans known⟩

end Speaks

end Crosslink.Types
