import Crosslink.Proofs.Tree.Operations
import Crosslink.ResourceSet
import Mathlib.Data.List.Nodup

/-! The members of a set after a change of one of them, or of all others.

What can be read from a set is what its members hold, and a change of one member
does not reach the content of another.
-/

set_option autoImplicit false

namespace Crosslink

namespace Resource

@[simp] theorem uri_put (resource : Resource) (content : Content) :
    (resource.put content).uri = resource.uri := rfl

theorem content_put (resource : Resource) (content : Content) :
    (resource.put content).content = some content := rfl

@[simp] theorem language_put (resource : Resource) (content : Content) :
    (resource.put content).language = resource.language := rfl

section Update

variable (resource : Resource) (change? : Content → Option Content)

@[simp] theorem uri_update : (resource.update change?).uri = resource.uri := by
  unfold update
  split <;> rfl

@[simp] theorem language_update : (resource.update change?).language = resource.language := by
  unfold update
  split <;> rfl

theorem content_update : (resource.update change?).content =
    resource.content.map fun content => (change? content).getD content := by
  unfold update
  cases held : resource.content with
  | none => simp [held]
  | some content => cases changed : change? content <;> simp [held, changed, content_put]

end Update

@[simp] theorem uri_unload (resource : Resource) : resource.unload.uri = resource.uri := by
  unfold unload
  split <;> rfl

@[simp] theorem language_unload (resource : Resource) :
    resource.unload.language = resource.language := by
  unfold unload
  split <;> rfl

@[simp] theorem content_unload (resource : Resource) : resource.unload.content = none := by
  unfold unload
  split
  · rfl
  · next closed => simpa [isLoaded] using closed

theorem load_ok {resource : Resource} {text : String} {loaded : Resource} {report : LoadReport}
    (done : resource.load text = .ok (loaded, report)) :
    ∃ language, resource.language = some language ∧
      loaded = resource.put (.ofParsed (language.parse text) (some (.ofText text))) := by
  unfold load at done
  split at done
  · cases done
  · next language spoken =>
    cases done
    exact ⟨language, spoken, rfl⟩

end Resource

namespace ResourceSet

variable {set next : ResourceSet} {uri other : ResourceUri} {resource : Resource}

def content? (set : ResourceSet) (uri : ResourceUri) : Option Content :=
  (set.get? uri).bind (·.content)

theorem uri_of_get? (found : set.get? uri = some resource) : resource.uri = uri := by
  simpa using List.find?_some found

theorem mem_of_get? (found : set.get? uri = some resource) : resource ∈ set.resources :=
  List.mem_of_find?_eq_some found

theorem get?_eq_none_iff : set.get? uri = none ↔ uri ∉ set.uris := by
  simp only [get?, uris, List.find?_eq_none, List.mem_map, not_exists, not_and,
    decide_eq_true_eq]

theorem contains_iff_mem : set.contains uri = true ↔ uri ∈ set.uris := by
  rw [← not_iff_not, ← get?_eq_none_iff, contains, Option.not_isSome_iff_eq_none]

theorem get?_of_mem (once : set.uris.Nodup) (member : resource ∈ set.resources) :
    set.get? resource.uri = some resource := by
  obtain ⟨found, held⟩ : ∃ found, set.get? resource.uri = some found := by
    refine Option.isSome_iff_exists.mp (List.find?_isSome.mpr ⟨resource, member, ?_⟩)
    simp
  have same := List.inj_on_of_nodup_map once (mem_of_get? held) member (uri_of_get? held)
  rw [held, same]

theorem content?_of_mem (once : set.uris.Nodup) (member : resource ∈ set.resources) :
    set.content? resource.uri = resource.content := by
  rw [content?, get?_of_mem once member, Option.bind_some]

theorem uris_map {change : Resource → Resource}
    (keeps : ∀ resource ∈ set.resources, (change resource).uri = resource.uri) :
    ({ set with resources := set.resources.map change } : ResourceSet).uris = set.uris := by
  unfold uris
  rw [List.map_map]
  exact List.map_congr_left keeps

theorem nodup_uris_append (once : set.uris.Nodup) (fresh : set.contains resource.uri = false) :
    ({ set with resources := set.resources ++ [resource] } : ResourceSet).uris.Nodup := by
  have absent : resource.uri ∉ set.uris := by
    intro member
    obtain ⟨present, listed, same⟩ := List.mem_map.mp member
    rw [contains, ← same, get?_of_mem once listed] at fresh
    cases fresh
  unfold uris at absent ⊢
  rw [List.map_append, List.map_singleton, List.nodup_append]
  refine ⟨once, List.nodup_singleton _, fun first member last single same => ?_⟩
  have here : last = resource.uri := List.mem_singleton.mp single
  exact absent (here ▸ same ▸ member)

theorem isLoaded_iff : set.isLoaded uri = true ↔ ∃ content, set.content? uri = some content := by
  rw [isLoaded, content?, ← Option.isSome_iff_exists]
  cases set.get? uri <;> simp [Resource.isLoaded]

theorem isLoaded_eq_false_iff : set.isLoaded uri = false ↔ set.content? uri = none := by
  rw [← Bool.not_eq_true, isLoaded_iff, ← Option.isSome_iff_exists, Option.not_isSome_iff_eq_none]

theorem contains_of_isLoaded (loaded : set.isLoaded uri = true) : set.contains uri = true := by
  obtain ⟨content, held⟩ := isLoaded_iff.mp loaded
  obtain ⟨resource, found, _⟩ := Option.bind_eq_some_iff.mp held
  rw [contains, found]
  rfl

/-- Where a change of the members keeps their URIs, the member that is found is changed. -/
theorem find?_map_of_uri {change : Resource → Resource}
    (keeps : ∀ resource, (change resource).uri = resource.uri) (resources : List Resource)
    (other : ResourceUri) : (resources.map change).find? (·.uri = other) =
      (resources.find? (·.uri = other)).map change := by
  rw [List.find?_map]
  congr 2
  funext resource
  rw [Function.comp_apply, keeps]

theorem get?_modify {change : Resource → Resource}
    (keeps : ∀ resource : Resource, resource.uri = uri → (change resource).uri = uri)
    (other : ResourceUri) : (set.modify uri change).get? other =
      if other = uri then (set.get? other).map change else set.get? other := by
  unfold get? modify
  rw [find?_map_of_uri]
  · cases found : set.resources.find? (·.uri = other) with
    | none => simp
    | some resource =>
      have named : resource.uri = other := by simpa using List.find?_some found
      simp only [Option.map_some, named]
      split <;> rfl
  · intro resource
    split
    · next here => rw [keeps resource here, here]
    · rfl

theorem get?_modifyOthers {change : Resource → Resource}
    (keeps : ∀ resource : Resource, (change resource).uri = resource.uri)
    (other : ResourceUri) : (set.modifyOthers uri change).get? other =
      if other = uri then set.get? other else (set.get? other).map change := by
  unfold get? modifyOthers
  rw [find?_map_of_uri]
  · cases found : set.resources.find? (·.uri = other) with
    | none => simp
    | some resource =>
      have named : resource.uri = other := by simpa using List.find?_some found
      simp only [Option.map_some, named]
      split <;> rfl
  · intro resource
    split
    · rfl
    · exact keeps resource

theorem uris_modify {change : Resource → Resource}
    (keeps : ∀ resource : Resource, resource.uri = uri → (change resource).uri = uri) :
    (set.modify uri change).uris = set.uris := by
  apply uris_map
  intro resource _
  split
  · next here => rw [keeps resource here, here]
  · rfl

theorem content?_modify_update (change? : Content → Option Content) (other : ResourceUri) :
    (set.modify uri (·.update change?)).content? other =
      if other = uri then (set.content? other).map fun content => (change? content).getD content
      else set.content? other := by
  rw [content?, get?_modify fun resource named => by simpa using named]
  split
  · cases found : set.get? other <;> simp [content?, found, Resource.content_update]
  · rfl

theorem content?_modifyOthers_update (change? : Content → Option Content) (other : ResourceUri) :
    (set.modifyOthers uri (·.update change?)).content? other =
      if other = uri then set.content? other
      else (set.content? other).map fun content => (change? content).getD content := by
  rw [content?, get?_modifyOthers fun resource => by simp]
  split
  · rfl
  · cases found : set.get? other <;> simp [content?, found, Resource.content_update]

/-! ### Loading -/

theorem create_ok (done : set.create uri = .ok next) :
    set.contains uri = false ∧ ∃ language, set.languages.for? uri = some language ∧
      next = { set with
        resources := set.resources ++ [{ uri, language := some language, stamp := ⟨set.serial, 0⟩ }]
        serial := set.serial + 1 } := by
  unfold create at done
  split at done
  · cases done
  · next fresh =>
    split at done
    · cases done
    · next language spoken =>
      have fresh' : ({ set with serial := set.serial + 1 } : ResourceSet).contains uri = false := by
        simpa [contains, get?] using fresh
      simp only [make, add, fresh'] at done
      cases done
      exact ⟨by simpa using fresh, language, spoken, rfl⟩

theorem get?_create (done : set.create uri = .ok next) (apart : other ≠ uri) :
    next.get? other = set.get? other := by
  obtain ⟨_, language, _, rfl⟩ := create_ok done
  simp [get?, List.find?_append, apart.symm]

theorem content?_create (done : set.create uri = .ok next) : next.content? other = set.content? other := by
  by_cases here : other = uri
  · subst here
    obtain ⟨fresh, language, _, rfl⟩ := create_ok done
    have missing : set.resources.find? (·.uri = other) = none := by simpa [contains, get?] using fresh
    simp [content?, get?, List.find?_append, missing]
  · rw [content?, get?_create done here, content?]

theorem get?_loadMember {text : String} (apart : other ≠ uri) :
    (set.loadMember uri text).1.get? other = set.get? other := by
  unfold loadMember
  split
  · rfl
  · next resource found =>
    split
    · rfl
    · next loaded report done =>
      obtain ⟨language, _, rfl⟩ := Resource.load_ok done
      have keeps : ∀ other : Resource, other.uri = uri →
          (resource.put (.ofParsed (language.parse text) (some (.ofText text)))).uri = uri :=
        fun _ _ => (resource.uri_put _).trans (uri_of_get? found)
      rw [get?_modify keeps, if_neg apart]

theorem get?_demoteInto (other : ResourceUri) : (set.demoteInto uri).get? other =
    if other = uri then set.get? other else (set.get? other).map (·.demote uri) :=
  get?_modifyOthers (fun resource => resource.uri_update _) other

-- A member is opened where its content is.
theorem content?_of_demoted (opened : next.get? other = (set.get? other).map (·.demote uri)) :
    next.content? other = (set.content? other).map fun content =>
      (content.demote? uri).getD content := by
  rw [content?, opened]
  cases found : set.get? other <;> simp [content?, found, Resource.demote, Resource.content_update]

-- A member gives up its content, or goes.
theorem content?_of_withdrawn (own : next.content? uri = none)
    (others : ∀ other ≠ uri, next.get? other = (set.get? other).map (·.demote uri))
    (other : ResourceUri) : next.content? other = if other = uri then none
      else (set.content? other).map fun content => (content.demote? uri).getD content := by
  split
  · next here => rw [here, own]
  · next apart => exact content?_of_demoted (others other apart)

/-- What is bound to a resource that is read anew is opened in all others. -/
theorem get?_load_of_loaded {text : String} (loaded : set.isLoaded uri = true)
    (apart : other ≠ uri) :
    (set.load uri text).1.get? other = (set.get? other).map (·.demote uri) := by
  unfold load
  rw [if_pos (contains_of_isLoaded loaded), if_pos loaded, get?_loadMember apart,
    get?_demoteInto, if_neg apart]

theorem content?_load_of_loaded {text : String} (loaded : set.isLoaded uri = true)
    (apart : other ≠ uri) : (set.load uri text).1.content? other =
      (set.content? other).map fun content => (content.demote? uri).getD content :=
  content?_of_demoted (get?_load_of_loaded loaded apart)

/-- Asking the loader changes no member. -/
theorem request_eq {result : Except Error String} (asked : set.request uri = (next, result)) :
    ∃ requests, next = { set with requests } := by
  unfold request at asked
  split at asked
  · cases asked
    exact ⟨set.requests, rfl⟩
  · cases asked
    exact ⟨_, rfl⟩

/-! ### Letting members go -/

theorem unload_of_absent (absent : set.contains uri = false) : (set.unload uri).1 = set := by
  unfold unload
  rw [absent]
  rfl

theorem get?_unload (present : set.contains uri = true) (other : ResourceUri) :
    (set.unload uri).1.get? other = if other = uri then (set.get? other).map Resource.unload
      else (set.get? other).map (·.demote uri) := by
  have found := fun other => @get?_modify set uri Resource.unload
    (fun resource named => resource.uri_unload.trans named) other
  unfold unload
  rw [if_pos present]
  dsimp only
  rw [get?_demoteInto]
  split
  · next here => rw [found, if_pos here]
  · next apart => rw [found, if_neg apart]

theorem content?_unload (present : set.contains uri = true) (other : ResourceUri) :
    (set.unload uri).1.content? other = if other = uri then none
      else (set.content? other).map fun content => (content.demote? uri).getD content := by
  refine content?_of_withdrawn ?_ (fun other apart => (get?_unload present other).trans (if_neg apart))
    other
  rw [content?, get?_unload present, if_pos rfl]
  cases set.get? uri <;> simp

theorem get?_remove (present : set.contains uri = true) (other : ResourceUri) :
    (set.remove uri).1.get? other = if other = uri then none
      else (set.get? other).map (·.demote uri) := by
  obtain ⟨resource, found⟩ := Option.isSome_iff_exists.mp present
  unfold remove
  rw [found]
  dsimp only
  rw [get?_demoteInto]
  split
  · next here =>
    subst here
    simp [get?]
  · next apart =>
    have kept : (set.resources.filter (·.uri ≠ uri)).find? (·.uri = other) =
        set.resources.find? (·.uri = other) := by
      rw [List.find?_filter]
      congr 1
      funext member
      by_cases named : member.uri = other <;> simp [named, apart]
    unfold get?
    rw [kept]

theorem content?_remove (present : set.contains uri = true) (other : ResourceUri) :
    (set.remove uri).1.content? other = if other = uri then none
      else (set.content? other).map fun content => (content.demote? uri).getD content := by
  refine content?_of_withdrawn ?_ (fun other apart => (get?_remove present other).trans (if_neg apart))
    other
  rw [content?, get?_remove present, if_pos rfl]
  rfl

theorem remove_of_absent (absent : set.contains uri = false) : (set.remove uri).1 = set := by
  have missing : set.get? uri = none := by simpa [contains] using absent
  unfold remove
  rw [missing]

/-- The others are left, and open their references into what was a member. -/
theorem get?_remove_eq (other : ResourceUri) : (set.remove uri).1.get? other =
    if other = uri then none
    else if set.contains uri then (set.get? other).map (·.demote uri) else set.get? other := by
  cases present : set.contains uri with
  | true => rw [get?_remove present, if_pos rfl]
  | false =>
    rw [remove_of_absent present, if_neg Bool.false_ne_true]
    split
    · next here =>
      rw [here]
      simpa [contains] using present
    · rfl

theorem get?_remove_self : (set.remove uri).1.get? uri = none := by
  rw [get?_remove_eq, if_pos rfl]

theorem language_remove_of_ne (apart : other ≠ uri) :
    ((set.remove uri).1.get? other).map (·.language) = (set.get? other).map (·.language) := by
  rw [get?_remove_eq, if_neg apart]
  split
  · rw [Option.map_map]
    congr 1
    funext resource
    exact resource.language_update _
  · rfl

theorem isLoaded_remove_of_ne (apart : other ≠ uri) :
    (set.remove uri).1.isLoaded other = set.isLoaded other := by
  unfold isLoaded
  rw [get?_remove_eq, if_neg apart]
  split
  · cases found : set.get? other with
    | none => rfl
    | some resource => simp [Resource.isLoaded, Resource.demote, Resource.content_update]
  · rfl

end ResourceSet

end Crosslink
