import Crosslink.Proofs.Linking.Visits
import Crosslink.Proofs.Resource.Evolving
import Crosslink.Proofs.ResourceSet.Extending

/-! Members of a set in the course of time.

An operation of a set, or linking, leaves its members in later states: whatever changes what can be
described of a member, of the one it is asked for or of another, has its revision grow.
-/

set_option autoImplicit false

namespace Crosslink

namespace ResourceSet

def population (set : ResourceSet) : Population := ⟨set.serial, set.resources⟩

structure Evolves (set next : ResourceSet) : Prop where
  once : next.uris.Nodup
  population : set.population.Evolves next.population

variable {set next last : ResourceSet} {uri : ResourceUri} {resource : Resource}

theorem Evolves.refl (once : set.uris.Nodup) : set.Evolves set := ⟨once, .refl _⟩

theorem Evolves.trans (first : set.Evolves next) (second : next.Evolves last) :
    set.Evolves last :=
  ⟨second.once, first.population.trans second.population⟩

section Operations

variable (once : set.uris.Nodup)
include once

theorem evolves_map {change : Resource → Resource}
    (evolves : ∀ resource ∈ set.resources, resource.Evolves (change resource)) :
    set.Evolves { set with resources := set.resources.map change } where
  once := by
    rw [uris_map fun resource member => (evolves resource member).uri]
    exact once
  population := Population.evolves_map evolves

theorem evolves_modify {change : Resource → Resource}
    (evolves : ∀ resource, set.get? uri = some resource → resource.Evolves (change resource)) :
    set.Evolves (set.modify uri change) := by
  refine evolves_map once fun resource member => ?_
  split
  · next here => exact evolves resource (here ▸ get?_of_mem once member)
  · exact .refl resource

theorem evolves_modifyOthers {change : Resource → Resource}
    (evolves : ∀ resource : Resource, resource.Evolves (change resource)) :
    set.Evolves (set.modifyOthers uri change) := by
  refine evolves_map once fun resource _ => ?_
  split
  · exact .refl resource
  · exact evolves resource

theorem evolves_demoteInto (uri : ResourceUri) : set.Evolves (set.demoteInto uri) :=
  evolves_modifyOthers once fun resource => resource.evolves_update _

theorem evolves_replace {changed : Resource} (found : set.get? uri = some resource)
    (evolves : resource.Evolves changed) : set.Evolves (set.modify uri fun _ => changed) :=
  evolves_modify once fun _ member => Option.some.inj (found.symm.trans member) ▸ evolves

theorem evolves_create (done : set.create uri = .ok next) : set.Evolves next := by
  obtain ⟨fresh, language, _, rfl⟩ := create_ok done
  exact ⟨@nodup_uris_append set _ once fresh, Population.evolves_make set.resources rfl⟩

theorem evolves_loadMember (uri : ResourceUri) (text : String) :
    set.Evolves (set.loadMember uri text).1 := by
  unfold loadMember
  split
  · exact .refl once
  · next resource found =>
    split
    · exact .refl once
    · next loaded report done => exact evolves_replace once found (Resource.evolves_load done)

theorem evolves_load (uri : ResourceUri) (text : String) : set.Evolves (set.load uri text).1 :=
  load_induction (motive := set.Evolves)
    (fun uri after => after.trans (evolves_demoteInto after.once uri))
    (fun after made => after.trans (evolves_create after.once made))
    (fun uri text after => after.trans (evolves_loadMember after.once uri text)) (.refl once) uri text

theorem evolves_unload (uri : ResourceUri) : set.Evolves (set.unload uri).1 :=
  unload_induction (motive := set.Evolves)
    (fun uri after => after.trans (evolves_demoteInto after.once uri))
    (fun _ after => after.trans
      (evolves_modify after.once fun resource _ => resource.evolves_unload)) (.refl once) uri

theorem evolves_edit {α : Type} (uri : ResourceUri) (change : Tree → Tree × α) :
    set.Evolves (set.edit uri change).1 := by
  unfold edit
  split
  · exact .refl once
  · next resource found =>
    split
    · exact .refl once
    · next edited answer relocation done =>
      have changed := evolves_replace once found (Resource.evolves_edit done)
      dsimp only
      split
      · exact changed
      · exact changed.trans (evolves_modifyOthers changed.once fun other => other.evolves_update _)

theorem evolves_ensureLoaded (uri : ResourceUri) : set.Evolves (set.ensureLoaded uri).1 :=
  ensureLoaded_induction (motive := set.Evolves) (fun _ after => ⟨after.once, after.population⟩)
    (fun uri text after => after.trans (evolves_load after.once uri text)) (.refl once) uri

theorem evolves_fetch (target : Uri) : set.Evolves (set.fetch target).1 := by
  rw [fst_fetch]
  exact evolves_ensureLoaded once target.resource

end Operations

end ResourceSet

namespace Linking

open ResourceSet

variable {scope : Scope} {set : ResourceSet} {home : ResourceUri} {pending : Pending}

theorem evolves_candidates {site : Site} {feature : Feature} {found : Resolution} {uris : List Uri}
    (once : set.uris.Nodup)
    (asked : candidates scope set home site feature pending.proxy = (found, uris)) :
    set.Evolves found.set := by
  cases waits : pending.proxy with
  | uri target =>
    rw [waits] at asked
    cases asked
    exact evolves_ensureLoaded once target.resource
  | name name =>
    rw [waits] at asked
    cases asked
    exact evolves_modify once fun resource _ => resource.evolves_update _

/-- A reference that stays open changes nothing that is described. -/
theorem evolves_reportAt (once : set.uris.Nodup) (slot : SlotKey) (diagnostic : Diagnostic) :
    set.Evolves (reportAt set home slot diagnostic) := by
  refine evolves_modify once fun resource _ => ⟨rfl, rfl, .inr ?_⟩
  cases held : resource.content <;>
    simp [Resource.aspects, Resource.tree?, Resource.importedNames, held, Content.report]

theorem evolves_resolve (once : set.uris.Nodup) :
    set.Evolves (resolve scope set home pending).set := by
  have outcome := resolves scope set home pending
  generalize (resolve scope set home pending).set = after at outcome ⊢
  cases outcome with
  | passed lost => exact .refl once
  | reported here asked fruitless =>
    have found := evolves_candidates once asked
    exact found.trans (evolves_reportAt found.once _ _)
  | bound here asked member fits warns =>
    have found := evolves_candidates once asked
    exact found.trans (evolves_modify found.once fun resource _ => resource.evolves_update _)

theorem evolves_link (once : set.uris.Nodup) (scope : Scope) (stop : Progress → Bool)
    (turns : Nat) : set.Evolves (linkWithin scope stop turns set) :=
  @linkWithin_induction scope set set.Evolves (fun _ _ _ => True) stop (fun _ => trivial)
    (fun evolved _ => ⟨evolved.trans (evolves_resolve evolved.once), trivial⟩) turns (.refl once)

end Linking

end Crosslink
