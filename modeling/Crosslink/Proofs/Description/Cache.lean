import Crosslink.Description.Cache
import Crosslink.Proofs.OrderedMap
import Crosslink.Proofs.ResourceSet.Evolving
import Crosslink.Types.Metamodel
import Mathlib

/-! A cache next to a set of resources that change.

Whatever is done to the resources and to the cache, the cache gives the descriptions of the present
states. What is described of a resource never changes under a stamp that was seen before.
-/

set_option autoImplicit false

namespace Crosslink.Description

/-- A set, resources that are not members of it, and a cache of descriptions. -/
structure Session where
  set : ResourceSet := {}
  loose : List Resource := []
  cache : Cache

namespace Session

def population (session : Session) : Population :=
  ⟨session.set.serial, session.set.resources ++ session.loose⟩

/-- What can be done to a resource without its set. -/
inductive Handles : Resource → Resource → Prop where
  | load {resource loaded : Resource} {text : String} {report : LoadReport}
      (done : resource.load text = .ok (loaded, report)) : Handles resource loaded
  | install (resource : Resource) (parsed : Parsed) (lines : Option LineIndex) :
      Handles resource (resource.install parsed lines).1
  | unload (resource : Resource) : Handles resource resource.unload
  | edit {α : Type} {resource edited : Resource} {change : Tree → Tree × α} {answer : α}
      {relocation : Relocation} (done : resource.edit change = .ok (edited, answer, relocation)) :
      Handles resource edited

/-- One operation of the set, of a resource or of the cache. -/
inductive Step : Session → Session → Prop where
  | provide {session : Session} (registry : Registry) (languages : Languages)
      (loader : Option Loader) :
      Step session { session with set := { session.set with registry, languages, loader } }
  /-- A resource is made, and is not a member yet. -/
  | make {session : Session} (uri : ResourceUri) (language : Option Language) :
      Step session { session with
        set := (session.set.make uri language).1
        loose := session.loose ++ [(session.set.make uri language).2] }
  | handle {session : Session} {front back : List Resource} {resource changed : Resource}
      (cut : session.loose = front ++ resource :: back) (handled : Handles resource changed) :
      Step session { session with loose := front ++ changed :: back }
  | drop {session : Session} {front back : List Resource} {resource : Resource}
      (cut : session.loose = front ++ resource :: back) :
      Step session { session with loose := front ++ back }
  | add {session : Session} {front back : List Resource} {resource : Resource}
      {next : ResourceSet} (cut : session.loose = front ++ resource :: back)
      (done : session.set.add resource = .ok next) :
      Step session { session with set := next, loose := front ++ back }
  | handleMember {session : Session} {uri : ResourceUri} {resource changed : Resource}
      (found : session.set.get? uri = some resource) (handled : Handles resource changed) :
      Step session { session with set := session.set.modify uri fun _ => changed }
  | create {session : Session} {uri : ResourceUri} {next : ResourceSet}
      (done : session.set.create uri = .ok next) : Step session { session with set := next }
  | load {session : Session} (uri : ResourceUri) (text : String) :
      Step session { session with set := (session.set.load uri text).1 }
  | unload {session : Session} (uri : ResourceUri) :
      Step session { session with set := (session.set.unload uri).1 }
  /-- A resource that is removed can be added again. -/
  | remove {session : Session} (uri : ResourceUri) :
      Step session { session with
        set := (session.set.remove uri).1
        loose := session.loose ++ (session.set.remove uri).2.toList }
  | edit {α : Type} {session : Session} (uri : ResourceUri) (change : Tree → Tree × α) :
      Step session { session with set := (session.set.edit uri change).1 }
  | ensureLoaded {session : Session} (uri : ResourceUri) :
      Step session { session with set := (session.set.ensureLoaded uri).1 }
  | fetch {session : Session} (target : Uri) :
      Step session { session with set := (session.set.fetch target).1 }
  | link {session : Session} (scope : Linking.Scope) (stop : Linking.Progress → Bool)
      (turns : Nat) : Step session { session with set := Linking.linkWithin scope stop turns session.set }
  | describe {session : Session} {resource : Resource}
      (present : resource ∈ session.population.resources) :
      Step session { session with cache := (session.cache.describe resource).1 }
  | describeAll {session : Session} :
      Step session { session with cache := (session.cache.describeAll session.set.resources).1 }
  | delta {session : Session} {resource : Resource}
      (present : resource ∈ session.population.resources) :
      Step session { session with cache := (session.cache.delta resource).1 }
  | removal {session : Session} (uri : ResourceUri) :
      Step session { session with cache := (session.cache.removal uri).1 }
  | invalidate {session : Session} (uri : ResourceUri) :
      Step session { session with cache := session.cache.invalidate uri }
  | clear {session : Session} : Step session { session with cache := session.cache.clear }

def Run : Session → Session → Prop := Relation.ReflTransGen Step

def start (strategy : Strategy) : Session := { cache := { strategy } }

/-! ### The resources -/

variable {strategy : Strategy} {session next : Session}

theorem Handles.evolves {resource changed : Resource} (handled : Handles resource changed) :
    resource.Evolves changed := by
  cases handled with
  | load done => exact Resource.evolves_load done
  | install parsed lines => exact resource.evolves_put _
  | unload => exact resource.evolves_unload
  | edit done => exact Resource.evolves_edit done

structure Evolves (session next : Session) : Prop where
  once : next.set.uris.Nodup
  population : session.population.Evolves next.population

theorem Evolves.trans {last : Session} (first : session.Evolves next)
    (second : next.Evolves last) : session.Evolves last :=
  ⟨second.once, first.population.trans second.population⟩

/-- What an operation of the set does, while the others stand apart. -/
theorem evolves_of_set {set : ResourceSet} (evolves : session.set.Evolves set) (cache : Cache) :
    session.Evolves { session with set, cache } :=
  ⟨evolves.once, evolves.population.append session.loose⟩

theorem evolves_of_handle {front back : List Resource} {resource changed : Resource}
    (once : session.set.uris.Nodup) (cut : session.loose = front ++ resource :: back)
    (evolves : resource.Evolves changed) :
    session.Evolves { session with loose := front ++ changed :: back } := by
  refine ⟨once, ?_⟩
  have replaced := @Population.evolves_replace session.set.serial
    (session.set.resources ++ front) back resource changed evolves
  unfold population
  rwa [cut, ← List.append_assoc, ← List.append_assoc]

theorem evolves_of_add {front back : List Resource} {resource : Resource} {set : ResourceSet}
    (once : session.set.uris.Nodup) (cut : session.loose = front ++ resource :: back)
    (done : session.set.add resource = .ok set) :
    session.Evolves { session with set, loose := front ++ back } := by
  unfold ResourceSet.add at done
  split at done
  · cases done
  · next absent =>
    cases done
    refine ⟨ResourceSet.nodup_uris_append once (Bool.eq_false_iff.mpr absent),
      Population.evolves_of_subperm (List.Perm.subperm ?_)⟩
    dsimp only
    rw [cut, List.append_assoc, List.singleton_append]
    exact (List.perm_middle.symm).append_left _

theorem subperm_of_apart {resources : List Resource} {resource : Resource}
    {keep : Resource → Bool} (member : resource ∈ resources) (goes : keep resource = false) :
    (resources.filter keep ++ [resource]).Subperm resources := by
  have single : [resource].Sublist (resources.filter fun other => !keep other) :=
    List.singleton_sublist.mpr (List.mem_filter.mpr ⟨member, by simp [goes]⟩)
  exact (single.append_left _).subperm.trans (List.filter_append_perm keep resources).subperm

theorem evolves_of_remove (once : session.set.uris.Nodup) (uri : ResourceUri) :
    session.Evolves { session with
      set := (session.set.remove uri).1
      loose := session.loose ++ (session.set.remove uri).2.toList } := by
  unfold ResourceSet.remove
  cases found : session.set.get? uri with
  | none =>
    simp only [Option.toList_none, List.append_nil]
    exact ⟨once, .refl _⟩
  | some resource =>
    -- First the resource stands apart as it was, and then references into it are opened.
    let left : ResourceSet :=
      { session.set with resources := session.set.resources.filter (·.uri ≠ uri) }
    have goes : decide (resource.uri ≠ uri) = false := by
      simp [ResourceSet.uri_of_get? found]
    have parts := (List.subperm_append_right session.loose).mpr
      (@subperm_of_apart _ _ (·.uri ≠ uri) (ResourceSet.mem_of_get? found) goes)
    have apart : session.Evolves
        { session with set := left, loose := session.loose ++ [resource] } := by
      refine ⟨(List.filter_sublist.map _).nodup once, Population.evolves_of_subperm ?_⟩
      refine List.Subperm.trans (List.Perm.subperm ?_) parts
      rw [List.append_assoc]
      exact List.perm_append_comm.append_left _
    exact apart.trans (evolves_of_set (ResourceSet.evolves_demoteInto apart.once uri) _)

theorem evolves_of_step (once : session.set.uris.Nodup) (step : Step session next) :
    session.Evolves next := by
  cases step with
  | provide registry languages loader => exact ⟨once, .refl _⟩
  | make uri language =>
    refine ⟨once, ?_⟩
    have made := @Population.evolves_make session.set.serial session.population.resources
      (session.set.make uri language).2 rfl
    unfold population at made ⊢
    rwa [List.append_assoc] at made
  | handle cut handled => exact evolves_of_handle once cut handled.evolves
  | drop cut =>
    refine ⟨once, Population.evolves_of_subperm ?_⟩
    rw [cut]
    exact (((List.sublist_cons_self _ _).append_left _).append_left _).subperm
  | add cut done => exact evolves_of_add once cut done
  | handleMember found handled =>
    exact evolves_of_set (ResourceSet.evolves_replace once found handled.evolves) _
  | create done => exact evolves_of_set (ResourceSet.evolves_create once done) _
  | load uri text => exact evolves_of_set (ResourceSet.evolves_load once uri text) _
  | unload uri => exact evolves_of_set (ResourceSet.evolves_unload once uri) _
  | remove uri => exact evolves_of_remove once uri
  | edit uri change => exact evolves_of_set (ResourceSet.evolves_edit once uri change) _
  | ensureLoaded uri => exact evolves_of_set (ResourceSet.evolves_ensureLoaded once uri) _
  | fetch target => exact evolves_of_set (ResourceSet.evolves_fetch once target) _
  | link scope stop turns => exact evolves_of_set (Linking.evolves_link once scope stop turns) _
  | describe present => exact evolves_of_set (.refl once) _
  | describeAll => exact evolves_of_set (.refl once) _
  | delta present => exact evolves_of_set (.refl once) _
  | removal uri => exact evolves_of_set (.refl once) _
  | invalidate uri => exact evolves_of_set (.refl once) _
  | clear => exact evolves_of_set (.refl once) _

/-! ### The cache -/

/-- A kept description is the one of a past state, and of the present state if the stamp is the
present one. -/
structure Remembers (strategy : Strategy) (population : Population) (description : Description) :
    Prop where
  known : description.stamp.serial < population.serial
  past : ∀ resource ∈ population.resources, resource.stamp.serial = description.stamp.serial →
    description.stamp.revision ≤ resource.stamp.revision
  present : ∀ resource ∈ population.resources, resource.stamp = description.stamp →
    description = compute strategy resource

variable {population later : Population} {description : Description} {resource : Resource}

theorem Remembers.evolves (remembers : Remembers strategy population description)
    (evolves : population.Evolves later) : Remembers strategy later description where
  known := Nat.lt_of_lt_of_le remembers.known evolves.serial
  past := by
    intro after member same
    obtain ⟨before, start, evolved⟩ := evolves.resources after member (same ▸ remembers.known)
    have reached := remembers.past before start (evolved.serial.symm.trans same)
    exact reached.trans evolved.revision
  present := by
    intro after member same
    have serial : after.stamp.serial = description.stamp.serial := congrArg Stamp.serial same
    obtain ⟨before, start, evolved⟩ := evolves.resources after member (serial ▸ remembers.known)
    have reached := remembers.past before start (evolved.serial.symm.trans serial)
    have still := evolved.same (by rwa [same])
    have stamp : after.stamp = before.stamp := congrArg Prod.fst still
    rw [remembers.present before start (stamp.symm.trans same)]
    exact (Resource.compute_of_aspects evolved.uri still).symm

theorem remembers_compute (numbered : population.Numbered)
    (member : resource ∈ population.resources) :
    Remembers strategy population (compute strategy resource) := by
  refine ⟨numbered.below resource member, fun other present same => ?_,
    fun other present same => ?_⟩
  · rw [numbered.eq_of_serial present member same]
    rfl
  · rw [numbered.eq_of_serial present member (congrArg Stamp.serial same)]

structure Keeps (strategy : Strategy) (population : Population) (cache : Cache) : Prop where
  fixed : cache.strategy = strategy
  kept : ∀ uri description, cache.get? uri = some description →
    Remembers strategy population description

namespace Keeps

variable {cache : Cache} (keeps : Keeps strategy population cache)
include keeps

theorem evolves (evolves : population.Evolves later) : Keeps strategy later cache :=
  ⟨keeps.fixed, fun uri description found => (keeps.kept uri description found).evolves evolves⟩

/-- The answer is what the present state is described as. -/
theorem describe_eq (member : resource ∈ population.resources) :
    (cache.describe resource).2 = compute strategy resource := by
  unfold Cache.describe
  split
  · next description current =>
    obtain ⟨found, same⟩ := Option.filter_eq_some_iff.mp current
    have same : description.stamp = resource.stamp := by simpa using same
    exact (keeps.kept _ description found).present resource member same.symm
  · rw [keeps.fixed]

theorem describe (numbered : population.Numbered) (member : resource ∈ population.resources) :
    Keeps strategy population (cache.describe resource).1 := by
  unfold Cache.describe
  split
  · exact keeps
  · refine ⟨keeps.fixed, fun uri description found => ?_⟩
    dsimp only [Cache.get?] at found
    rw [OrderedMap.get?_insert] at found
    split at found
    · cases found
      rw [keeps.fixed]
      exact remembers_compute numbered member
    · exact keeps.kept uri description found

end Keeps

theorem Keeps.describeAll {cache : Cache} (keeps : Keeps strategy population cache)
    (numbered : population.Numbered) (resources : List Resource)
    (members : ∀ resource ∈ resources, resource ∈ population.resources) :
    Keeps strategy population (cache.describeAll resources).1 ∧
      (cache.describeAll resources).2 = resources.map (compute strategy) := by
  induction resources generalizing cache with
  | nil => exact ⟨keeps, rfl⟩
  | cons resource rest ih =>
    have first := members resource (List.mem_cons_self ..)
    obtain ⟨kept, answers⟩ := ih (keeps.describe numbered first) fun other member =>
      members other (List.mem_cons_of_mem _ member)
    refine ⟨kept, ?_⟩
    rw [List.map_cons, ← keeps.describe_eq first, ← answers]
    rfl

theorem Keeps.erase {cache : Cache} (keeps : Keeps strategy population cache) (uri : ResourceUri) :
    Keeps strategy population (cache.invalidate uri) := by
  refine ⟨keeps.fixed, fun other description found => ?_⟩
  dsimp only [Cache.invalidate, Cache.get?] at found
  rw [OrderedMap.get?_erase] at found
  split at found
  · cases found
  · exact keeps.kept other description found

theorem Keeps.clear {cache : Cache} (keeps : Keeps strategy population cache) :
    Keeps strategy population cache.clear :=
  ⟨keeps.fixed, nofun⟩

/-! ### Runs -/

structure Sound (strategy : Strategy) (session : Session) : Prop where
  once : session.set.uris.Nodup
  numbered : session.population.Numbered
  keeps : Keeps strategy session.population session.cache

theorem sound_start (strategy : Strategy) : Sound strategy (start strategy) where
  once := List.nodup_nil
  numbered := ⟨List.nodup_nil, nofun⟩
  keeps := ⟨rfl, nofun⟩

theorem Sound.of_evolves (sound : Sound strategy session) (evolves : session.Evolves next)
    (cache : Keeps strategy session.population next.cache) : Sound strategy next :=
  ⟨evolves.once, evolves.population.numbered sound.numbered, cache.evolves evolves.population⟩

theorem Sound.step (sound : Sound strategy session) (step : Step session next) :
    Sound strategy next := by
  refine sound.of_evolves (evolves_of_step sound.once step) ?_
  have members : ∀ resource ∈ session.set.resources, resource ∈ session.population.resources :=
    fun resource member => List.mem_append_left _ member
  cases step with
  | describe present => exact sound.keeps.describe sound.numbered present
  | describeAll => exact (sound.keeps.describeAll sound.numbered _ members).1
  | delta present => exact sound.keeps.describe sound.numbered present
  | removal uri => exact sound.keeps.erase uri
  | invalidate uri => exact sound.keeps.erase uri
  | clear => exact sound.keeps.clear
  | _ => exact sound.keeps

theorem Sound.run (sound : Sound strategy session) (run : Run session next) :
    Sound strategy next ∧ session.population.Evolves next.population := by
  induction run with
  | refl => exact ⟨sound, .refl _⟩
  | tail earlier step ih =>
    obtain ⟨sound, evolves⟩ := ih
    exact ⟨sound.step step, evolves.trans (evolves_of_step sound.once step).population⟩

structure Describes (strategy : Strategy) (session : Session) : Prop where
  describe : ∀ resource ∈ session.population.resources,
    (session.cache.describe resource).2 = compute strategy resource
  describeAll : (session.cache.describeAll session.set.resources).2 =
    session.set.resources.map (compute strategy)
  delta : ∀ resource ∈ session.population.resources,
    (session.cache.delta resource).2.new = some (compute strategy resource)

theorem Sound.describes (sound : Sound strategy session) : Describes strategy session where
  describe := fun _ member => sound.keeps.describe_eq member
  describeAll := (sound.keeps.describeAll sound.numbered _ fun _ member =>
    List.mem_append_left _ member).2
  delta := fun _ member => congrArg some (sound.keeps.describe_eq member)

/-- Resources are told apart by their serial numbers. What is described of one does not change,
unless it has a stamp that no resource ever had before. -/
structure Restamps (strategy : Strategy) (earlier session next : Session) : Prop where
  distinct : (session.population.resources.map (·.stamp.serial)).Nodup
  fresh : ∀ before ∈ session.population.resources, ∀ after ∈ next.population.resources,
    after.stamp.serial = before.stamp.serial →
      compute strategy after ≠ compute strategy before →
        ∀ old ∈ earlier.population.resources, old.stamp ≠ after.stamp

theorem Sound.restamps {earlier : Session} (sound : Sound strategy earlier)
    (run : Run earlier session) (step : Step session next) :
    Restamps strategy earlier session next := by
  obtain ⟨sound', evolves⟩ := sound.run run
  have evolves' := (evolves_of_step sound'.once step).population
  refine ⟨sound'.numbered.distinct, ?_⟩
  intro before present after later same differs old past stamp
  have serial : old.stamp.serial = after.stamp.serial := congrArg Stamp.serial stamp
  -- The resource is the one that had the stamp, and is now as it was then.
  have evolved : old.Evolves before := by
    have known := sound.numbered.below old past
    rw [serial, same] at known
    obtain ⟨origin, start, evolved⟩ := evolves.resources before present known
    have itself := sound.numbered.eq_of_serial start past (by rw [serial, same, evolved.serial])
    exact itself ▸ evolved
  have evolved' : before.Evolves after := by
    have known := same ▸ sound'.numbered.below before present
    obtain ⟨origin, start, evolved⟩ := evolves'.resources after later known
    have itself := sound'.numbered.eq_of_serial start present (evolved.serial.symm.trans same)
    exact itself ▸ evolved
  have reached := evolved.revision
  rw [congrArg Stamp.revision stamp] at reached
  exact differs (Resource.compute_of_aspects evolved'.uri (evolved'.same reached))

/-- In every session, whatever was done to the resources and to the cache, the cache answers with
the descriptions of the present states. An operation that changes what is described of a resource
gives it a stamp that was never used before. -/
theorem described_of_run (strategy : Strategy) {earlier session : Session}
    (before : Run (start strategy) earlier) (run : Run earlier session) :
    Describes strategy session ∧
      ∀ next, Step session next → Restamps strategy earlier session next := by
  obtain ⟨sound, _⟩ := (sound_start strategy).run before
  exact ⟨(sound.run run).1.describes, fun next step => sound.restamps run step⟩

/-! ### A type that is renamed -/

def typeUri : ResourceUri := ⟨"one.types"⟩

def rename (name : String) : Edit := .setAttribute 0 "name" (.string name)

def emptyResource : Resource := { uri := typeUri, stamp := ⟨0, 0⟩ }

def typeTree : Tree := Tree.empty.run [.create Types.typeClass, .setRoot 0, rename "A"]

def typeResource : Resource := (emptyResource.install { tree := typeTree } none).1

def byName : Strategy := .standard .simple

def named : Session where
  set := { resources := [typeResource], serial := 1 }
  cache := ((start byName).cache.describe typeResource).1

def renamed : Session :=
  { named with set := (named.set.edit typeUri fun tree => (tree.run [rename "B"], ())).1 }

theorem run_named : Run (start byName) named := by
  let made : Session :=
    { set := { serial := 1 }, loose := [emptyResource], cache := { strategy := byName } }
  let filled : Session := { made with loose := [typeResource] }
  let added : Session :=
    { made with set := { resources := [typeResource], serial := 1 }, loose := [] }
  have makes : Step (start byName) made := .make typeUri none
  have fills : Step made filled :=
    @Step.handle made [] [] emptyResource typeResource rfl (.install emptyResource _ none)
  have adds : Step filled added := @Step.add filled [] [] typeResource added.set rfl rfl
  have describes : Step added named := .describe (List.mem_singleton_self _)
  exact .tail (.tail (.tail (.single makes) fills) adds) describes

/-- The type is described with its new name, and the resource has a new stamp. -/
theorem described_renamed : ∃ resource ∈ renamed.set.resources,
    (renamed.cache.describe resource).2.exports.map (·.name) = [⟨["B"]⟩] ∧
      resource.stamp ≠ typeResource.stamp := by
  have renames : Step named renamed := .edit typeUri _
  have describes := (described_of_run byName run_named (.single renames)).1
  have restamps := (described_of_run byName run_named .refl).2 renamed renames
  have names : renamed.set.resources.map (fun resource =>
      ((compute byName resource).exports.map (·.name), resource.stamp.serial)) =
        [([⟨["B"]⟩], 0)] := by
    cbv
  have before : (compute byName typeResource).exports.map (·.name) = [⟨["A"]⟩] := by cbv
  obtain ⟨resource, single, same⟩ := List.map_eq_singleton_iff.mp names
  obtain ⟨name, serial⟩ := Prod.mk.inj same
  have member : resource ∈ renamed.set.resources := by simp [single]
  refine ⟨resource, member, ?_, ?_⟩
  · rw [describes.describe resource (List.mem_append_left _ member), name]
  · have differs : compute byName resource ≠ compute byName typeResource := by
      intro same
      rw [same, before] at name
      exact absurd name (by decide)
    have first : typeResource ∈ named.population.resources := by simp [population, named]
    exact (restamps.fresh typeResource first resource (List.mem_append_left _ member) serial differs
      typeResource first).symm

end Session

end Crosslink.Description
