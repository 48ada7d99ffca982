import Crosslink.Proofs.Description.Affected
import Crosslink.Proofs.Description.Cache
import Crosslink.Proofs.Description.ReferenceIndex
import Crosslink.Proofs.Linking.Searching
import Crosslink.Proofs.Linking.Simultaneous

/-! Scopes and indexes.

A scope looks at the trees as they are, and an index at descriptions that were computed before and
may have been kept. Where the descriptions come from a cache that has seen all that happened to
the set, both find the same nodes under a name, in the same order.
-/

set_option autoImplicit false

namespace Crosslink.Description

open Linking

/-! ### An index that is filled once -/

namespace ReferenceIndex

variable {descriptions : List Description}

theorem latest_of_updates (once : (descriptions.map (·.uri)).Nodup) :
    latest (descriptions.map .update) = descriptions := by
  induction descriptions using List.reverseRecOn with
  | nil => rfl
  | append_singleton earlier last ih =>
    rw [List.map_append, List.map_singleton] at once
    obtain ⟨once, _, apart⟩ := List.nodup_append.mp once
    have fresh : ¬ earlier.any (·.uri = last.uri) = true := by
      simp only [List.any_eq_true, decide_eq_true_eq, not_exists, not_and]
      exact fun other member same =>
        apart _ (List.mem_map_of_mem member) _ (List.mem_singleton_self _) same
    have recorded : latest ((earlier ++ [last]).map .update) =
        record (latest (earlier.map .update)) (.update last) := by
      rw [List.map_append, latest, List.foldl_append]
      rfl
    rw [recorded, ih once, record, if_neg fresh]

theorem exportsNamed_of_updates (once : (descriptions.map (·.uri)).Nodup) (name : QualifiedName) :
    (run (descriptions.map .update)).exportsNamed name =
      descriptions.flatMap (·.exportsNamed name) := by
  have mirrors := mirrors_run (descriptions.map .update)
  rw [latest_of_updates once] at mirrors
  exact mirrors.found_eq mirrors.byName name

end ReferenceIndex

/-! ### Nodes that are found again under their addresses -/

def Addressable (set : ResourceSet) : Prop :=
  ∀ {uri content}, set.content? uri = some content → content.tree.Consistent ∧
    content.tree.PathNamed ∧ content.tree.size ≤ Text.indexBound

variable {naming : Naming} {interest : Feature → Bool} {set : ResourceSet} {resource : Resource}
  {feature : Feature} {name : QualifiedName}

theorem Addressable.consistent (sited : Addressable set) (once : set.uris.Nodup)
    (present : resource ∈ set.resources) {tree : Tree} (holds : resource.tree? = some tree) :
    tree.Consistent := by
  obtain ⟨content, filled, rfl⟩ := Option.map_eq_some_iff.mp holds
  exact (sited ((ResourceSet.content?_of_mem once present).trans filled)).1

/-- Whether an address conforms is told by the node that has it. -/
theorem conforms_of_site (sited : Addressable set) (once : set.uris.Nodup)
    (present : resource ∈ set.resources) {site : Site} (member : site ∈ resource.contents)
    {uri : Uri} (leads : site.uri? = some uri) : conforms set feature uri = site.fits feature := by
  cases holds : resource.tree? with
  | none => simp [Resource.contents, holds] at member
  | some tree =>
    obtain ⟨content, filled, rfl⟩ := Option.map_eq_some_iff.mp holds
    have held := (ResourceSet.content?_of_mem once present).trans filled
    obtain ⟨consistent, named, small⟩ := sited held
    rw [Resource.contents_eq holds consistent] at member
    obtain ⟨id, reached, rfl⟩ := List.mem_map.mp member
    obtain ⟨path, written, rfl⟩ := Option.map_eq_some_iff.mp leads
    have found : set.node? ⟨resource.uri, path⟩ = some ⟨resource.uri, content.tree, id⟩ :=
      ResourceSet.node?_eq_some_iff.mpr ⟨content, held, rfl, rfl,
        consistent.resolve?_fragment named small written, consistent.contains_of_mem reached⟩
    rw [conforms, found, Option.any_some]

/-- The candidates of a resource are what it exports under the name, as far as it conforms. -/
theorem conforming_exports (sited : Addressable set) (once : set.uris.Nodup)
    (present : resource ∈ set.resources) :
    (((compute (.ofNaming naming interest) resource).exportsNamed name).map (·.uri)).filter
      (conforms set feature) = candidatesIn naming feature name resource := by
  have conform := fun site member uri => @conforms_of_site set resource feature sited once present
    site member uri
  rw [exportsNamed, exports_compute interest fun tree holds => sited.consistent once present holds,
    candidatesIn_eq]
  generalize resource.contents = sites at conform
  induction sites with
  | nil => rfl
  | cons site rest ih =>
    have later := ih fun other member => conform other (List.mem_cons_of_mem _ member)
    rw [List.flatMap_cons, List.filter_append, List.map_append, List.filter_append, later,
      List.filterMap_cons]
    -- a node is exported if it has a name and an address, and both are asked of a candidate too
    cases named : naming site with
    | none => simp [exportNamed, named]
    | some own =>
      cases leads : site.uri? with
      | none => simp [exportNamed, named, leads]
      | some uri =>
        have same := conform site List.mem_cons_self uri leads
        rw [exportNamed_eq named leads]
        by_cases wanted : own = name <;> cases fits : site.fits feature <;>
          simp [wanted, fits, same]

/-! ### Whole sets -/

/-- Whatever was done to the resources and to the cache: an index that is filled with the
descriptions of all members, in their order, knows what a scope finds. It is what is exported
under the name and conforms, that of the own resource first. -/
theorem globalScope_eq_exportsNamed {session : Session}
    (run : Session.Run (Session.start (.ofNaming naming interest)) session)
    (sited : Addressable session.set) (source : Site) (feature : Feature) (name : QualifiedName) :
    let descriptions := (session.cache.describeAll session.set.resources).2
    let index := ReferenceIndex.run (descriptions.map .update)
    let found := ((index.exportsNamed name).map (·.uri)).filter (conforms session.set feature)
    globalScope naming session.set source feature name =
      found.filter (·.isIn source.resource) ++ found.filter (!·.isIn source.resource) := by
  intro descriptions index found
  have sound := ((Session.sound_start _).run run).1
  have described : descriptions =
      session.set.resources.map (compute (.ofNaming naming interest)) := sound.describes.describeAll
  have distinct : (descriptions.map (·.uri)).Nodup := by
    rw [described, List.map_map]
    exact sound.once
  have same : found = session.set.resources.flatMap (candidatesIn naming feature name) := by
    calc found
        = (((descriptions.flatMap (·.exportsNamed name)).map (·.uri)).filter
            (conforms session.set feature)) := by
          rw [← ReferenceIndex.exportsNamed_of_updates distinct]
      _ = session.set.resources.flatMap fun resource =>
            (((compute (.ofNaming naming interest) resource).exportsNamed name).map (·.uri)).filter
              (conforms session.set feature) := by
          rw [described, List.flatMap_map, List.map_flatMap, List.filter_flatMap]
      _ = session.set.resources.flatMap (candidatesIn naming feature name) :=
          List.flatMap_congr fun resource present =>
            conforming_exports sited sound.once present
  rw [same]
  exact globalScope_eq_partition sound.once source

/-! ### A type that is exported twice -/

def twins : ResourceSet :=
  ((({ languages := ({} : Languages).register Types.language } : ResourceSet).load firstUri
    "type A").1.load secondUri "type A").1

def reread : Session where
  set := (twins.load firstUri "type B type A").1
  cache := ((Session.start (.standard .simple)).cache.describeAll twins.resources).1

theorem run_reread : Session.Run (Session.start (.standard .simple)) reread := by
  let opened : Session :=
    { Session.start (.standard .simple) with
      set := { languages := ({} : Languages).register Types.language } }
  let half : Session := { opened with set := (opened.set.load firstUri "type A").1 }
  let full : Session := { opened with set := twins }
  let described : Session := { full with cache := (full.cache.describeAll full.set.resources).1 }
  have opens : Session.Step (Session.start (.standard .simple)) opened := .provide {} _ none
  have reads : Session.Step opened half := .load firstUri "type A"
  have reads' : Session.Step half full := .load secondUri "type A"
  have describes : Session.Step full described := .describeAll
  have rereads : Session.Step described reread := .load firstUri "type B type A"
  exact .tail (.tail (.tail (.tail (.single opens) reads) reads') describes) rereads

theorem addressable_reread : Addressable reread.set := by
  have reached : Reached .simple reread.set :=
    .load (.load (.load (.start {}) firstUri _) secondUri _) firstUri _
  have sizes : reread.set.resources.map (fun resource =>
      resource.content.map fun content => content.tree.size) = [some 3, some 2] := by cbv
  intro uri content held
  have sound := (inStep_of_reached reached).sound held
  refine ⟨sound.consistent, sound.named, ?_⟩
  obtain ⟨resource, found, filled⟩ := Option.bind_eq_some_iff.mp held
  have sized : some content.tree.size ∈ [some 3, some 2] := by
    rw [← sizes]
    exact List.mem_map.mpr ⟨resource, ResourceSet.mem_of_get? found, by rw [filled]; rfl⟩
  simp only [List.mem_cons, Option.some.injEq, List.not_mem_nil, or_false] at sized
  rcases sized with size | size <;> rw [size] <;> decide

/-- From the second resource, its own type comes first, and then the one that the first resource
holds since. -/
theorem globalScope_reread :
    globalScope .simple reread.set ⟨secondUri, (Types.parse "type A").tree, 1⟩
      (Feature.reference "extends" "Type").cross ⟨["A"]⟩ =
        [⟨secondUri, .ofSteps [⟨"elements", some 0⟩]⟩, ⟨firstUri, .ofSteps [⟨"elements", some 1⟩]⟩] := by
  refine (globalScope_eq_exportsNamed run_reread addressable_reread _ _ _).trans ?_
  cbv

end Crosslink.Description
