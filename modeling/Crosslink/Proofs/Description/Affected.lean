import Crosslink.Description.Delta
import Crosslink.Proofs.Description.Exports
import Crosslink.Proofs.Linking.Reachable
import Crosslink.Proofs.Linking.Searching

/-! What a resource that is not affected would find.

A resource that was linked in one state of a set need not be linked again in another one, unless a
resource changed that it imports from: each name that it looked up has the same candidates.
-/

set_option autoImplicit false

namespace Crosslink.Linking

open Description

variable {naming : Naming} {set next : ResourceSet} {home uri : ResourceUri}
  {deltas : List Delta} {candidate : Description} {feature : Feature} {name : QualifiedName}

/-- Two states of a set, between which the tree of one resource has not changed, and what is told
of the changes of the others. -/
structure Compared (naming : Naming) (home : ResourceUri) (set next : ResourceSet)
    (deltas : List Delta) : Prop where
  /-- Resources that are members in both states have the same order. -/
  order : next.uris.filter (· ∈ set.uris) = set.uris.filter (· ∈ next.uris)
  /-- Their classifiers are known by their names. -/
  classes : ∀ resource ∈ set.resources, ∀ other ∈ next.resources, other.uri = resource.uri →
    SameClasses resource other
  /-- The resource is loaded in both states, with the same nodes and attributes. -/
  own : ∃ tree copy image, (set.get? home).bind Resource.tree? = some tree ∧
    (next.get? home).bind Resource.tree? = some copy ∧ tree.Copy copy image
  /-- There is a delta for each other resource that came, went, or has another tree. -/
  told : ∀ uri, uri ≠ home →
    (next.get? uri).map Resource.tree? ≠ (set.get? uri).map Resource.tree? →
      ⟨uri, (set.get? uri).map (compute (.standard naming)),
        (next.get? uri).map (compute (.standard naming))⟩ ∈ deltas

/-! ### Other resources -/

/-- What is not affected imports no name that a changed resource exports or exported. -/
theorem not_exported_of_unaffected (unaffected : isAffected deltas candidate = false)
    {delta : Delta} (told : delta ∈ deltas) (changed : delta.hasChanges = true)
    (elsewhere : delta.uri ≠ candidate.uri) (imported : name ∈ candidate.importedNames) :
    ∀ entry ∈ delta.exports, entry.name ≠ name := by
  rintro entry member rfl
  have counted : delta ∈ deltas.filter fun delta =>
      delta.hasChanges && delta.uri ≠ candidate.uri :=
    List.mem_filter.mpr ⟨told, by simp [changed, elsewhere]⟩
  unfold isAffected at unaffected
  simp only [Bool.or_eq_false_iff, List.any_eq_false] at unaffected
  refine unaffected.1 entry.name imported (List.contains_iff_mem.mpr ?_)
  exact List.mem_flatMap.mpr ⟨delta, counted, List.mem_map_of_mem member⟩

theorem uri_eq_of_get? {resource other : Resource} (found : set.get? uri = some resource)
    (found' : next.get? uri = some other) : other.uri = resource.uri :=
  (ResourceSet.uri_of_get? found').trans (ResourceSet.uri_of_get? found).symm

theorem consistent_of_grown {resource : Resource} {tree : Tree} (grown : set.Grown)
    (found : set.get? uri = some resource) (holds : resource.tree? = some tree) :
    tree.Consistent := by
  obtain ⟨content, held, rfl⟩ := Option.map_eq_some_iff.mp holds
  exact ((grown.get? found).content content held).consistent

theorem exports_of_grown (grown : set.Grown) {resource : Resource}
    (found : set.get? uri = some resource) :
    (compute (.standard naming) resource).exports =
      resource.contents.flatMap (exportNamed naming) :=
  exports_compute _ fun _ holds => consistent_of_grown grown found holds

/-- What is not described as exporting a name has nothing to offer for it. -/
theorem candidatesAt_eq_nil (grown : set.Grown)
    (absent : ∀ description ∈ (set.get? uri).map (compute (.standard naming)),
      ∀ entry ∈ description.exports, entry.name ≠ name) :
    candidatesAt naming feature name set uri = [] := by
  unfold candidatesAt
  cases found : set.get? uri with
  | none => rfl
  | some resource =>
    have missing := absent _ (by rw [found]; rfl)
    rw [exports_of_grown grown found] at missing
    simp [candidatesIn_eq_nil missing]

theorem candidatesAt_of_tree? (same : (next.get? uri).map Resource.tree? =
    (set.get? uri).map Resource.tree?) :
    candidatesAt naming feature name next uri = candidatesAt naming feature name set uri := by
  unfold candidatesAt
  cases found : set.get? uri with
  | none =>
    rw [found, Option.map_none, Option.map_eq_none_iff] at same
    rw [same]
  | some resource =>
    rw [found, Option.map_some] at same
    obtain ⟨other, found', trees⟩ := Option.map_eq_some_iff.mp same
    have uris := uri_eq_of_get? found found'
    have contents : other.contents = resource.contents := by
      unfold Resource.contents
      rw [trees, uris]
    rw [found']
    simp [candidatesIn, contents]

section Compared

variable (grown : set.Grown) (grown' : next.Grown)
  (compared : Compared naming home set next deltas)
include grown grown' compared

theorem candidatesAt_of_exports {delta : Delta}
    (told : delta = ⟨uri, (set.get? uri).map (compute (.standard naming)),
      (next.get? uri).map (compute (.standard naming))⟩) (same : delta.hasChanges = false) :
    candidatesAt naming feature name next uri = candidatesAt naming feature name set uri := by
  unfold candidatesAt
  cases found : set.get? uri with
  | none =>
    cases found' : next.get? uri with
    | none => rfl
    | some other => simp [told, found, found', Delta.hasChanges] at same
  | some resource =>
    cases found' : next.get? uri with
    | none => simp [told, found, found', Delta.hasChanges] at same
    | some other =>
      have exports : (compute (.standard naming) resource).exports =
          (compute (.standard naming) other).exports := by
        simpa [told, found, found', Delta.hasChanges] using same
      rw [exports_of_grown grown found, exports_of_grown grown' found'] at exports
      have uris := uri_eq_of_get? found found'
      have classes := compared.classes resource (ResourceSet.mem_of_get? found) other
        (ResourceSet.mem_of_get? found') uris
      simp [candidatesIn_of_exports classes exports.symm]

/-- Another resource has the same to offer for a name that is imported: it has the same tree, or
exports the same, or exports the name in neither state. -/
theorem candidatesAt_of_told (described : candidate.uri = home)
    (unaffected : isAffected deltas candidate = false) (imported : name ∈ candidate.importedNames)
    (elsewhere : uri ≠ home) :
    candidatesAt naming feature name next uri = candidatesAt naming feature name set uri := by
  by_cases trees : (next.get? uri).map Resource.tree? = (set.get? uri).map Resource.tree?
  · exact candidatesAt_of_tree? trees
  · have told := compared.told uri elsewhere trees
    cases changed : Delta.hasChanges ⟨uri, (set.get? uri).map (compute (.standard naming)),
        (next.get? uri).map (compute (.standard naming))⟩ with
    | false => exact candidatesAt_of_exports grown grown' compared rfl changed
    | true =>
      have absent := not_exported_of_unaffected unaffected told changed
        (fun same => elsewhere (same.trans described)) imported
      have before : candidatesAt naming feature name set uri = [] := by
        refine candidatesAt_eq_nil grown fun description old entry member => absent entry ?_
        exact List.mem_flatMap.mpr
          ⟨description, List.mem_append_left _ (Option.mem_toList.mpr old), member⟩
      have after : candidatesAt naming feature name next uri = [] := by
        refine candidatesAt_eq_nil grown' fun description new entry member => absent entry ?_
        exact List.mem_flatMap.mpr
          ⟨description, List.mem_append_right _ (Option.mem_toList.mpr new), member⟩
      rw [before, after]

theorem candidatesAt_own (ignores : naming.IgnoresPositions) :
    candidatesAt naming feature name next home = candidatesAt naming feature name set home := by
  obtain ⟨tree, copy, image, held, held', copies⟩ := compared.own
  obtain ⟨resource, found, holds⟩ := Option.bind_eq_some_iff.mp held
  obtain ⟨other, found', holds'⟩ := Option.bind_eq_some_iff.mp held'
  have uris := uri_eq_of_get? found found'
  have consistent := consistent_of_grown grown found holds
  have consistent' := consistent_of_grown grown' found' holds'
  unfold candidatesAt
  rw [found, found']
  simp [candidatesIn_of_copy ignores uris holds holds' copies consistent consistent']

end Compared

/-- A resource that is not affected by what is told of the others finds the same candidates for
each name that it looked up, wherever in it the name is written. -/
theorem same_scope_of_unaffected (policy : naming = .simple ∨ naming = .nested)
    (reachable : set.Reachable) (reachable' : next.Reachable)
    (compared : Compared naming home set next deltas) (described : candidate.uri = home)
    (unaffected : isAffected deltas candidate = false) :
    ∀ name ∈ candidate.importedNames, ∀ feature source source',
      source.resource = home → source'.resource = home →
        globalScope naming next source' feature name =
          globalScope naming set source feature name := by
  intro name imported feature source source' here here'
  have ignores : naming.IgnoresPositions := by
    rcases policy with rfl | rfl
    · exact Naming.simple_ignoresPositions
    · exact Naming.nested_ignoresPositions
  refine globalScope_congr reachable.grown.once reachable'.grown.once compared.order
    (fun uri => ?_) (here'.trans here.symm)
  by_cases own : uri = home
  · rw [own]
    exact candidatesAt_own reachable.grown reachable'.grown compared ignores
  · exact candidatesAt_of_told reachable.grown reachable'.grown compared described unaffected
      imported own

/-! ### A neighbour that is read anew -/

/-- Any resources with different URIs can be added to a set. -/
theorem reachable_of_resources {resources : List Resource}
    (fine : ∀ resource ∈ resources, resource.WellFormed)
    (once : (resources.map (·.uri)).Nodup) : ResourceSet.Reachable { resources } := by
  induction resources using List.reverseRecOn with
  | nil => exact .start
  | append_singleton earlier last ih =>
    rw [List.map_append, List.nodup_append] at once
    have before := ih (fun resource member => fine resource (List.mem_append_left _ member)) once.1
    refine .add before (fine last (by simp)) ?_
    have missing : ResourceSet.get? { resources := earlier } last.uri = none := by
      refine ResourceSet.get?_eq_none_iff.mpr fun present => ?_
      exact once.2.2 _ present _ (by simp) rfl
    simp [ResourceSet.add, ResourceSet.contains, missing]

theorem classifier?_of_replicate {resources : List Resource} {count : Nat}
    {classifier : Classifier} (all : resources.flatMap (fun resource =>
      resource.contents.map Site.classifier?) = List.replicate count (some classifier))
    {resource : Resource} (member : resource ∈ resources) :
    ∀ site ∈ resource.contents, site.classifier? = some classifier := by
  intro site present
  have own : site.classifier? ∈ resource.contents.map Site.classifier? :=
    List.mem_map_of_mem present
  exact List.eq_of_mem_replicate (all ▸ List.mem_flatMap.mpr ⟨resource, member, own⟩)

def builtResource (uri : String) (edits : List Edit) (importedNames : List QualifiedName) :
    Resource :=
  { uri := ⟨uri⟩, content := some { tree := Tree.empty.run edits, importedNames },
    stamp := ⟨0, 0⟩ }

theorem wellFormed_built (uri : String) (edits : List Edit) (names : List QualifiedName) :
    (builtResource uri edits names).WellFormed := by
  refine ⟨?_, nofun⟩
  rintro _ ⟨⟩
  exact ⟨Tree.consistent_empty.run edits, List.nodup_nil⟩

def namedType (name : String) : List Edit :=
  [.create Types.typeClass, .setRoot 0, .setAttribute 0 "name" (.string name)]

def laterEdits : List Edit :=
  [.create Types.typeClass, .create Types.typeClass, .setRoot 1,
    .setAttribute 1 "name" (.string "A")]

def ownResource : Resource := builtResource "own.types" (namedType "A") [⟨["B"]⟩]

def ownLater : Resource := builtResource "own.types" laterEdits []

def neighbours : ResourceSet :=
  { resources := [ownResource, builtResource "neighbour.types" (namedType "B") []] }

def neighboursLater : ResourceSet :=
  { resources := [ownLater,
      builtResource "neighbour.types" (namedType "B" ++
        [.setReference 0 "extends" (.bound ⟨⟨"neighbour.types"⟩, Fragment.root⟩)]) [],
      builtResource "new.types" (namedType "C") []] }

theorem reachable_neighbours : neighbours.Reachable := by
  refine reachable_of_resources ?_ (by decide)
  simp [wellFormed_built, ownResource]

theorem reachable_neighboursLater : neighboursLater.Reachable := by
  refine reachable_of_resources ?_ (by decide)
  simp [wellFormed_built, ownLater]

def neighbourDeltas : List Delta :=
  [⟨"neighbour.types"⟩, ⟨"new.types"⟩].map fun uri =>
    ⟨uri, (neighbours.get? uri).map (compute (.standard .simple)),
      (neighboursLater.get? uri).map (compute (.standard .simple))⟩

theorem compared_neighbours :
    Compared .simple ownResource.uri neighbours neighboursLater neighbourDeltas where
  order := by decide
  classes := by
    have all : neighbours.resources.flatMap (fun resource =>
        resource.contents.map Site.classifier?) = .replicate 2 (some Types.typeClass) := by cbv
    have all' : neighboursLater.resources.flatMap (fun resource =>
        resource.contents.map Site.classifier?) = .replicate 3 (some Types.typeClass) := by cbv
    intro resource member other member' _ site present site' present' _
    rw [classifier?_of_replicate all member site present,
      classifier?_of_replicate all' member' site' present']
  own := by
    have nodes : (Tree.empty.run (namedType "A")).allNodes = [0] := by cbv
    refine ⟨_, _, fun _ => 1, rfl, rfl, rfl, ?_, ?_, ?_⟩ <;> rw [nodes] <;>
      intro id member <;> cases List.mem_singleton.mp member
    · rfl
    · exact fun name => rfl
    · rintro (_ | _ | _ | position) <;> rfl
  told := by
    intro uri elsewhere differs
    refine List.mem_map.mpr ⟨uri, Classical.byContradiction fun unknown => differs ?_, rfl⟩
    have missing : uri ∉ neighboursLater.uris := by
      have members : neighboursLater.uris = [ownResource.uri, ⟨"neighbour.types"⟩, ⟨"new.types"⟩] :=
        rfl
      rw [members, List.mem_cons, not_or]
      exact ⟨elsewhere, unknown⟩
    have missing' : uri ∉ neighbours.uris := fun present =>
      missing ((by decide : neighbours.uris ⊆ neighboursLater.uris) present)
    rw [ResourceSet.get?_eq_none_iff.mpr missing, ResourceSet.get?_eq_none_iff.mpr missing']

theorem unaffected_neighbours :
    isAffected neighbourDeltas (compute (.standard .simple) ownResource) = false := by
  cbv

/-- A resource is new, and what is found for `B` is still the type of the neighbour alone. -/
theorem same_scope_neighbours :
    let source : Site := ⟨ownResource.uri, Tree.empty.run (namedType "A"), 0⟩
    let source' : Site := ⟨ownLater.uri, Tree.empty.run laterEdits, 1⟩
    let feature := (Feature.reference "extends" "Type").cross
    neighbourDeltas.any Delta.hasChanges = true ∧
      globalScope .simple neighbours source feature ⟨["B"]⟩ =
        [⟨⟨"neighbour.types"⟩, Fragment.root⟩] ∧
      globalScope .simple neighboursLater source' feature ⟨["B"]⟩ =
        globalScope .simple neighbours source feature ⟨["B"]⟩ :=
  ⟨by cbv, by cbv, same_scope_of_unaffected (.inl rfl) reachable_neighbours
    reachable_neighboursLater compared_neighbours rfl unaffected_neighbours _
    (List.mem_singleton_self _) _ _ _ rfl rfl⟩

end Crosslink.Linking
