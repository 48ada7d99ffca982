import Crosslink.Proofs.Linking.Simultaneous
import Mathlib

/-! How a scope searches a set.

A scope lists what it found in the own resource first. Apart from that it finds what a search of
all members finds, resource by resource, so that only the order of the members and the shapes of
their trees matter. Where some members are still to come, some candidates are, and no others.
-/

set_option autoImplicit false

namespace Crosslink.Linking

variable {naming : Naming} {scope : Scope} {set next : ResourceSet} {uri home : ResourceUri}
  {feature : Feature} {name : QualifiedName} {site other : Site} {pending : Pending} {target : Uri}

/-! ### All members -/

/-- What is found in a part of the members is what is found there among all that is found. -/
theorem filter_flatMap_of_const {α β : Type} {search : α → List β} {keep : β → Bool}
    {part : α → Bool} (told : ∀ item, ∀ found ∈ search item, keep found = part item)
    (items : List α) : (items.flatMap search).filter keep = (items.filter part).flatMap search := by
  induction items with
  | nil => rfl
  | cons item rest ih =>
    rw [List.flatMap_cons, List.filter_append, ih, List.filter_cons]
    split
    · next inside =>
      have all : (search item).filter keep = search item :=
        List.filter_eq_self.mpr fun found member => (told item found member).trans inside
      rw [List.flatMap_cons, all]
    · next outside =>
      rw [List.filter_eq_nil_iff.mpr fun found member => (told item found member).symm ▸ outside,
        List.nil_append]

theorem filter_uri_eq (once : set.uris.Nodup) :
    set.resources.filter (·.uri = uri) = (set.get? uri).toList := by
  unfold ResourceSet.get?
  unfold ResourceSet.uris at once
  generalize set.resources = resources at once
  induction resources with
  | nil => rfl
  | cons resource rest ih =>
    obtain ⟨apart, once⟩ := List.nodup_cons.mp once
    by_cases here : resource.uri = uri
    · subst here
      have none_left : rest.filter (·.uri = resource.uri) = [] := by
        refine List.filter_eq_nil_iff.mpr fun other member same => apart ?_
        exact List.mem_map.mpr ⟨other, member, by simpa using same⟩
      simp [none_left]
    · simp [here, ih once]

theorem resource_of_candidatesIn {resource : Resource}
    (member : target ∈ candidatesIn naming feature name resource) :
    target.resource = resource.uri ∧ resource.content.isSome = true := by
  obtain ⟨found, held, address⟩ := List.mem_filterMap.mp member
  have held := (List.mem_filter.mp held).1
  unfold Resource.contents Resource.tree? at held
  cases filled : resource.content with
  | none =>
    rw [filled] at held
    cases held
  | some content =>
    rw [filled] at held
    obtain ⟨id, _, there⟩ := List.mem_filterMap.mp held
    unfold Site.at? at there
    split at there
    · cases there
      obtain ⟨_, _, rfl⟩ := Option.map_eq_some_iff.mp address
      exact ⟨rfl, rfl⟩
    · cases there

/-- What is found in a member lies in it. -/
theorem isIn_of_candidatesIn {resource : Resource}
    (member : target ∈ candidatesIn naming feature name resource) (uri : ResourceUri) :
    target.isIn uri = decide (resource.uri = uri) := by
  rw [Uri.isIn, (resource_of_candidatesIn member).1]

/-- A scope searches all members, and lists what it found in the own one first. -/
theorem globalScope_eq_partition (once : set.uris.Nodup) (source : Site) :
    globalScope naming set source feature name =
      (set.resources.flatMap (candidatesIn naming feature name)).filter (·.isIn source.resource) ++
        (set.resources.flatMap (candidatesIn naming feature name)).filter
          (!·.isIn source.resource) := by
  have told : ∀ resource, ∀ target ∈ candidatesIn naming feature name resource,
      target.isIn source.resource = decide (resource.uri = source.resource) :=
    fun _ _ member => isIn_of_candidatesIn member source.resource
  have untold : ∀ resource, ∀ target ∈ candidatesIn naming feature name resource,
      (!target.isIn source.resource) = decide (resource.uri ≠ source.resource) := by
    intro resource target member
    rw [told resource target member, decide_not]
  rw [filter_flatMap_of_const told, filter_flatMap_of_const untold, filter_uri_eq once,
    ← List.flatMap_append]
  rfl

/-! ### Resource by resource -/

def candidatesAt (naming : Naming) (feature : Feature) (name : QualifiedName) (set : ResourceSet)
    (uri : ResourceUri) : List Uri :=
  (set.get? uri).toList.flatMap (candidatesIn naming feature name)

theorem globalScope_eq (once : set.uris.Nodup) (source : Site) :
    globalScope naming set source feature name =
      candidatesAt naming feature name set source.resource ++
        (set.uris.filter (· ≠ source.resource)).flatMap (candidatesAt naming feature name set) := by
  unfold globalScope
  dsimp only
  rw [List.flatMap_append]
  congr 1
  rw [ResourceSet.uris, List.filter_map, List.flatMap_map]
  refine List.flatMap_congr fun resource member => ?_
  have found := ResourceSet.get?_of_mem once (List.mem_filter.mp member).1
  rw [candidatesAt, found]
  simp

theorem flatMap_filter_of_nil {α β : Type} (keep : α → Bool) {found : α → List β} {items : List α}
    (idle : ∀ item ∈ items, keep item = false → found item = []) :
    (items.filter keep).flatMap found = items.flatMap found := by
  induction items with
  | nil => rfl
  | cons item rest ih =>
    have later := ih fun other member => idle other (List.mem_cons_of_mem _ member)
    rw [List.filter_cons, List.flatMap_cons, ← later]
    split
    · rw [List.flatMap_cons]
    · next dropped =>
      rw [idle item (List.mem_cons_self ..) (by simpa using dropped), List.nil_append]

theorem candidatesAt_of_absent (absent : uri ∉ set.uris) :
    candidatesAt naming feature name set uri = [] := by
  rw [candidatesAt, ResourceSet.get?_eq_none_iff.mpr absent]
  rfl

/-- Scopes agree where all members of either state have the same to offer. -/
theorem globalScope_congr (once : set.uris.Nodup) (once' : next.uris.Nodup)
    (order : next.uris.filter (· ∈ set.uris) = set.uris.filter (· ∈ next.uris))
    (same : ∀ uri, candidatesAt naming feature name next uri =
      candidatesAt naming feature name set uri) {source source' : Site}
    (here : source'.resource = source.resource) :
    globalScope naming next source' feature name = globalScope naming set source feature name := by
  rw [globalScope_eq once, globalScope_eq once', here, same]
  congr 1
  let others (uris : List ResourceUri) := uris.filter (· ≠ source.resource)
  -- A resource that is no member in one of the states has nothing to offer in the other one.
  have shared : (others next.uris).filter (· ∈ set.uris) =
      (others set.uris).filter (· ∈ next.uris) := by
    rw [List.filter_comm, order, List.filter_comm]
  calc (others next.uris).flatMap (candidatesAt naming feature name next)
      = ((others next.uris).filter (· ∈ set.uris)).flatMap
          (candidatesAt naming feature name next) := by
        refine (flatMap_filter_of_nil _ fun uri _ gone => ?_).symm
        rw [same]
        exact candidatesAt_of_absent (by simpa using gone)
    _ = ((others set.uris).filter (· ∈ next.uris)).flatMap
          (candidatesAt naming feature name set) := by
        rw [shared]
        exact List.flatMap_congr fun uri _ => same uri
    _ = (others set.uris).flatMap (candidatesAt naming feature name set) := by
        refine flatMap_filter_of_nil _ fun uri _ gone => ?_
        rw [← same]
        exact candidatesAt_of_absent (by simpa using gone)

theorem candidatesAt_of_closed (closed : set.content? uri = none) :
    candidatesAt naming feature name set uri = [] := by
  refine List.eq_nil_iff_forall_not_mem.mpr fun target member => ?_
  obtain ⟨resource, found, member⟩ := List.mem_flatMap.mp member
  have filled := (resource_of_candidatesIn member).2
  rw [ResourceSet.content?, Option.mem_toList.mp found, Option.bind_some] at closed
  rw [closed] at filled
  cases filled

theorem candidatesAt_of_shape (ignores : naming.IgnoresReferences)
    (same : (next.content? uri).map (·.tree.shape) = (set.content? uri).map (·.tree.shape)) :
    candidatesAt naming feature name next uri = candidatesAt naming feature name set uri := by
  cases held : set.content? uri with
  | none =>
    rw [held] at same
    rw [candidatesAt_of_closed held, candidatesAt_of_closed (Option.map_eq_none_iff.mp same)]
  | some content =>
    obtain ⟨after, held', shapes⟩ := ResourceSet.content_of_shape same held
    obtain ⟨resource, found, filled⟩ := Option.bind_eq_some_iff.mp held
    obtain ⟨resource', found', filled'⟩ := Option.bind_eq_some_iff.mp held'
    have named : resource'.uri = resource.uri :=
      (ResourceSet.uri_of_get? found').trans (ResourceSet.uri_of_get? found).symm
    have alike : resource'.content.map (·.tree.shape) = resource.content.map (·.tree.shape) := by
      rw [filled, filled', Option.map_some, Option.map_some, shapes]
    rw [candidatesAt, candidatesAt, found, found', Option.toList_some, Option.toList_some,
      List.flatMap_singleton, List.flatMap_singleton, candidatesIn_of_shape ignores named alike]

/-- Sets that differ in references only have the same candidates, in the same order. -/
theorem globalScope_of_alike (ignores : naming.IgnoresReferences) (once : set.uris.Nodup)
    (uris : next.uris = set.uris) (alike : set.Alike next) (tree : Tree) :
    globalScope naming next { site with tree } feature name =
      globalScope naming set site feature name := by
  refine globalScope_congr once (uris ▸ once) (by rw [uris]) (fun uri => ?_) rfl
  exact candidatesAt_of_shape ignores (alike uri)

/-- An address is found as often as it is in its own resource. -/
theorem count_globalScope (once : set.uris.Nodup) (source : Site) (target : Uri) :
    (globalScope naming set source feature name).count target =
      (candidatesAt naming feature name set target.resource).count target := by
  have own : (set.resources.flatMap (candidatesIn naming feature name)).filter
      (·.isIn target.resource) = candidatesAt naming feature name set target.resource := by
    rw [filter_flatMap_of_const fun _ _ member => isIn_of_candidatesIn member target.resource,
      filter_uri_eq once]
    rfl
  have inside : target.isIn target.resource = true := decide_eq_true rfl
  rw [globalScope_eq_partition once, (List.filter_append_perm _ _).count_eq, ← own]
  exact (List.count_filter (p := (Uri.isIn · target.resource)) inside).symm

theorem mem_globalScope_iff (once : set.uris.Nodup) :
    target ∈ globalScope naming set site feature name ↔
      target ∈ candidatesAt naming feature name set target.resource := by
  rw [← List.count_pos_iff, count_globalScope once, List.count_pos_iff]

/-- Whether a node is a candidate depends on the tree of its own resource alone. -/
theorem mem_globalScope_of_shape (ignores : naming.IgnoresReferences) (once : set.uris.Nodup)
    (once' : next.uris.Nodup) (same : (next.content? target.resource).map (·.tree.shape) =
      (set.content? target.resource).map (·.tree.shape)) :
    target ∈ globalScope naming next other feature name ↔
      target ∈ globalScope naming set site feature name := by
  rw [mem_globalScope_iff once', mem_globalScope_iff once, candidatesAt_of_shape ignores same]

/-! ### What fits a reference -/

theorem mem_fitting_of_name (here : context? set home pending = some (site, feature))
    (waits : pending.proxy = .name name) : target ∈ fitting scope set home pending ↔
      target ∈ scope set site feature name ∧ conforms set feature target = true := by
  unfold fitting
  rw [here, waits]
  exact List.mem_filter

theorem isLoaded_of_conforms (fits : conforms set feature target = true) :
    set.isLoaded target.resource = true := by
  obtain ⟨_, leads, _⟩ := conforms_iff.mp fits
  obtain ⟨content, held, _⟩ := ResourceSet.node?_eq_some_iff.mp leads
  exact ResourceSet.isLoaded_iff.mpr ⟨content, held⟩

theorem idle_of_name (named : pending.proxy = .name name) : Idle set home pending :=
  fun _ _ _ known => nomatch named.symm.trans known

/-- Where the same candidates fit a name, the verdict is the same. -/
theorem verdict_of_fitting (ignores : naming.IgnoresReferences)
    (same : (next.content? home).map (·.tree.shape) = (set.content? home).map (·.tree.shape))
    (named : pending.proxy = .name name)
    (fits : fitting (globalScope naming) next home pending =
      fitting (globalScope naming) set home pending) :
    verdict (globalScope naming) next home pending =
      verdict (globalScope naming) set home pending := by
  have ignores := globalScope_ignoresReferences ignores
  rcases contexts_of_shape same pending with ⟨there, here⟩ | ⟨site, tree, feature, shapes, here, there⟩
  · rw [verdict_of_lost there, verdict_of_lost here]
  · rw [verdict_of_idle ignores (idle_of_name named) there,
      verdict_of_idle ignores (idle_of_name named) here, fits, Verdict.of_of_shape shapes]

theorem verdict_of_alike (ignores : naming.IgnoresReferences) (once : set.uris.Nodup)
    (uris : next.uris = set.uris) (alike : set.Alike next) (named : pending.proxy = .name name) :
    verdict (globalScope naming) next home pending =
      verdict (globalScope naming) set home pending := by
  refine verdict_of_fitting ignores (alike home) named ?_
  unfold fitting
  rcases contexts_of_shape (alike home) pending with
    ⟨there, here⟩ | ⟨site, tree, feature, shapes, here, there⟩
  · rw [there, here]
  · have conform : conforms next feature = conforms set feature :=
      funext fun target => conforms_of_shape (alike target.resource)
    rw [there, here, named]
    dsimp only
    rw [globalScope_of_alike ignores once uris alike, conform]

/-- What is loaded in one set has the same shape in another, where more may be loaded. -/
def Part (set all : ResourceSet) : Prop :=
  ∀ uri content, set.content? uri = some content →
    (all.content? uri).map (·.tree.shape) = some content.tree.shape

section Parts

variable {all : ResourceSet} {content : Content} (part : Part set all)
include part

theorem Part.shape (held : set.content? uri = some content) :
    (set.content? uri).map (·.tree.shape) = (all.content? uri).map (·.tree.shape) := by
  rw [held, part uri content held, Option.map_some]

/-- What fits a name in a part fits it in the whole, and no more often there than here. -/
theorem Part.fitting_subperm (ignores : naming.IgnoresReferences) (once : set.uris.Nodup)
    (once' : all.uris.Nodup) (held : set.content? home = some content)
    (named : pending.proxy = .name name) :
    (fitting (globalScope naming) set home pending).Subperm
      (fitting (globalScope naming) all home pending) := by
  rcases contexts_of_shape (part.shape held) pending with
    ⟨here, there⟩ | ⟨site, tree, feature, shapes, there, here⟩
  · unfold fitting
    rw [here, there]
  · refine List.subperm_ext_iff.mpr fun target member => ?_
    obtain ⟨_, fits⟩ := (mem_fitting_of_name here named).mp member
    obtain ⟨_, held'⟩ := ResourceSet.isLoaded_iff.mp (isLoaded_of_conforms fits)
    have same := part.shape held'
    have fits' : conforms all feature target = true := (conforms_of_shape same).symm.trans fits
    unfold fitting
    rw [here, there, named]
    dsimp only
    rw [List.count_filter fits, List.count_filter fits', count_globalScope once,
      count_globalScope once', candidatesAt_of_shape ignores same]

/-- Where at most one node of the whole fits, nothing fits in a part, or the same node does. -/
theorem Part.fitting_eq (ignores : naming.IgnoresReferences) (once : set.uris.Nodup)
    (once' : all.uris.Nodup) (held : set.content? home = some content)
    (named : pending.proxy = .name name)
    (alone : (fitting (globalScope naming) all home pending).length ≤ 1) :
    fitting (globalScope naming) set home pending = [] ∨
      fitting (globalScope naming) set home pending =
        fitting (globalScope naming) all home pending := by
  have fewer := part.fitting_subperm ignores once once' held named
  cases found : fitting (globalScope naming) all home pending with
  | nil =>
    rw [found] at fewer
    exact .inl (List.subperm_nil.mp fewer)
  | cons target others =>
    rw [found] at fewer alone
    obtain rfl : others = [] := by simpa using alone
    obtain ⟨_, same, sub⟩ := fewer
    rcases List.sublist_singleton.mp sub with rfl | rfl
    · exact .inl (List.nil_perm.mp same)
    · exact .inr (List.singleton_perm.mp same).symm

end Parts

end Crosslink.Linking
