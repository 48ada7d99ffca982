import Crosslink.Description.ReferenceIndex
import Crosslink.Proofs.OrderedMap
import Mathlib

/-! What an index answers after any calls.

The calls leave a list of descriptions, one for each resource that is indexed. Every answer is the
one that a search of this list gives.
-/

set_option autoImplicit false

namespace Crosslink.Description.ReferenceIndex

/-! ### The descriptions that the calls leave -/

inductive Call where
  | update (description : Description)
  | remove (uri : ResourceUri)
  | clear

def perform (index : ReferenceIndex) : Call → ReferenceIndex
  | .update description => index.update description
  | .remove uri => index.remove uri
  | .clear => empty

def run (calls : List Call) : ReferenceIndex := calls.foldl perform empty

/-- A description takes the place of the earlier one of its resource, or comes last. -/
def record (latest : List Description) : Call → List Description
  | .update description =>
    if latest.any (·.uri = description.uri) then
      latest.map fun earlier => if earlier.uri = description.uri then description else earlier
    else latest ++ [description]
  | .remove uri => latest.filter (·.uri ≠ uri)
  | .clear => []

/-- The latest description of each resource, by when the resource first came. -/
def latest (calls : List Call) : List Description := calls.foldl record []

/-- The answers of an index are those found by a search of the descriptions. -/
structure Answers (index : ReferenceIndex) (latest : List Description) : Prop where
  description : ∀ uri, index.descriptions.get? uri = latest.find? (·.uri = uri)
  linksTo : ∀ target, index.linksTo target = latest.flatMap fun description =>
    description.links.filter (·.target = target)
  exportsNamed : ∀ name, index.exportsNamed name = latest.flatMap (·.exportsNamed name)
  linksInto : ∀ resource, index.linksInto resource = latest.flatMap fun description =>
    description.links.filter (·.target.isIn resource)
  referenced : ∀ source, index.referenced source = (latest.map (·.uri)).filter fun target =>
    latest.any fun description => description.uri = source && description.refersTo target
  referencing : ∀ target,
    index.referencing target = (latest.filter (·.refersTo target)).map (·.uri)
  resourceCount : index.resourceCount = latest.length
  targetCount : index.targetCount =
    (latest.flatMap fun description => description.links.map (·.target)).dedup.length
  linkCount : index.linkCount = (latest.map (·.links.length)).sum

/-! ### Places -/

section Places

variable {κ α : Type} [DecidableEq κ]

def placesUnder (map : OrderedMap κ (List Place)) (key : κ) : List Place := (map.get? key).getD []

def itemPlaces (uri : ResourceUri) (keyOf : α → κ) (key : κ) (items : List α) (start : Nat) :
    List Place :=
  ((items.zipIdx start).filter fun item => keyOf item.1 = key).map fun item => (uri, item.2)

def placesOf (latest : List Description) (items : Description → List α) (keyOf : α → κ) (key : κ) :
    List Place :=
  latest.flatMap fun description => itemPlaces description.uri keyOf key (items description) 0

def without (uri : ResourceUri) (latest : List Description) : List Description :=
  latest.filter (·.uri ≠ uri)

variable {map : OrderedMap κ (List Place)} {keyOf : α → κ} {key : κ} {uri : ResourceUri}

theorem placesUnder_enter (entered : κ) (place : Place) :
    placesUnder (enter map entered place) key =
      if key = entered then placesUnder map key ++ [place] else placesUnder map key := by
  unfold placesUnder enter
  rw [OrderedMap.get?_insert]
  split
  · next same => rw [same, Option.getD_some]
  · rfl

theorem placesUnder_enterAll_from (items : List α) (start : Nat) :
    placesUnder ((items.zipIdx start).foldl
        (fun map item => enter map (keyOf item.1) (uri, item.2)) map) key =
      placesUnder map key ++ itemPlaces uri keyOf key items start := by
  induction items generalizing map start with
  | nil => simp [itemPlaces]
  | cons item rest ih =>
    rw [List.zipIdx_cons, List.foldl_cons, ih, placesUnder_enter]
    by_cases here : key = keyOf item
    · simp [itemPlaces, here]
    · simp [itemPlaces, here, Ne.symm here]

theorem placesUnder_enterAll (items : List α) :
    placesUnder (enterAll map uri keyOf items) key =
      placesUnder map key ++ itemPlaces uri keyOf key items 0 :=
  placesUnder_enterAll_from items 0

theorem placesUnder_leave (once : map.keys.Nodup) :
    placesUnder (leave map uri) key = (placesUnder map key).filter (·.1 ≠ uri) := by
  unfold placesUnder leave
  rw [OrderedMap.get?_filter _ _ _ (by rwa [OrderedMap.keys_mapValues]), OrderedMap.get?_mapValues]
  cases map.get? key with
  | none => rfl
  | some places =>
    rw [Option.map_some, Option.getD_some]
    generalize places.filter (·.1 ≠ uri) = kept
    cases kept <;> rfl

theorem itemPlaces_fst {place : Place} {items : List α} {start : Nat}
    (member : place ∈ itemPlaces uri keyOf key items start) : place.1 = uri := by
  obtain ⟨item, _, rfl⟩ := List.mem_map.mp member
  rfl

theorem placesOf_without (latest : List Description) (items : Description → List α) :
    placesOf (without uri latest) items keyOf key =
      (placesOf latest items keyOf key).filter (·.1 ≠ uri) := by
  unfold placesOf without
  rw [List.filter_flatMap]
  induction latest with
  | nil => rfl
  | cons description rest ih =>
    rw [List.filter_cons, List.flatMap_cons, ← ih]
    split
    · next apart =>
      have kept : (itemPlaces description.uri keyOf key (items description) 0).filter
          (·.1 ≠ uri) = itemPlaces description.uri keyOf key (items description) 0 := by
        refine List.filter_eq_self.mpr fun place member => ?_
        rwa [itemPlaces_fst member]
      rw [kept, List.flatMap_cons]
    · next own =>
      have dropped : (itemPlaces description.uri keyOf key (items description) 0).filter
          (·.1 ≠ uri) = [] := by
        refine List.filter_eq_nil_iff.mpr fun place member => ?_
        rwa [itemPlaces_fst member]
      rw [dropped, List.nil_append]

/-! ### Maps that hold the places -/

omit [DecidableEq κ] in
structure Tidy (map : OrderedMap κ (List Place)) : Prop where
  once : map.keys.Nodup
  filled : ∀ entry ∈ map.entries, entry.2 ≠ []

theorem Tidy.enter (tidy : Tidy map) (entered : κ) (place : Place) :
    Tidy (ReferenceIndex.enter map entered place) where
  once := OrderedMap.nodup_keys_insert _ _ tidy.once
  filled := by
    rintro ⟨key, places⟩ member
    rcases OrderedMap.mem_insert member with ⟨_, assigned⟩ | ⟨_, earlier⟩
    · simp [assigned]
    · exact tidy.filled _ earlier

theorem Tidy.enterAll (tidy : Tidy map) (items : List α) :
    Tidy (ReferenceIndex.enterAll map uri keyOf items) := by
  unfold ReferenceIndex.enterAll
  generalize items.zipIdx = numbered
  induction numbered generalizing map with
  | nil => exact tidy
  | cons item rest ih => exact ih (tidy.enter _ _)

omit [DecidableEq κ] in
theorem Tidy.leave (tidy : Tidy map) : Tidy (ReferenceIndex.leave map uri) where
  once := OrderedMap.nodup_keys_filter _ (by rw [OrderedMap.keys_mapValues]; exact tidy.once)
  filled := by
    intro entry member
    have kept := (List.mem_filter.mp member).2
    simpa using kept

/-- A map holds the places of all items under their keys, in some order. -/
structure Posts (map : OrderedMap κ (List Place)) (latest : List Description)
    (items : Description → List α) (keyOf : α → κ) : Prop extends Tidy map where
  places : ∀ key, (placesUnder map key).Perm (placesOf latest items keyOf key)

namespace Posts

variable {latest other : List Description} {items : Description → List α}

theorem of_perm (posts : Posts map latest items keyOf) (same : latest.Perm other) :
    Posts map other items keyOf where
  toTidy := posts.toTidy
  places key := (posts.places key).trans (same.flatMap_right _)

theorem leave (posts : Posts map latest items keyOf) :
    Posts (ReferenceIndex.leave map uri) (without uri latest) items keyOf where
  toTidy := posts.toTidy.leave
  places key := by
    rw [placesUnder_leave posts.once, placesOf_without]
    exact (posts.places key).filter _

theorem enterAll (posts : Posts map latest items keyOf) (description : Description) :
    Posts (ReferenceIndex.enterAll map description.uri keyOf (items description))
      (latest ++ [description]) items keyOf where
  toTidy := posts.toTidy.enterAll _
  places key := by
    have last : placesOf (latest ++ [description]) items keyOf key =
        placesOf latest items keyOf key ++
          itemPlaces description.uri keyOf key (items description) 0 := by
      simp [placesOf]
    rw [placesUnder_enterAll, last]
    exact (posts.places key).append_right _

end Posts

end Places

/-! ### What every call keeps -/

def targetsOf (description : Description) : List ResourceUri :=
  (description.links.map (·.target.resource)).eraseDups

structure Mirrors (index : ReferenceIndex) (latest : List Description) : Prop where
  once : (latest.map (·.uri)).Nodup
  descriptions : index.descriptions.entries = latest.map fun description =>
    (description.uri, description)
  byTarget : Posts index.byTarget latest (·.links) (·.target)
  byName : Posts index.byName latest (·.exports) (·.name)
  targets : ∀ uri, index.targets.get? uri = (latest.find? (·.uri = uri)).map targetsOf

namespace Mirrors

variable {index : ReferenceIndex} {latest : List Description} {uri : ResourceUri}

theorem empty : Mirrors ReferenceIndex.empty [] where
  once := List.nodup_nil
  descriptions := rfl
  byTarget := ⟨⟨List.nodup_nil, by simp [ReferenceIndex.empty]⟩, fun _ => .nil⟩
  byName := ⟨⟨List.nodup_nil, by simp [ReferenceIndex.empty]⟩, fun _ => .nil⟩
  targets _ := rfl

theorem keys (mirrors : Mirrors index latest) : index.descriptions.keys = latest.map (·.uri) := by
  simp [OrderedMap.keys, mirrors.descriptions]

theorem values (mirrors : Mirrors index latest) : index.descriptions.values = latest := by
  simp [OrderedMap.values, mirrors.descriptions, Function.comp_def]

theorem get? (mirrors : Mirrors index latest) (uri : ResourceUri) :
    index.descriptions.get? uri = latest.find? (·.uri = uri) := by
  rw [OrderedMap.get?, mirrors.descriptions]
  clear mirrors
  induction latest with
  | nil => rfl
  | cons description rest ih =>
    by_cases own : description.uri = uri
    · simp [own]
    · rw [List.map_cons, OrderedMap.lookup_cons_of_ne (Ne.symm own), ih]
      simp [own]

theorem contains_iff (mirrors : Mirrors index latest) :
    index.descriptions.contains uri = true ↔ latest.any (·.uri = uri) = true := by
  rw [OrderedMap.contains, mirrors.get?, List.find?_isSome, List.any_eq_true]

end Mirrors

/-! ### One description for each resource -/

section Once

variable {latest other : List Description} {uri : ResourceUri} {description : Description}

theorem nodup_without (once : (latest.map (·.uri)).Nodup) :
    ((without uri latest).map (·.uri)).Nodup :=
  (List.filter_sublist.map _).nodup once

theorem without_of_absent (absent : ¬ latest.any (·.uri = uri) = true) :
    without uri latest = latest := by
  refine List.filter_eq_self.mpr fun description member => ?_
  simp only [List.any_eq_true, not_exists, not_and] at absent
  simpa using absent description member

theorem find?_without (uri other : ResourceUri) (latest : List Description) :
    (without uri latest).find? (·.uri = other) =
      if other = uri then none else latest.find? (·.uri = other) := by
  rw [without, List.find?_filter]
  split
  · next same => simp [same]
  · next apart =>
    congr 1
    funext description
    by_cases own : description.uri = other <;> simp [own, apart]

theorem find?_uri (once : (latest.map (·.uri)).Nodup) :
    latest.find? (·.uri = uri) = some description ↔
      description ∈ latest ∧ description.uri = uri := by
  constructor
  · intro found
    exact ⟨List.mem_of_find?_eq_some found, by simpa using List.find?_some found⟩
  · rintro ⟨member, own⟩
    have present : (latest.find? (·.uri = uri)).isSome = true :=
      List.find?_isSome.mpr ⟨description, member, by simpa using own⟩
    obtain ⟨first, found⟩ := Option.isSome_iff_exists.mp present
    have same : first.uri = description.uri := by
      rw [own]
      simpa using List.find?_some found
    rw [found, List.inj_on_of_nodup_map once (List.mem_of_find?_eq_some found) member same]

theorem nodup_without_append (once : (latest.map (·.uri)).Nodup) (description : Description) :
    ((without description.uri latest ++ [description]).map (·.uri)).Nodup := by
  rw [List.map_append, List.nodup_append]
  refine ⟨nodup_without once, List.nodup_singleton _, ?_⟩
  rintro uri earlier last own rfl
  obtain ⟨other, member, rfl⟩ := List.mem_map.mp earlier
  have apart : other.uri ≠ description.uri := by simpa using (List.mem_filter.mp member).2
  exact apart (List.mem_singleton.mp own)

theorem find?_uri_of_perm (same : latest.Perm other) (once : (latest.map (·.uri)).Nodup) :
    latest.find? (·.uri = uri) = other.find? (·.uri = uri) := by
  have again : (other.map (·.uri)).Nodup := (same.map _).nodup once
  ext description
  rw [find?_uri once, find?_uri again, same.mem_iff]

theorem replace_perm (once : (latest.map (·.uri)).Nodup)
    (present : latest.any (·.uri = description.uri) = true) :
    (without description.uri latest ++ [description]).Perm
      (latest.map fun earlier =>
        if earlier.uri = description.uri then description else earlier) := by
  induction latest with
  | nil => cases present
  | cons first rest ih =>
    obtain ⟨fresh, once⟩ := List.nodup_cons.mp once
    rw [List.map_cons, without, List.filter_cons]
    by_cases own : first.uri = description.uri
    · have apart : ∀ second ∈ rest, second.uri ≠ description.uri := by
        intro second member same
        exact fresh (List.mem_map.mpr ⟨second, member, same.trans own.symm⟩)
      have kept : rest.map (fun earlier =>
          if earlier.uri = description.uri then description else earlier) = rest := by
        conv_rhs => rw [← List.map_id rest]
        exact List.map_congr_left fun second member => if_neg (apart second member)
      have others : rest.filter (·.uri ≠ description.uri) = rest :=
        List.filter_eq_self.mpr fun second member => by simpa using apart second member
      rw [if_neg (by simp [own]), if_pos own, kept, others]
      exact List.perm_append_singleton _ _
    · rw [if_pos (by simpa using own), if_neg own, List.cons_append]
      exact (ih once (by simpa [own] using present)).cons _

theorem record_update_perm (once : (latest.map (·.uri)).Nodup) (description : Description) :
    (without description.uri latest ++ [description]).Perm
      (record latest (.update description)) := by
  rw [record]
  split
  · next present => exact replace_perm once present
  · next absent => rw [without_of_absent absent]

end Once

namespace Mirrors

variable {index : ReferenceIndex} {latest : List Description}

structure Withdrawn (index : ReferenceIndex) (latest : List Description) (uri : ResourceUri) :
    Prop where
  byTarget : Posts index.byTarget (without uri latest) (·.links) (·.target)
  byName : Posts index.byName (without uri latest) (·.exports) (·.name)
  targets : ∀ other, index.targets.get? other =
    ((without uri latest).find? (·.uri = other)).map targetsOf

theorem withdraw (mirrors : Mirrors index latest) (uri : ResourceUri) :
    Withdrawn (index.withdraw uri) latest uri := by
  unfold ReferenceIndex.withdraw
  split
  · next present =>
    refine ⟨mirrors.byTarget.leave, mirrors.byName.leave, fun other => ?_⟩
    rw [OrderedMap.get?_erase, mirrors.targets, find?_without]
    split <;> rfl
  · next absent =>
    have same := without_of_absent fun present => absent (mirrors.contains_iff.mpr present)
    refine ⟨?_, ?_, ?_⟩ <;> rw [same]
    · exact mirrors.byTarget
    · exact mirrors.byName
    · exact mirrors.targets

theorem withdraw_descriptions (uri : ResourceUri) :
    (index.withdraw uri).descriptions = index.descriptions := by
  unfold ReferenceIndex.withdraw
  split <;> rfl

theorem update (mirrors : Mirrors index latest) (description : Description) :
    Mirrors (index.update description) (record latest (.update description)) := by
  have rest := mirrors.withdraw description.uri
  have same := record_update_perm mirrors.once description
  have apart := nodup_without_append mirrors.once description
  -- The places were entered as if the description came last; their order in the maps is open.
  refine ⟨(same.map _).nodup apart, ?descriptions,
    (rest.byTarget.enterAll description).of_perm same,
    (rest.byName.enterAll description).of_perm same, ?targets⟩
  case descriptions =>
    show (OrderedMap.insert (index.withdraw description.uri).descriptions _ _).entries = _
    rw [withdraw_descriptions, OrderedMap.insert, record, mirrors.descriptions]
    by_cases present : latest.any (·.uri = description.uri) = true
    · rw [if_pos (mirrors.contains_iff.mpr present), if_pos present, List.map_map, List.map_map]
      refine List.map_congr_left fun earlier _ => ?_
      by_cases own : earlier.uri = description.uri <;> simp [own]
    · rw [if_neg fun held => present (mirrors.contains_iff.mp held), if_neg present]
      simp
  case targets =>
    intro uri
    rw [← find?_uri_of_perm same apart, List.find?_append]
    show (OrderedMap.insert (index.withdraw description.uri).targets _ _).get? uri = _
    rw [OrderedMap.get?_insert, rest.targets, find?_without]
    by_cases own : uri = description.uri
    · simp [own, targetsOf]
    · simp [own, Ne.symm own]

theorem remove (mirrors : Mirrors index latest) (uri : ResourceUri) :
    Mirrors (index.remove uri) (record latest (.remove uri)) := by
  have rest := mirrors.withdraw uri
  refine ⟨nodup_without mirrors.once, ?_, rest.byTarget, rest.byName, rest.targets⟩
  show (OrderedMap.erase (index.withdraw uri).descriptions uri).entries = _
  rw [withdraw_descriptions, OrderedMap.erase, OrderedMap.filter, mirrors.descriptions,
    List.filter_map]
  rfl

theorem perform (mirrors : Mirrors index latest) (call : Call) :
    Mirrors (index.perform call) (record latest call) := by
  cases call with
  | update description => exact mirrors.update description
  | remove uri => exact mirrors.remove uri
  | clear => exact empty

end Mirrors

theorem mirrors_run (calls : List Call) : Mirrors (run calls) (latest calls) := by
  unfold run latest
  have start := Mirrors.empty
  revert start
  generalize ReferenceIndex.empty = index, ([] : List Description) = earlier
  intro mirrors
  induction calls generalizing index earlier with
  | nil => exact mirrors
  | cons call rest ih => exact ih _ _ (mirrors.perform call)

/-! ### Answers -/

section Sorting

variable {κ α : Type} [DecidableEq κ] {latest : List Description} {keyOf : α → κ} {key : κ}

def notAfter (index : ReferenceIndex) (first second : Place) : Bool :=
  index.rank first.1 < index.rank second.1 ||
    index.rank first.1 = index.rank second.1 && first.2 ≤ second.2

variable {index : ReferenceIndex}

theorem notAfter_iff {first second : Place} : index.notAfter first second = true ↔
    index.rank first.1 < index.rank second.1 ∨
      index.rank first.1 = index.rank second.1 ∧ first.2 ≤ second.2 := by
  simp [notAfter]

theorem pairwise_inOrder (places : List Place) :
    (index.inOrder places).Pairwise fun first second => index.notAfter first second = true := by
  apply List.pairwise_mergeSort
  · intro first second third before after
    have before := notAfter_iff.mp before
    have after := notAfter_iff.mp after
    exact notAfter_iff.mpr (by omega)
  · intro first second
    rw [Bool.or_eq_true]
    have either : index.notAfter first second = true ∨ index.notAfter second first = true := by
      rw [notAfter_iff, notAfter_iff]
      omega
    exact either

theorem pairwise_itemPlaces (uri : ResourceUri) (items : List α) (start : Nat) :
    (itemPlaces uri keyOf key items start).Pairwise fun first second => first.2 < second.2 := by
  unfold itemPlaces
  refine List.pairwise_map.mpr (List.Pairwise.filter _ ?_)
  have ascending : ((items.zipIdx start).map Prod.snd).Pairwise (· < ·) := by
    rw [List.zipIdx_map_snd]
    exact List.pairwise_lt_range'
  exact List.pairwise_map.mp ascending

namespace Mirrors

variable (mirrors : Mirrors index latest)
include mirrors

theorem pairwise_rank :
    latest.Pairwise fun first second => index.rank first.uri < index.rank second.uri := by
  rw [List.pairwise_iff_getElem]
  intro place place' bound bound' before
  have rankOf : ∀ (place : Nat) (bound : place < latest.length),
      index.rank latest[place].uri = place := by
    intro place bound
    have inside : place < (latest.map (·.uri)).length := by rwa [List.length_map]
    have named : latest[place].uri = (latest.map (·.uri)).get ⟨place, inside⟩ := by simp
    rw [rank, mirrors.keys, named]
    exact mirrors.once.idxOf_getElem place inside
  rw [rankOf, rankOf]
  exact before

theorem pairwise_placesOf (items : Description → List α) :
    (placesOf latest items keyOf key).Pairwise fun first second =>
      index.notAfter first second = true := by
  refine List.pairwise_flatMap.mpr ⟨fun description _ => ?within, ?across⟩
  case within =>
    refine (pairwise_itemPlaces description.uri (items description) 0).imp_of_mem ?_
    intro first second left right before
    rw [notAfter_iff, itemPlaces_fst left, itemPlaces_fst right]
    exact .inr ⟨rfl, Nat.le_of_lt before⟩
  case across =>
    refine mirrors.pairwise_rank.imp fun before first left second right => ?_
    rw [notAfter_iff, itemPlaces_fst left, itemPlaces_fst right]
    exact .inl before

theorem eq_of_notAfter {items : Description → List α} {first second : Place}
    (left : first ∈ placesOf latest items keyOf key)
    (before : index.notAfter first second = true) (after : index.notAfter second first = true) :
    first = second := by
  have before := notAfter_iff.mp before
  have after := notAfter_iff.mp after
  have present : first.1 ∈ index.descriptions.keys := by
    obtain ⟨description, member, place⟩ := List.mem_flatMap.mp left
    rw [mirrors.keys, itemPlaces_fst place]
    exact List.mem_map_of_mem member
  have ranks : index.rank first.1 = index.rank second.1 := by omega
  exact Prod.ext ((List.idxOf_inj present).mp ranks) (by omega)

/-- Places that were entered in any order are found in the order of the descriptions. -/
theorem inOrder_placesUnder {map : OrderedMap κ (List Place)} {items : Description → List α}
    (posts : Posts map latest items keyOf) (key : κ) :
    index.inOrder (placesUnder map key) = placesOf latest items keyOf key := by
  have all : (index.inOrder (placesUnder map key)).Perm (placesOf latest items keyOf key) :=
    (List.mergeSort_perm _ _).trans (posts.places key)
  refine List.Perm.eq_of_pairwise (fun first second left right => ?_) (pairwise_inOrder _)
    (mirrors.pairwise_placesOf items) all
  exact mirrors.eq_of_notAfter (all.subset left)

theorem at?_itemPlaces (items : Description → List α) {description : Description}
    (member : description ∈ latest) :
    (itemPlaces description.uri keyOf key (items description) 0).filterMap (index.at? items) =
      (items description).filter (keyOf · = key) := by
  have held : index.descriptions.get? description.uri = some description := by
    rw [mirrors.get?]
    exact (find?_uri mirrors.once).mpr ⟨member, rfl⟩
  have read : ∀ item ∈ (items description).zipIdx.filter fun item => keyOf item.1 = key,
      index.at? items (description.uri, item.2) = some item.1 := by
    intro item kept
    rw [at?, held, Option.bind_some]
    exact List.mem_zipIdx_iff_getElem?.mp (List.mem_filter.mp kept).1
  rw [itemPlaces, List.filterMap_map]
  refine (List.filterMap_congr read).trans ?_
  rw [List.filterMap_eq_map']
  conv_rhs => rw [← List.zipIdx_map_fst 0 (items description), List.filter_map]
  rfl

/-- The places under a key lead to the items that have the key. -/
theorem found_eq {map : OrderedMap κ (List Place)} {items : Description → List α}
    (posts : Posts map latest items keyOf) (key : κ) :
    (index.inOrder (placesUnder map key)).filterMap (index.at? items) =
      latest.flatMap fun description => (items description).filter (keyOf · = key) := by
  rw [mirrors.inOrder_placesUnder posts, placesOf, List.filterMap_flatMap]
  exact List.flatMap_congr fun description member => mirrors.at?_itemPlaces items member

end Mirrors

end Sorting

/-! ### Counts -/

section Counts

variable {κ α : Type} [DecidableEq κ] {latest : List Description} {keyOf : α → κ}
  {map : OrderedMap κ (List Place)} {items : Description → List α}

theorem length_placesOf (latest : List Description) (items : Description → List α) (key : κ) :
    (placesOf latest items keyOf key).length =
      (latest.flatMap fun description => (items description).map keyOf).count key := by
  rw [placesOf, List.length_flatMap, List.count_flatMap]
  congr 1
  refine List.map_congr_left fun description _ => ?_
  rw [itemPlaces, List.length_map, ← List.countP_eq_length_filter, Function.comp_apply, List.count,
    List.countP_map]
  conv_rhs => rw [← List.zipIdx_map_fst 0 (items description), List.countP_map]
  rfl

namespace Posts

variable (posts : Posts map latest items keyOf)
include posts

theorem length_placesUnder (key : κ) :
    (placesUnder map key).length =
      (latest.flatMap fun description => (items description).map keyOf).count key :=
  (posts.places key).length_eq.trans (length_placesOf latest items key)

theorem mem_keys {key : κ} :
    key ∈ map.keys ↔ key ∈ latest.flatMap fun description => (items description).map keyOf := by
  rw [← List.count_pos_iff (a := key) (l := latest.flatMap _), ← posts.length_placesUnder,
    placesUnder, List.length_pos_iff]
  cases found : map.get? key with
  | none => simp [OrderedMap.get?_eq_none_iff.mp found]
  | some places =>
    have member := OrderedMap.mem_of_get? found
    have keyed : key ∈ map.keys := List.mem_map_of_mem member
    simpa [keyed] using posts.filled _ member

/-- The keys are those of all items. -/
theorem keys_perm :
    map.keys.Perm (latest.flatMap fun description => (items description).map keyOf).dedup := by
  refine (List.perm_ext_iff_of_nodup posts.once (List.nodup_dedup _)).mpr fun key => ?_
  rw [posts.mem_keys, List.mem_dedup]

/-- There are as many places as items. -/
theorem length_flatten :
    map.values.flatten.length =
      (latest.map fun description => (items description).length).sum := by
  have counted : map.values.map List.length = map.keys.map fun key =>
      (latest.flatMap fun description => (items description).map keyOf).count key := by
    rw [OrderedMap.values, OrderedMap.keys, List.map_map, List.map_map]
    refine List.map_congr_left fun entry member => ?_
    rw [Function.comp_apply, Function.comp_apply, ← posts.length_placesUnder, placesUnder,
      OrderedMap.get?_of_mem posts.once member]
    rfl
  rw [List.length_flatten, counted, (posts.keys_perm.map _).sum_eq, List.sum_map_count_dedup_eq_length,
    List.length_flatMap]
  simp

end Posts

end Counts

namespace Mirrors

variable {index : ReferenceIndex} {latest : List Description} (mirrors : Mirrors index latest)
include mirrors

theorem refers_of_mem {description : Description} (member : description ∈ latest)
    (target : ResourceUri) :
    index.refers description.uri target = description.refersTo target := by
  have found := (find?_uri mirrors.once).mpr ⟨member, rfl⟩
  rw [refers, mirrors.targets, found, Option.map_some, Option.getD_some, targetsOf, refersTo,
    Bool.eq_iff_iff, List.contains_iff_mem, List.mem_eraseDups, List.any_eq_true]
  simp [Uri.isIn]

theorem refers_eq (source target : ResourceUri) : index.refers source target =
    latest.any fun description => description.uri = source && description.refersTo target := by
  rw [Bool.eq_iff_iff, List.any_eq_true]
  simp only [Bool.and_eq_true, decide_eq_true_eq]
  constructor
  · intro refers
    cases found : latest.find? (·.uri = source) with
    | none =>
      rw [ReferenceIndex.refers, mirrors.targets, found] at refers
      cases refers
    | some description =>
      obtain ⟨member, rfl⟩ := (find?_uri mirrors.once).mp found
      exact ⟨description, member, rfl, mirrors.refers_of_mem member target ▸ refers⟩
  · rintro ⟨description, member, rfl, refers⟩
    rwa [mirrors.refers_of_mem member]

end Mirrors

/-- Whatever calls made an index, each of its answers is the one that a search of the latest
descriptions gives. -/
theorem answers_of_run (calls : List Call) : Answers (run calls) (latest calls) := by
  have mirrors := mirrors_run calls
  generalize run calls = index, latest calls = latest at mirrors
  exact {
    description := mirrors.get?
    linksTo := fun target => mirrors.found_eq mirrors.byTarget target
    exportsNamed := fun name => mirrors.found_eq mirrors.byName name
    linksInto := fun resource => by
      rw [linksInto, mirrors.values, List.filter_flatMap]
    referenced := fun source => by
      rw [referenced, mirrors.keys]
      exact List.filter_congr fun target _ => mirrors.refers_eq source target
    referencing := fun target => by
      rw [referencing, mirrors.keys, List.filter_map]
      congr 1
      exact List.filter_congr fun description member => mirrors.refers_of_mem member target
    resourceCount := by
      rw [resourceCount, OrderedMap.size, mirrors.descriptions, List.length_map]
    targetCount := by
      rw [targetCount, ← mirrors.byTarget.keys_perm.length_eq, OrderedMap.keys, List.length_map]
      rfl
    linkCount := mirrors.byTarget.length_flatten }

end Crosslink.Description.ReferenceIndex
