import Crosslink.Description.Basic
import Crosslink.Linking.Scope
import Crosslink.Proofs.Tree.Copies

/-! Exports and candidates.

What a resource exports is written down by going down its tree, and what it has to offer for a name
is found among all its nodes. Both see the same nodes, so that the candidates can be read off the
exports, as far as the classifiers are known by their names.
-/

set_option autoImplicit false

namespace Crosslink

variable {naming : Naming} {feature : Feature} {name : QualifiedName} {resource other : Resource}
  {tree copy : Tree}

theorem Resource.contents_eq (holds : resource.tree? = some tree) (consistent : tree.Consistent) :
    resource.contents = tree.allNodes.map fun id => ⟨resource.uri, tree, id⟩ := by
  have inside : ∀ id ∈ tree.allNodes, Site.at? resource.uri tree id =
      some ⟨resource.uri, tree, id⟩ := fun id member =>
    if_pos (consistent.contains_of_mem member)
  unfold contents
  rw [holds]
  dsimp only
  rw [List.filterMap_congr inside, List.filterMap_eq_map']

namespace Description

theorem exportsWithin_ofNaming (interest : Feature → Bool) (bound : Nat) (site : Site) :
    exportsWithin (.ofNaming naming interest) bound site =
      (site.tree.preorderWithin bound site.id).flatMap fun id =>
        exportNamed naming (site.move id) := by
  induction bound generalizing site with
  | zero => rfl
  | succ bound ih =>
    rw [Tree.preorderWithin, List.flatMap_cons, List.flatMap_assoc]
    have below : site.children.flatMap (exportsWithin (.ofNaming naming interest) bound) =
        (site.tree.contents site.id).flatMap fun child =>
          (site.tree.preorderWithin bound child).flatMap fun id =>
            exportNamed naming (site.move id) := by
      rw [Site.children, List.flatMap_map]
      exact List.flatMap_congr fun child _ => ih (site.move child)
    rw [← below]
    rfl

/-- All nodes that can be reached are asked for their names. -/
theorem exports_compute (interest : Feature → Bool)
    (consistent : ∀ tree, resource.tree? = some tree → tree.Consistent) :
    (compute (.ofNaming naming interest) resource).exports =
      resource.contents.flatMap (exportNamed naming) := by
  unfold compute Resource.root?
  cases holds : resource.tree? with
  | none => simp [Resource.contents, holds]
  | some tree =>
    rw [Resource.contents_eq holds (consistent tree holds), List.flatMap_map]
    cases rooted : tree.root with
    | none => simp [Tree.allNodes, rooted]
    | some root =>
      have inside := ((consistent tree holds).root rooted).1
      simp only [Option.bind_some, Site.at?, inside, if_true, Tree.allNodes, rooted,
        Tree.descendants]
      exact exportsWithin_ofNaming interest tree.size ⟨resource.uri, tree, root⟩

end Description

/-! ### Candidates -/

namespace Linking

open Description

/-- A node may be a value of a feature, judged by the name of its classifier. -/
def admits (classOf : String → Option Classifier) (feature : Feature) (className : String) : Bool :=
  feature.target.all fun target => (classOf className).any (·.conformsTo target)

/-- The exports of a name that may be values of a feature. -/
def candidatesAmong (classOf : String → Option Classifier) (feature : Feature)
    (name : QualifiedName) (exports : List Export) : List Uri :=
  (exports.filter fun entry => entry.name = name && admits classOf feature entry.classifier).map
    (·.uri)

theorem exportNamed_eq {site : Site} {uri : Uri} (named : naming site = some name)
    (leads : site.uri? = some uri) : exportNamed naming site = [⟨name, uri, site.className⟩] := by
  unfold exportNamed
  rw [named, leads]

theorem classifier_of_exportNamed {site : Site} {entry : Export}
    (member : entry ∈ exportNamed naming site) : entry.classifier = site.className := by
  unfold exportNamed at member
  split at member
  · rw [List.mem_singleton.mp member]
  · cases member

theorem candidatesAmong_append (classOf : String → Option Classifier)
    (first second : List Export) :
    candidatesAmong classOf feature name (first ++ second) =
      candidatesAmong classOf feature name first ++
        candidatesAmong classOf feature name second := by
  simp [candidatesAmong]

theorem candidatesAmong_exportNamed {classOf : String → Option Classifier} {site : Site}
    (known : exportNamed naming site ≠ [] → site.classifier? = classOf site.className) :
    candidatesAmong classOf feature name (exportNamed naming site) =
      ([site].filter fun site => site.fits feature && naming site = some name).filterMap
        Site.uri? := by
  cases named : naming site with
  | none => simp [candidatesAmong, exportNamed, named]
  | some own =>
    cases leads : site.uri? with
    | none =>
      by_cases fits : site.fits feature <;> simp [candidatesAmong, exportNamed, named, leads]
    | some uri =>
      have single := exportNamed_eq named leads
      have same : admits classOf feature site.className = site.fits feature := by
        unfold admits Site.fits Site.isA
        rw [known (by simp [single])]
      rw [single, candidatesAmong]
      by_cases wanted : own = name <;> cases fits : site.fits feature <;>
        simp [named, leads, same, wanted, fits]

/-- Candidates can be read off the exports. -/
theorem candidates_among {classOf : String → Option Classifier} (sites : List Site)
    (known : ∀ site ∈ sites, exportNamed naming site ≠ [] →
      site.classifier? = classOf site.className) :
    (sites.filter fun site => site.fits feature && naming site = some name).filterMap Site.uri? =
      candidatesAmong classOf feature name (sites.flatMap (exportNamed naming)) := by
  induction sites with
  | nil => rfl
  | cons site rest ih =>
    have first := @candidatesAmong_exportNamed naming feature name classOf site
      (known site (List.mem_cons_self ..))
    have later := ih fun site member => known site (List.mem_cons_of_mem _ member)
    rw [List.flatMap_cons, candidatesAmong_append, first, ← later, ← List.filterMap_append,
      ← List.filter_append, List.singleton_append]

/-- A resource that exports nothing of a name has no candidates for it. -/
theorem candidatesIn_eq_nil
    (absent : ∀ entry ∈ resource.contents.flatMap (exportNamed naming), entry.name ≠ name) :
    candidatesIn naming feature name resource = [] := by
  refine List.filterMap_eq_nil_iff.mpr fun site listed => ?_
  obtain ⟨member, wanted⟩ := List.mem_filter.mp listed
  simp only [Bool.and_eq_true, decide_eq_true_eq] at wanted
  cases leads : site.uri? with
  | none => rfl
  | some uri =>
    have entry : (⟨name, uri, site.className⟩ : Export) ∈ exportNamed naming site := by
      simp [exportNamed_eq wanted.2 leads]
    exact absurd rfl (absent _ (List.mem_flatMap.mpr ⟨site, member, entry⟩))

def SameClasses (resource other : Resource) : Prop :=
  ∀ site ∈ resource.contents, ∀ site' ∈ other.contents,
    site'.className = site.className → site'.classifier? = site.classifier?

def classIn (resource : Resource) (className : String) : Option Classifier :=
  (resource.contents.find? (·.className = className)).bind Site.classifier?

theorem classifier?_eq_classIn (classes : SameClasses resource other) {site site' : Site}
    (member : site ∈ resource.contents) (member' : site' ∈ other.contents)
    (same : site'.className = site.className) :
    site'.classifier? = classIn resource site'.className := by
  have present : (resource.contents.find? (·.className = site'.className)).isSome = true :=
    List.find?_isSome.mpr ⟨site, member, by simp [same]⟩
  obtain ⟨first, found⟩ := Option.isSome_iff_exists.mp present
  have named : first.className = site'.className := by simpa using List.find?_some found
  rw [classIn, found, Option.bind_some]
  exact classes first (List.mem_of_find?_eq_some found) site' member' named.symm

theorem exists_of_exports {sites others : List Site}
    (same : others.flatMap (exportNamed naming) = sites.flatMap (exportNamed naming))
    {site : Site} (member : site ∈ sites) (exported : exportNamed naming site ≠ []) :
    ∃ other ∈ others, other.className = site.className := by
  obtain ⟨entry, listed⟩ := List.exists_mem_of_ne_nil _ exported
  have among : entry ∈ others.flatMap (exportNamed naming) :=
    same ▸ List.mem_flatMap.mpr ⟨site, member, listed⟩
  obtain ⟨other, present, listed'⟩ := List.mem_flatMap.mp among
  exact ⟨other, present,
    (classifier_of_exportNamed listed').symm.trans (classifier_of_exportNamed listed)⟩

/-- Two resources that export the same have the same candidates. -/
theorem candidatesIn_of_exports (classes : SameClasses resource other)
    (same : other.contents.flatMap (exportNamed naming) =
      resource.contents.flatMap (exportNamed naming)) :
    candidatesIn naming feature name other = candidatesIn naming feature name resource := by
  -- The name of a classifier that is exported stands in both resources.
  have known : ∀ site ∈ resource.contents, exportNamed naming site ≠ [] →
      site.classifier? = classIn resource site.className := by
    intro site member exported
    obtain ⟨site', member', named⟩ := exists_of_exports same member exported
    rw [← classes site member site' member' named, ← named]
    exact classifier?_eq_classIn classes member member' named
  have known' : ∀ site' ∈ other.contents, exportNamed naming site' ≠ [] →
      site'.classifier? = classIn resource site'.className := by
    intro site' member' exported
    obtain ⟨site, member, named⟩ := exists_of_exports same.symm member' exported
    exact classifier?_eq_classIn classes member member' named.symm
  unfold candidatesIn
  rw [candidates_among _ known, candidates_among _ known', same]

theorem candidatesIn_eq (naming : Naming) (feature : Feature) (name : QualifiedName)
    (resource : Resource) : candidatesIn naming feature name resource =
      resource.contents.filterMap fun site =>
        if site.fits feature && naming site = some name then site.uri? else none := by
  unfold candidatesIn
  rw [← List.filterMap_eq_filter, List.filterMap_filterMap]
  refine List.filterMap_congr fun site _ => ?_
  unfold Option.guard
  split <;> rfl

/-- A resource with a copy of the tree has the same candidates. -/
theorem candidatesIn_of_copy (ignores : naming.IgnoresPositions) {image : NodeId → NodeId}
    (uri : other.uri = resource.uri) (holds : resource.tree? = some tree)
    (holds' : other.tree? = some copy) (copies : tree.Copy copy image)
    (consistent : tree.Consistent) (consistent' : copy.Consistent) :
    candidatesIn naming feature name other = candidatesIn naming feature name resource := by
  have fits : ∀ id ∈ tree.allNodes, (⟨resource.uri, copy, image id⟩ : Site).fits feature =
      (⟨resource.uri, tree, id⟩ : Site).fits feature := by
    intro id member
    unfold Site.fits Site.isA Site.classifier?
    dsimp only
    rw [copies.classifier id member]
  have address : ∀ id ∈ tree.allNodes, (⟨resource.uri, copy, image id⟩ : Site).uri? =
      (⟨resource.uri, tree, id⟩ : Site).uri? := by
    intro id member
    unfold Site.uri? Site.fragment?
    dsimp only
    rw [copies.fragment consistent consistent' member]
  rw [candidatesIn_eq, candidatesIn_eq, Resource.contents_eq holds consistent,
    Resource.contents_eq holds' consistent', copies.allNodes consistent consistent', uri,
    List.filterMap_map, List.filterMap_map, List.filterMap_map]
  refine List.filterMap_congr fun id member => ?_
  simp only [Function.comp_apply, fits id member, address id member,
    ignores tree copy image copies consistent consistent' resource.uri id member]

end Linking

end Crosslink
