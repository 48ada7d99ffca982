import Crosslink.Proofs.Description.Exports
import Crosslink.Proofs.Description.Sweeping
import Crosslink.Proofs.Tree.References
import Crosslink.Proofs.Tree.RoundTrip
import Mathlib.Data.List.Forall2

/-! What a description lists.

The walks that write a description down come, in the order of the document, to the
nodes above which no callback has stopped them. Strategies that name nodes never stop,
so that their descriptions list all nodes with names and all references of interest.
-/

set_option autoImplicit false

namespace Crosslink

variable {tree : Tree} {resource : Resource} {strategy : Description.Strategy} {naming : Naming}

namespace Tree

/-- A tree that came about by operations, and by linking and unlinking, which put references in the
place of others. -/
inductive Built : Tree → Prop where
  | empty : Built .empty
  | edited {tree : Tree} (edit : Edit) (before : Built tree) : Built (tree.apply edit)
  | replaced {tree : Tree} (slot : SlotKey) (value : Reference) (before : Built tree) :
      Built (tree.replaceReference slot value)

theorem Built.consistent (built : tree.Built) : tree.Consistent := by
  induction built with
  | empty => exact consistent_empty
  | edited edit _ ih => exact ih.run [edit]
  | replaced slot value _ ih => exact consistent_of_shape shape_replaceReference ih

theorem Built.run (built : tree.Built) (edits : List Edit) : (tree.run edits).Built := by
  induction edits generalizing tree with
  | nil => exact built
  | cons edit rest ih => exact ih (built.edited edit)

def sites (tree : Tree) (resource : ResourceUri) : List Site :=
  tree.allNodes.map (Site.mk resource tree)

theorem reflTransGen_of_mem_preorderWithin {bound : Nat} {id below : NodeId}
    (consistent : tree.Consistent) (member : below ∈ tree.preorderWithin bound id) :
    Relation.ReflTransGen tree.Holds id below := by
  induction bound generalizing id with
  | zero => simp [preorderWithin] at member
  | succ bound ih =>
    rw [preorderWithin, List.mem_cons, List.mem_flatMap] at member
    rcases member with rfl | ⟨child, listed, lower⟩
    · exact .refl
    · exact .head (consistent.mem_contents_iff.mp listed) (ih lower)

end Tree

namespace Description

/-! ### Walks -/

/-- The entries of a site and of what lies less than `bound` levels below it, without what lies
below a site that the visit does not descend from. -/
def walkWithin {α : Type} (visit : Site → Yield α) : Nat → Site → List α
  | 0, _ => []
  | bound + 1, site =>
    (visit site).entries ++
      if (visit site).descend then site.children.flatMap (walkWithin visit bound) else []

def isOpen {α : Type} (visit : Site → Yield α) (site : Site) : Bool :=
  site.ancestors.all fun above => (visit above).descend

/-- The nearest node that counts and holds the site or is the site. -/
def placeOf (counts : Site → Bool) (site : Site) : Option Uri :=
  ((site :: site.ancestors).find? counts).bind Site.uri?

def Strategy.linksAt (strategy : Strategy) (site : Site) : Yield Link :=
  strategy.links site (placeOf strategy.isExported site)

section

variable {α : Type} {visit : Site → Yield α} {site : Site} {child : NodeId}

theorem ancestors_of_child (consistent : site.tree.Consistent)
    (member : child ∈ site.tree.contents site.id) :
    (site.move child).ancestors = site :: site.ancestors := by
  obtain ⟨position, held⟩ := consistent.mem_contents_iff.mp member
  show (site.tree.ancestors child).map _ = _
  rw [consistent.forest.ancestors_of_container held, List.map_cons]
  rfl

theorem isOpen_child (consistent : site.tree.Consistent)
    (member : child ∈ site.tree.contents site.id) :
    isOpen visit (site.move child) = ((visit site).descend && isOpen visit site) := by
  rw [isOpen, ancestors_of_child consistent member, List.all_cons, isOpen]

theorem placeOf_child (consistent : site.tree.Consistent) (counts : Site → Bool)
    (member : child ∈ site.tree.contents site.id) : placeOf counts (site.move child) =
      if counts (site.move child) then (site.move child).uri? else placeOf counts site := by
  rw [placeOf, ancestors_of_child consistent member, List.find?_cons]
  cases counts (site.move child) <;> rfl

-- Below a site that stops the walk no other is open, since all of them have it above them.
theorem isOpen_below {below : NodeId} (consistent : site.tree.Consistent)
    (stopped : (visit site).descend = false)
    (lower : Relation.TransGen site.tree.Holds site.id below) :
    isOpen visit (site.move below) = false := by
  have above : site.id ∈ site.tree.ancestors below := by
    have ancestor := consistent.forest.isAncestor_iff.mpr lower
    rwa [Tree.isAncestor, decide_eq_true_eq] at ancestor
  rw [isOpen, List.all_eq_false]
  exact ⟨site, List.mem_map.mpr ⟨site.id, above, rfl⟩, by simp [stopped]⟩

theorem isOpen_cut {cut : Site → Bool} {visitCut : Site → Yield α}
    (descends : ∀ site, (visitCut site).descend = ((visit site).descend && !cut site))
    (site : Site) : isOpen visitCut site = (isOpen visit site && !site.ancestors.any cut) := by
  unfold isOpen
  induction site.ancestors with
  | nil => rfl
  | cons above rest ih =>
    rw [List.all_cons, List.all_cons, List.any_cons, ih, descends]
    cases (visit above).descend <;> cases cut above <;> simp

/-- A walk comes to the sites that are open, in the order of the document. -/
theorem walkWithin_eq {bound : Nat} (consistent : site.tree.Consistent)
    (opened : isOpen visit site = true) :
    walkWithin visit bound site =
      (((site.tree.preorderWithin bound site.id).map site.move).filter (isOpen visit)).flatMap
        fun site => (visit site).entries := by
  induction bound generalizing site with
  | zero => rfl
  | succ bound ih =>
    have first : isOpen visit (site.move site.id) = true := opened
    rw [walkWithin, Tree.preorderWithin, List.map_cons, List.filter_cons_of_pos first,
      List.flatMap_cons, List.map_flatMap, List.filter_flatMap, List.flatMap_assoc, Site.children,
      List.flatMap_map]
    congr 1
    cases descends : (visit site).descend with
    | true =>
      refine List.flatMap_congr fun child member => ih consistent ?_
      rw [isOpen_child consistent member, descends, opened]
      rfl
    | false =>
      refine (List.flatMap_eq_nil_iff.mpr fun child member => ?_).symm
      have closed : ((site.tree.preorderWithin bound child).map site.move).filter (isOpen visit) = [] := by
        refine List.filter_eq_nil_iff.mpr fun other listed => ?_
        obtain ⟨below, within, rfl⟩ := List.mem_map.mp listed
        have direct := consistent.mem_contents_iff.mp member
        have lower := Tree.reflTransGen_of_mem_preorderWithin consistent within
        rw [isOpen_below consistent descends (.head' direct lower)]
        exact Bool.false_ne_true
      rw [closed]
      rfl

theorem exportsWithin_eq_walkWithin (bound : Nat) :
    exportsWithin strategy bound = walkWithin strategy.exports bound := by
  induction bound with
  | zero => rfl
  | succ bound ih =>
    funext site
    rw [exportsWithin, walkWithin, ih]

-- The place that is handed down is the nearest one that counts, because it is that of the container.
theorem linksWithin_eq_walkWithin {bound : Nat} {outer : Option Uri}
    (consistent : site.tree.Consistent)
    (placed : (if strategy.isExported site then site.uri? else outer) =
      placeOf strategy.isExported site) :
    linksWithin strategy bound outer site = walkWithin strategy.linksAt bound site := by
  induction bound generalizing site outer with
  | zero => rfl
  | succ bound ih =>
    rw [linksWithin, walkWithin, Strategy.linksAt]
    rw [placed]
    congr 1
    split
    · rw [Site.children, List.flatMap_map, List.flatMap_map]
      exact List.flatMap_congr fun child member =>
        ih consistent (placeOf_child consistent strategy.isExported member).symm
    · rfl

end

theorem eq_of_lists {first second : Description} (uri : first.uri = second.uri)
    (stamp : first.stamp = second.stamp) (names : first.importedNames = second.importedNames)
    (exports : first.exports = second.exports) (links : first.links = second.links) :
    first = second := by
  cases first
  cases second
  simp_all

theorem ancestors_root (consistent : tree.Consistent) {root : NodeId} (rooted : tree.root = some root)
    (uri : ResourceUri) : (Site.mk uri tree root).ancestors = [] := by
  show (tree.ancestorsWithin tree.size root).map _ = []
  rw [Tree.ancestorsWithin_of_free _ (consistent.root rooted).2, List.map_nil]

theorem walkWithin_root {α : Type} {visit : Site → Yield α} (consistent : tree.Consistent)
    {root : NodeId} (rooted : tree.root = some root) (uri : ResourceUri) :
    walkWithin visit tree.size ⟨uri, tree, root⟩ =
      ((tree.sites uri).filter (isOpen visit)).flatMap fun site => (visit site).entries := by
  have opened : isOpen visit ⟨uri, tree, root⟩ = true := by
    rw [isOpen, ancestors_root consistent rooted, List.all_nil]
  have inside := (consistent.root rooted).1
  rw [walkWithin_eq consistent opened, Tree.sites, Tree.allNodes, rooted]
  simp only [Tree.descendants, inside, if_true]
  rfl

/-- Whatever a strategy calls for, the exports are those of the nodes that are open for it. -/
theorem exports_compute_eq (holds : resource.tree? = some tree) (consistent : tree.Consistent)
    (strategy : Strategy) : (compute strategy resource).exports =
      ((tree.sites resource.uri).filter (isOpen strategy.exports)).flatMap
        fun site => (strategy.exports site).entries := by
  simp only [compute, root?_eq holds consistent]
  cases rooted : tree.root with
  | none => simp [Tree.sites, Tree.allNodes, rooted]
  | some root =>
    simp only [Option.map_some]
    rw [exportsWithin_eq_walkWithin, walkWithin_root consistent rooted]

theorem links_compute_eq (holds : resource.tree? = some tree) (consistent : tree.Consistent)
    (strategy : Strategy) : (compute strategy resource).links =
      ((tree.sites resource.uri).filter (isOpen strategy.linksAt)).flatMap
        fun site => (strategy.linksAt site).entries := by
  simp only [compute, root?_eq holds consistent]
  cases rooted : tree.root with
  | none => simp [Tree.sites, Tree.allNodes, rooted]
  | some root =>
    have placed : (if strategy.isExported ⟨resource.uri, tree, root⟩ then
        (Site.mk resource.uri tree root).uri? else none) =
          placeOf strategy.isExported ⟨resource.uri, tree, root⟩ := by
      rw [placeOf, ancestors_root consistent rooted, List.find?_cons]
      cases strategy.isExported ⟨resource.uri, tree, root⟩ <;> rfl
    simp only [Option.map_some]
    rw [linksWithin_eq_walkWithin consistent placed, walkWithin_root consistent rooted]

-- Callbacks for exports are not asked for references, and the other way round.
theorem compute_cutExports (holds : resource.tree? = some tree) (consistent : tree.Consistent)
    (strategy : Strategy) (cut : Site → Bool) :
    compute (strategy.cutExports cut) resource = { compute strategy resource with
      exports := ((tree.sites resource.uri).filter fun site =>
        isOpen strategy.exports site && !site.ancestors.any cut).flatMap
          fun site => (strategy.exports site).entries } := by
  have exports := exports_compute_eq holds consistent (strategy.cutExports cut)
  have opened : isOpen (strategy.cutExports cut).exports = fun site =>
      isOpen strategy.exports site && !site.ancestors.any cut := funext (isOpen_cut fun _ => rfl)
  rw [opened] at exports
  have links := links_compute_eq holds consistent (strategy.cutExports cut)
  exact eq_of_lists rfl rfl rfl exports (links.trans (links_compute_eq holds consistent strategy).symm)

theorem compute_cutLinks (holds : resource.tree? = some tree) (consistent : tree.Consistent)
    (strategy : Strategy) (cut : Site → Bool) :
    compute (strategy.cutLinks cut) resource = { compute strategy resource with
      links := ((tree.sites resource.uri).filter fun site =>
        isOpen strategy.linksAt site && !site.ancestors.any cut).flatMap
          fun site => (strategy.linksAt site).entries } := by
  have links := links_compute_eq holds consistent (strategy.cutLinks cut)
  have opened : isOpen (strategy.cutLinks cut).linksAt = fun site =>
      isOpen strategy.linksAt site && !site.ancestors.any cut := funext (isOpen_cut fun _ => rfl)
  rw [opened] at links
  have exports := exports_compute_eq holds consistent (strategy.cutLinks cut)
  exact eq_of_lists rfl rfl rfl
    (exports.trans (exports_compute_eq holds consistent strategy).symm) links

/-! ### Strategies that name nodes -/

/-- The strategy that describes all nodes with names, with the references of a policy. -/
def Strategy.byPolicy (naming : Naming) (excludeDerived : Bool) : Strategy :=
  if excludeDerived then .withoutDerived naming else .standard naming

structure Names (naming : Naming) (site : Site) (entry : Export) : Prop where
  name : naming site = some entry.name
  uri : site.uri? = some entry.uri
  classifier : entry.classifier = site.className

/-- A slot holds a value of a feature that is described under a policy. -/
structure Indexes (tree : Tree) (resource : ResourceUri) (excludeDerived : Bool) (slot : SlotKey)
    (feature : Feature) (target : Uri) : Prop where
  reached : tree.Reaches slot.source
  declared : tree.feature? slot.source slot.feature = some feature
  numbered : slot.index.isSome = feature.isMany
  bound : tree.referenceAt? slot = some (.bound target)
  kind : feature.isReference = true
  lasting : feature.isTransient = false ∧ feature.isVolatile = false
  primary : excludeDerived = true → feature.isDerived = false
  /-- A target in the same resource is found again by linking, if the text leads to it. -/
  apart : target.resource ≠ resource ∨ feature.isCross = false

structure Records (tree : Tree) (resource : ResourceUri) (naming : Naming) (excludeDerived : Bool)
    (slot : SlotKey) (link : Link) : Prop where
  source : (Site.mk resource tree slot.source).uri? = some link.source
  value : ∃ feature, Indexes tree resource excludeDerived slot feature link.target ∧
    link.feature = feature.name
  index : link.index = slot.index
  container : link.container =
    placeOf (fun site => (naming site).isSome) (Site.mk resource tree slot.source)

def linkAt (tree : Tree) (resource : ResourceUri) (naming : Naming) (interest : Feature → Bool)
    (slot : SlotKey) (value : Reference) : Option Link :=
  (Site.mk resource tree slot.source).uri?.bind fun source =>
    (tree.feature? slot.source slot.feature).bind fun feature =>
      match value with
      | .unresolved _ => none
      | .bound target =>
        if interest feature && (!target.isIn resource || !feature.isCross) then
          some ⟨source, target, feature.name, slot.index,
            placeOf (fun site => (naming site).isSome) (Site.mk resource tree slot.source)⟩
        else none

theorem forall₂_filterMap {α β : Type} {R : α → β → Prop} {f : α → Option β} {list : List α}
    (image : ∀ a ∈ list, ∀ b, f a = some b → R a b) :
    List.Forall₂ R (list.filter fun a => (f a).isSome) (list.filterMap f) := by
  induction list with
  | nil => exact .nil
  | cons a rest ih =>
    rw [List.forall_mem_cons] at image
    cases found : f a with
    | none =>
      rw [List.filter_cons_of_neg (by simp [found]), List.filterMap_cons_none found]
      exact ih image.2
    | some b =>
      rw [List.filter_cons_of_pos (by simp [found]), List.filterMap_cons_some found]
      exact .cons (image.1 b found) (ih image.2)

section

variable {interest : Feature → Bool} {uri : ResourceUri} {id : NodeId}

theorem isSome_uri?_of_mem_sites (consistent : tree.Consistent) {site : Site}
    (member : site ∈ tree.sites uri) : ∃ leads, site.uri? = some leads := by
  obtain ⟨id, reached, rfl⟩ := List.mem_map.mp member
  obtain ⟨path, written⟩ := Option.isSome_iff_exists.mp (consistent.isSome_fragment?.mpr reached)
  exact ⟨⟨uri, path⟩, by simp [Site.uri?, Site.fragment?, written]⟩

theorem isOpen_of_descends {α : Type} {visit : Site → Yield α}
    (descends : ∀ site, (visit site).descend = true) (site : Site) : isOpen visit site = true := by
  simp [isOpen, descends]

/-- Each node with a name is exported once, under that name. -/
theorem names_exports (consistent : tree.Consistent) :
    List.Forall₂ (Names naming) ((tree.sites uri).filter fun site => (naming site).isSome)
      ((tree.sites uri).flatMap (exportNamed naming)) := by
  have single : ∀ site, exportNamed naming site = ((naming site).bind fun name =>
      site.uri?.map fun leads => (⟨name, leads, site.className⟩ : Export)).toList := by
    intro site
    unfold exportNamed
    cases naming site <;> cases site.uri? <;> rfl
  have named : ∀ site ∈ tree.sites uri, (naming site).isSome =
      ((naming site).bind fun name =>
        site.uri?.map fun leads => (⟨name, leads, site.className⟩ : Export)).isSome := by
    intro site member
    obtain ⟨leads, written⟩ := isSome_uri?_of_mem_sites consistent member
    cases naming site <;> simp [written]
  rw [List.filter_congr named, List.flatMap_congr fun site _ => single site,
    ← List.filterMap_eq_flatMap_toList]
  refine forall₂_filterMap fun site _ entry image => ?_
  obtain ⟨name, own, rest⟩ := Option.bind_eq_some_iff.mp image
  obtain ⟨leads, written, rfl⟩ := Option.map_eq_some_iff.mp rest
  exact ⟨own, written, rfl⟩

theorem linksOf_eq {source : Uri} {position : FeatureId} {feature : Feature}
    {values : List Reference} (leads : (Site.mk uri tree id).uri? = some source)
    (declared : tree.feature? id position = some feature) (wanted : interest feature = true) :
    linksOf (Site.mk uri tree id) source
        (placeOf (fun site => (naming site).isSome) (Site.mk uri tree id)) feature values =
      (values.zipIdx.map fun (value, index) =>
        ((⟨id, position, if feature.isMany then some index else none⟩ : SlotKey), value)).filterMap
          fun (slot, value) => linkAt tree uri naming interest slot value := by
  rw [linksOf, List.filterMap_map]
  refine List.filterMap_congr fun ⟨value, index⟩ _ => ?_
  cases value with
  | unresolved proxy => simp [linkAt, leads, declared]
  | bound target => simp [linkAt, leads, declared, wanted]

theorem interestingLinks_eq :
    interestingLinks interest (Site.mk uri tree id)
        (placeOf (fun site => (naming site).isSome) (Site.mk uri tree id)) =
      (tree.referenceValuesOf id).filterMap
        fun (slot, value) => linkAt tree uri naming interest slot value := by
  unfold interestingLinks Tree.referenceValuesOf
  cases leads : (Site.mk uri tree id).uri? with
  | none =>
    refine (List.filterMap_eq_nil_iff.mpr ?_).symm
    rintro ⟨slot, value⟩ listed
    obtain ⟨_, _, inner⟩ := List.mem_flatMap.mp listed
    obtain ⟨_, _, same⟩ := List.mem_map.mp inner
    cases same
    simp [linkAt, leads]
  | some source =>
    rw [List.filterMap_flatMap]
    refine List.flatMap_congr fun ⟨position, feature, values⟩ listed => ?_
    have declared := (Tree.mem_referenceSlots.mp listed).1
    dsimp only
    split
    · next wanted => exact linksOf_eq leads declared wanted
    · next unwanted =>
      refine (List.filterMap_eq_nil_iff.mpr ?_).symm
      rintro ⟨slot, value⟩ listed
      obtain ⟨⟨value, index⟩, _, same⟩ := List.mem_map.mp listed
      cases same
      cases value <;> simp [linkAt, leads, declared, unwanted]

theorem links_eq_filterMap (interest : Feature → Bool) :
    ((tree.sites uri).flatMap fun site =>
        ((Strategy.ofNaming naming interest).linksAt site).entries) =
      tree.referenceValues.filterMap
        fun (slot, value) => linkAt tree uri naming interest slot value := by
  rw [Tree.sites, List.flatMap_map, Tree.referenceValues, List.filterMap_flatMap]
  exact List.flatMap_congr fun id _ => interestingLinks_eq

theorem linkAt_eq_some {slot : SlotKey} {value : Reference} {link : Link} :
    linkAt tree uri naming interest slot value = some link ↔
      (Site.mk uri tree slot.source).uri? = some link.source ∧ value = .bound link.target ∧
        (∃ feature, tree.feature? slot.source slot.feature = some feature ∧
          interest feature = true ∧ (link.target.resource ≠ uri ∨ feature.isCross = false) ∧
          link.feature = feature.name) ∧
        link.index = slot.index ∧ link.container =
          placeOf (fun site => (naming site).isSome) (Site.mk uri tree slot.source) := by
  constructor
  · intro listed
    obtain ⟨source, leads, inner⟩ := Option.bind_eq_some_iff.mp listed
    obtain ⟨feature, declared, inner⟩ := Option.bind_eq_some_iff.mp inner
    cases value with
    | unresolved proxy => cases inner
    | bound target =>
      dsimp only at inner
      split at inner
      · next wanted =>
        cases inner
        simp only [Bool.and_eq_true, Bool.or_eq_true, Bool.not_eq_true', Uri.isIn,
          decide_eq_false_iff_not] at wanted
        exact ⟨leads, rfl, ⟨feature, declared, wanted.1, wanted.2, rfl⟩, rfl, rfl⟩
      · cases inner
  · rintro ⟨leads, rfl, ⟨feature, declared, wanted, apart, name⟩, index, container⟩
    obtain ⟨source, target, own, position, place⟩ := link
    dsimp only at leads apart name index container
    have listed : (interest feature && (!target.isIn uri || !feature.isCross)) = true := by
      simpa [Uri.isIn, wanted] using apart
    simp only [linkAt, leads, declared, Option.bind_some, listed, if_true, name, index, container]

/-- The features of interest under a policy. -/
theorem interest_byPolicy (naming : Naming) (excludeDerived : Bool) :
    ∃ interest, Strategy.byPolicy naming excludeDerived = .ofNaming naming interest ∧
      ∀ feature, interest feature = true ↔ feature.isReference = true ∧
        (feature.isTransient = false ∧ feature.isVolatile = false) ∧
        (excludeDerived = true → feature.isDerived = false) := by
  cases excludeDerived with
  | false =>
    refine ⟨Feature.isIndexable, rfl, fun feature => ?_⟩
    simp [Feature.isIndexable, and_assoc]
  | true =>
    refine ⟨fun feature => !feature.isDerived && feature.isIndexable, rfl, fun feature => ?_⟩
    simp only [Feature.isIndexable, Bool.and_eq_true, Bool.not_eq_true', forall_const]
    tauto

/-- A value that is listed is one that the policy asks for, and the entry says what it is. -/
theorem records_iff (consistent : tree.Consistent) {excludeDerived : Bool} {slot : SlotKey}
    {value : Reference} {link : Link} (listed : (slot, value) ∈ tree.referenceValues)
    (policy : ∀ feature, interest feature = true ↔ feature.isReference = true ∧
      (feature.isTransient = false ∧ feature.isVolatile = false) ∧
      (excludeDerived = true → feature.isDerived = false)) :
    linkAt tree uri naming interest slot value = some link ↔
      Records tree uri naming excludeDerived slot link := by
  obtain ⟨reached, ⟨own, declaredOwn, numbered⟩, held⟩ := consistent.mem_referenceValues.mp listed
  rw [linkAt_eq_some]
  constructor
  · rintro ⟨leads, rfl, ⟨feature, declared, wanted, apart, name⟩, index, container⟩
    cases declaredOwn.symm.trans declared
    obtain ⟨kind, lasting, primary⟩ := (policy _).mp wanted
    exact ⟨leads, ⟨_, ⟨consistent.reaches_iff.mpr reached, declared, numbered, held, kind, lasting,
      primary, apart⟩, name⟩, index, container⟩
  · rintro ⟨leads, ⟨feature, indexed, name⟩, index, container⟩
    refine ⟨leads, Option.some.inj (held.symm.trans indexed.bound), ⟨feature, indexed.declared,
      (policy _).mpr ⟨indexed.kind, indexed.lasting, indexed.primary⟩, indexed.apart, name⟩, index,
      container⟩

theorem exists_records_iff (consistent : tree.Consistent) (naming : Naming) {excludeDerived : Bool}
    {slot : SlotKey} :
    (∃ link, Records tree uri naming excludeDerived slot link) ↔
      ∃ feature target, Indexes tree uri excludeDerived slot feature target := by
  constructor
  · rintro ⟨link, records⟩
    obtain ⟨feature, indexed, _⟩ := records.value
    exact ⟨feature, link.target, indexed⟩
  · rintro ⟨feature, target, indexed⟩
    have reached := consistent.reaches_iff.mp indexed.reached
    have site : Site.mk uri tree slot.source ∈ tree.sites uri :=
      List.mem_map.mpr ⟨slot.source, reached, rfl⟩
    obtain ⟨source, leads⟩ := isSome_uri?_of_mem_sites consistent site
    exact ⟨⟨source, target, feature.name, slot.index, _⟩, leads, ⟨feature, indexed, rfl⟩, rfl, rfl⟩

/-- The references of a policy are recorded once each, in the order of the document. -/
theorem records_links (consistent : tree.Consistent) (uri : ResourceUri) (naming : Naming)
    {excludeDerived : Bool}
    (policy : ∀ feature, interest feature = true ↔ feature.isReference = true ∧
      (feature.isTransient = false ∧ feature.isVolatile = false) ∧
      (excludeDerived = true → feature.isDerived = false)) :
    ∃ slots : List SlotKey,
      (slots.Pairwise fun first second =>
        Precedes (first.rank tree.allNodes) (second.rank tree.allNodes)) ∧
      (∀ slot, slot ∈ slots ↔ ∃ feature target, Indexes tree uri excludeDerived slot feature target) ∧
      List.Forall₂ (Records tree uri naming excludeDerived) slots
        (tree.referenceValues.filterMap
          fun (slot, value) => linkAt tree uri naming interest slot value) := by
  refine ⟨(tree.referenceValues.filter fun (slot, value) =>
    (linkAt tree uri naming interest slot value).isSome).map (·.1), ?sorted, ?exact, ?recorded⟩
  case sorted =>
    exact List.pairwise_map.mpr (consistent.pairwise_referenceValues.filter _)
  case exact =>
    intro slot
    rw [← exists_records_iff consistent naming, List.mem_map]
    constructor
    · rintro ⟨⟨slot, value⟩, member, rfl⟩
      obtain ⟨listed, some_link⟩ := List.mem_filter.mp member
      obtain ⟨link, image⟩ := Option.isSome_iff_exists.mp some_link
      exact ⟨link, (records_iff consistent listed policy).mp image⟩
    · rintro ⟨link, records⟩
      obtain ⟨feature, indexed, _⟩ := records.value
      have listed : (slot, .bound link.target) ∈ tree.referenceValues :=
        consistent.mem_referenceValues.mpr ⟨consistent.reaches_iff.mp indexed.reached,
          ⟨feature, indexed.declared, indexed.numbered⟩, indexed.bound⟩
      have image := (records_iff consistent listed policy).mpr records
      exact ⟨_, List.mem_filter.mpr ⟨listed, Option.isSome_of_eq_some image⟩, rfl⟩
  case recorded =>
    rw [List.forall₂_map_left_iff]
    exact forall₂_filterMap fun (slot, value) listed link image =>
      (records_iff consistent listed policy).mp image

end

/-- A tree lists in pre-order the nodes that can be reached and no others. A strategy that names nodes
describes every one of them that has a name and every reference that its policy asks for, once each
and in the order of the document; a reference lies in the nearest node with a name that holds its
source or is it. Whatever a strategy calls for, it is called for the nodes above which it has not
stopped, and to stop at some more nodes takes what lies below them from one list, and nothing else.
The two sweeps that do so end, and list just this. -/
theorem compute_exact (built : tree.Built) (holds : resource.tree? = some tree) (naming : Naming)
    (excludeDerived : Bool) :
    let sites := tree.sites resource.uri
    let described := compute (.byPolicy naming excludeDerived) resource
    ((∀ id, id ∈ tree.allNodes ↔ tree.Reaches id) ∧
      ∀ id ∈ tree.allNodes,
        tree.descendants id = id :: (tree.contents id).flatMap tree.descendants) ∧
    List.Forall₂ (Names naming) (sites.filter fun site => (naming site).isSome) described.exports ∧
    (∃ slots : List SlotKey,
      (slots.Pairwise fun first second =>
        Precedes (first.rank tree.allNodes) (second.rank tree.allNodes)) ∧
      (∀ slot, slot ∈ slots ↔
        ∃ feature target, Indexes tree resource.uri excludeDerived slot feature target) ∧
      List.Forall₂ (Records tree resource.uri naming excludeDerived) slots described.links) ∧
    ∀ strategy : Strategy,
      (compute strategy resource).exports =
        (sites.filter (isOpen strategy.exports)).flatMap (fun site => (strategy.exports site).entries) ∧
      (compute strategy resource).links =
        (sites.filter (isOpen strategy.linksAt)).flatMap (fun site => (strategy.linksAt site).entries) ∧
      (∀ cut : Site → Bool,
        compute (strategy.cutExports cut) resource = { compute strategy resource with
          exports := (sites.filter fun site =>
            isOpen strategy.exports site && !site.ancestors.any cut).flatMap
              fun site => (strategy.exports site).entries } ∧
        compute (strategy.cutLinks cut) resource = { compute strategy resource with
          links := (sites.filter fun site =>
            isOpen strategy.linksAt site && !site.ancestors.any cut).flatMap
              fun site => (strategy.linksAt site).entries }) ∧
      ∀ root, tree.root = some root →
        (∀ exports, Sweeps (fun _ _ => ()) (fun site _ => strategy.exports site)
          [(⟨resource.uri, tree, root⟩, ())] exports ↔
            (compute strategy resource).exports = exports) ∧
        ∀ links, Sweeps strategy.placeBelow strategy.links
          [(⟨resource.uri, tree, root⟩, none)] links ↔ (compute strategy resource).links = links := by
  intro sites described
  have consistent := built.consistent
  obtain ⟨interest, named, policy⟩ := interest_byPolicy naming excludeDerived
  have all : ∀ {α : Type} (visit : Site → Yield α), (∀ site, (visit site).descend = true) →
      sites.filter (isOpen visit) = sites := fun visit descends =>
    List.filter_eq_self.mpr fun site _ => isOpen_of_descends descends site
  refine ⟨⟨fun id => consistent.reaches_iff.symm, fun id reached =>
      consistent.descendants_eq (consistent.contains_of_mem reached)⟩, ?exports, ?links,
    fun strategy => ⟨exports_compute_eq holds consistent strategy,
      links_compute_eq holds consistent strategy, fun cut =>
        ⟨compute_cutExports holds consistent strategy cut,
          compute_cutLinks holds consistent strategy cut⟩,
      fun root rooted => sweeps_compute_iff holds consistent rooted strategy⟩⟩
  case exports =>
    have listed : described.exports = sites.flatMap (exportNamed naming) := by
      have open_all := all (Strategy.byPolicy naming excludeDerived).exports fun site => by
        rw [named]
        rfl
      rw [exports_compute_eq holds consistent, open_all, named]
      rfl
    rw [listed]
    exact names_exports consistent
  case links =>
    have listed : described.links = tree.referenceValues.filterMap
        fun (slot, value) => linkAt tree resource.uri naming interest slot value := by
      have open_all := all (Strategy.byPolicy naming excludeDerived).linksAt fun site => by
        rw [named]
        rfl
      rw [links_compute_eq holds consistent, open_all, named]
      exact links_eq_filterMap interest
    rw [listed]
    exact records_links consistent resource.uri naming policy

/-! ### A place without a name -/

def partClass : Classifier :=
  .build "Part" [] [.attr "name", (Feature.containment "parts" "Part").many,
    (Feature.reference "uses" "Part").many, (Feature.reference "near" "Part").cross]

def partEdits : List Edit :=
  [.create partClass, .create partClass, .create partClass, .setRoot 0, .attach 0 "parts" none 1,
    .attach 1 "parts" none 2, .setAttribute 1 "name" (.string "A"),
    .addReference 2 "uses" (.unresolved (.name ⟨["B"]⟩)),
    .addReference 2 "uses" (.bound ⟨⟨"a.parts"⟩, ⟨"/"⟩⟩),
    .setReference 2 "near" (.bound ⟨⟨"a.parts"⟩, ⟨"/"⟩⟩)]

def partResource : Resource :=
  { uri := ⟨"a.parts"⟩, content := some { tree := Tree.empty.run partEdits }, stamp := ⟨0, 0⟩ }

/-- The first reference is open and the last one is found again by linking, so that one is
described, at its own position and in the place of the node above. -/
theorem compute_exact_parts :
    List.Forall₂ (Names .nested)
      (((Tree.empty.run partEdits).sites ⟨"a.parts"⟩).filter fun site => (Naming.nested site).isSome)
      [⟨⟨["A"]⟩, ⟨⟨"a.parts"⟩, ⟨"//@parts.0"⟩⟩, "Part"⟩] ∧
    ∃ slots : List SlotKey,
      (∀ slot, slot ∈ slots ↔ ∃ feature target,
        Indexes (Tree.empty.run partEdits) ⟨"a.parts"⟩ true slot feature target) ∧
      List.Forall₂ (Records (Tree.empty.run partEdits) ⟨"a.parts"⟩ .nested true) slots
        [⟨⟨⟨"a.parts"⟩, ⟨"//@parts.0/@parts.0"⟩⟩, ⟨⟨"a.parts"⟩, ⟨"/"⟩⟩, "uses", some 1,
          some ⟨⟨"a.parts"⟩, ⟨"//@parts.0"⟩⟩⟩] := by
  have holds : partResource.tree? = some (Tree.empty.run partEdits) := rfl
  have exact := compute_exact (Tree.Built.empty.run partEdits) holds .nested true
  have exports : (compute (.byPolicy .nested true) partResource).exports =
      [⟨⟨["A"]⟩, ⟨⟨"a.parts"⟩, ⟨"//@parts.0"⟩⟩, "Part"⟩] := by cbv
  have links : (compute (.byPolicy .nested true) partResource).links =
      [⟨⟨⟨"a.parts"⟩, ⟨"//@parts.0/@parts.0"⟩⟩, ⟨⟨"a.parts"⟩, ⟨"/"⟩⟩, "uses", some 1,
        some ⟨⟨"a.parts"⟩, ⟨"//@parts.0"⟩⟩⟩] := by cbv
  obtain ⟨_, named, ⟨slots, _, indexed, recorded⟩, _⟩ := exact
  rw [exports] at named
  rw [links] at recorded
  exact ⟨named, slots, indexed, recorded⟩

end Description

end Crosslink
