import Crosslink.Proofs.Linking.Verdicts
import Crosslink.Proofs.Naming
import Crosslink.Proofs.ResourceSet.Shape

/-! Scopes and verdicts that do not look at references.

Linking changes the values of references and what is noted of them. A scope that
does not look at these finds the same at any time, as long as nothing is loaded,
and so every reference has one verdict.
-/

set_option autoImplicit false

namespace Crosslink

namespace Site

variable {site : Site} {tree : Tree}

theorem uri?_of_shape (same : tree.shape = site.tree.shape) :
    ({ site with tree } : Site).uri? = site.uri? := by
  unfold uri? fragment?
  rw [Tree.fragment?_of_shape same]

theorem range?_of_shape (same : tree.shape = site.tree.shape) :
    ({ site with tree } : Site).range? = site.range? := by
  unfold range?
  rw [← Tree.range?_shape, same, Tree.range?_shape]

end Site

/-! ### Settling keeps shapes -/

namespace Content

variable {content after : Content} {pending : Pending} {target : Uri} {warning : Option Diagnostic}

theorem shape_importName? {name : QualifiedName} (done : content.importName? name = some after) :
    after.shape = content.shape := by
  rw [importName?_eq_some done]
  rfl

theorem whole_shape_of_bind? (done : content.bind? pending target warning = some after) :
    after.shape = content.shape := by
  have trees := shape_of_bind? done
  obtain ⟨tree, _, rfl⟩ := Option.map_eq_some_iff.mp done
  unfold shape
  rw [trees]

end Content

namespace Resource

variable {resource : Resource} {pending : Pending} {verdict : Linking.Verdict}

theorem shape_update {change? : Content → Option Content}
    (keeps : ∀ content after, change? content = some after → after.shape = content.shape) :
    (resource.update change?).shape = resource.shape := by
  unfold update
  cases held : resource.content with
  | none => rfl
  | some content =>
    rw [Option.bind_some]
    cases changed : change? content with
    | none => rfl
    | some after =>
      unfold put touch shape
      rw [held, Option.map_some, Option.map_some, keeps content after changed]

theorem shape_note (resource : Resource) (proxy : Proxy) :
    (resource.note proxy).shape = resource.shape := by
  cases proxy with
  | uri target => rfl
  | name name => exact shape_update fun _ _ => Content.shape_importName?

theorem shape_settle : (resource.settle pending verdict).shape = resource.shape := by
  cases verdict with
  | passed => rfl
  | kept error =>
    rw [← resource.shape_note pending.proxy]
    unfold settle shape
    dsimp only
    rw [Option.map_map]
    rfl
  | bound target warning =>
    exact (shape_update fun _ _ => Content.whole_shape_of_bind?).trans
      (resource.shape_note pending.proxy)

end Resource

namespace Linking

variable {naming : Naming} {scope : Scope} {set next : ResourceSet} {home : ResourceUri}
  {pending : Pending} {site : Site} {feature : Feature} {name : QualifiedName} {proxy : Proxy}

/-! ### Scopes -/

/-- The scope finds the same in sets that differ in references only. -/
def Scope.IgnoresReferences (scope : Scope) : Prop :=
  ∀ (set next : ResourceSet) (site : Site) (tree : Tree) (feature : Feature)
    (name : QualifiedName), next.shape = set.shape → tree.shape = site.tree.shape →
      scope next { site with tree } feature name = scope set site feature name

theorem contents_shape (resource : Resource) : resource.shape.contents =
    resource.contents.map fun site => { site with tree := site.tree.shape } := by
  unfold Resource.contents Resource.tree? Resource.shape
  cases resource.content with
  | none => rfl
  | some content =>
    simp only [Option.map_some, Content.shape, Tree.allNodes_shape, List.map_filterMap]
    congr 1
    funext id
    unfold Site.at?
    rw [Tree.contains_shape]
    split <;> rfl

theorem candidatesIn_shape (ignores : naming.IgnoresReferences) (resource : Resource) :
    candidatesIn naming feature name resource.shape =
      candidatesIn naming feature name resource := by
  have alike : ∀ site : Site, ({ site with tree := site.tree.shape } : Site).fits feature =
      site.fits feature ∧ naming { site with tree := site.tree.shape } = naming site ∧
        ({ site with tree := site.tree.shape } : Site).uri? = site.uri? := fun site =>
    have same := site.tree.shape_shape
    ⟨Site.fits_of_shape same rfl, ignores site _ same, Site.uri?_of_shape same⟩
  unfold candidatesIn
  rw [contents_shape, List.filter_map, List.filterMap_map]
  congr 1
  · funext site
    exact (alike site).2.2
  · apply List.filter_congr
    intro site _
    rw [Function.comp_apply, (alike site).1, (alike site).2.1]

theorem candidatesIn_of_shape (ignores : naming.IgnoresReferences) {resource next : Resource}
    (named : next.uri = resource.uri)
    (same : next.content.map (·.tree.shape) = resource.content.map (·.tree.shape)) :
    candidatesIn naming feature name next = candidatesIn naming feature name resource := by
  have trees : next.shape.tree? = resource.shape.tree? := by
    unfold Resource.tree? Resource.shape
    rw [Option.map_map, Option.map_map]
    exact same
  have places : next.shape.uri = resource.shape.uri := named
  rw [← candidatesIn_shape ignores next, ← candidatesIn_shape ignores resource]
  unfold candidatesIn Resource.contents
  rw [trees, places]

theorem globalScope_ignoresReferences (ignores : naming.IgnoresReferences) :
    (globalScope naming).IgnoresReferences := by
  have shaped : ∀ (set : ResourceSet) (site : Site) (feature : Feature) (name : QualifiedName),
      globalScope naming set.shape site feature name =
        globalScope naming set site feature name := by
    intro set site feature name
    have each : (fun resource : Resource => candidatesIn naming feature name resource.shape) =
        candidatesIn naming feature name := funext (candidatesIn_shape ignores)
    unfold globalScope
    rw [ResourceSet.get?_shape, ResourceSet.shape, List.filter_map]
    have own : ((set.get? site.resource).map Resource.shape).toList =
        (set.get? site.resource).toList.map Resource.shape := by
      cases set.get? site.resource <;> rfl
    dsimp only
    rw [own, ← List.map_append, List.flatMap_map, each]
    rfl
  intro set next site tree feature name same _
  rw [← shaped next, ← shaped set, same]
  rfl

/-! ### Verdicts -/

theorem unresolvedError_of_shape {tree : Tree} (same : tree.shape = site.tree.shape) :
    unresolvedError { site with tree } feature proxy = unresolvedError site feature proxy := by
  unfold unresolvedError diagnosticAt
  rw [Site.uri?_of_shape same, Site.range?_of_shape same]

theorem Verdict.of_of_shape {tree : Tree} (same : tree.shape = site.tree.shape)
    (uris : List Uri) : Verdict.of { site with tree } feature proxy uris =
      Verdict.of site feature proxy uris := by
  cases uris with
  | nil => exact congrArg Verdict.kept (unresolvedError_of_shape same)
  | cons target others =>
    unfold Verdict.of ambiguityWarning diagnosticAt
    rw [Site.uri?_of_shape same, Site.range?_of_shape same]

-- The reference is passed over in both sets, or its sites differ in references only.
theorem contexts_of_shape (same : (next.content? home).map (·.tree.shape) =
      (set.content? home).map (·.tree.shape)) (pending : Pending) :
    context? next home pending = none ∧ context? set home pending = none ∨
      ∃ site tree feature, tree.shape = site.tree.shape ∧
        context? set home pending = some (site, feature) ∧
        context? next home pending = some ({ site with tree }, feature) := by
  cases here : context? set home pending with
  | none =>
    left
    refine ⟨?_, rfl⟩
    cases there : context? next home pending with
    | none => rfl
    | some found =>
      obtain ⟨_, _, found⟩ := context?_of_shape same.symm there
      rw [here] at found
      cases found
  | some found =>
    obtain ⟨tree, shapes, there⟩ := context?_of_shape same here
    exact .inr ⟨_, tree, _, shapes, rfl, there⟩

/-- A reference has one verdict in all sets that differ in references only. -/
theorem verdict_of_shape (ignores : scope.IgnoresReferences) (same : next.shape = set.shape)
    (home : ResourceUri) (pending : Pending) :
    verdict scope next home pending = verdict scope set home pending := by
  rcases contexts_of_shape (ResourceSet.alike_of_shape same home) pending with
    ⟨there, here⟩ | ⟨site, tree, feature, shapes, here, there⟩
  · rw [verdict_of_lost there, verdict_of_lost here]
  · cases asked : candidates scope set home site feature pending.proxy with
    | mk found uris =>
      cases asked' : candidates scope next home { site with tree } feature pending.proxy with
      | mk found' uris' =>
        have agree : uris' = uris ∧ found.set.Alike found'.set := by
          cases waits : pending.proxy with
          | uri target =>
            rw [waits, candidates_uri] at asked asked'
            cases asked
            cases asked'
            exact ⟨rfl, ((ResourceSet.twins_of_shape same).ensureLoaded target.resource).alike⟩
          | name name =>
            rw [waits] at asked asked'
            cases asked
            cases asked'
            have kept : ∀ set : ResourceSet, (noted set home name).shape = set.shape := fun _ =>
              ResourceSet.shape_modify fun resource => resource.shape_note (.name name)
            have later : (noted next home name).shape = (noted set home name).shape := by
              rw [kept, kept, same]
            exact ⟨ignores _ _ site tree feature name later shapes,
              ResourceSet.alike_of_shape later⟩
        obtain ⟨rfl, alike⟩ := agree
        rw [verdict_of_asked there asked', verdict_of_asked here asked, Verdict.of_of_shape shapes]
        congr 1
        apply List.filter_congr
        intro uri _
        exact conforms_of_alike alike

end Linking

end Crosslink
