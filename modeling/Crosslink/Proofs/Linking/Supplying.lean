import Crosslink.Proofs.Linking.Visits

/-! What linking loads on its way.

A visit loads the resource of a known address, and nothing else. A visit of a
reference whose resource is loaded already, or cannot be had, loads nothing.
-/

set_option autoImplicit false

namespace Crosslink

namespace Content

variable {content after : Content} {pending : Pending} {target : Uri} {warning : Option Diagnostic}

theorem shape_of_bind? (done : content.bind? pending target warning = some after) :
    after.tree.shape = content.tree.shape := by
  obtain ⟨_, replaced, _⟩ := bind?_eq_some done
  rw [replaced, Tree.shape_replaceReference]

end Content

namespace Linking

variable {scope : Scope} {set : ResourceSet} {home other : ResourceUri} {pending : Pending}
  {content : Content}

def supplied (home : ResourceUri) (set : ResourceSet) (pending : Pending) : ResourceSet :=
  match context? set home pending, pending.proxy with
  | some _, .uri target => (set.ensureLoaded target.resource).1
  | _, _ => set

theorem supplied_of_lost (lost : context? set home pending = none) :
    supplied home set pending = set := by
  unfold supplied
  rw [lost]

theorem supplied_of_uri {here : Site × Feature} {target : Uri}
    (found : context? set home pending = some here) (waits : pending.proxy = .uri target) :
    supplied home set pending = (set.ensureLoaded target.resource).1 := by
  unfold supplied
  rw [found, waits]

theorem supplied_of_name {name : QualifiedName} (waits : pending.proxy = .name name) :
    supplied home set pending = set := by
  unfold supplied
  rw [waits]
  cases context? set home pending <;> rfl

theorem content?_supplied (held : set.content? other = some content) :
    (supplied home set pending).content? other = some content := by
  unfold supplied
  split
  · exact ResourceSet.content?_ensureLoaded held
  · exact held

/-! ### Visits load what is supplied -/

theorem twins_noted (name : QualifiedName) : set.Twins (noted set home name) :=
  ResourceSet.twins_update fun _ _ _ done => by rw [Content.importName?_eq_some done]

theorem twins_reportAt (slot : SlotKey) (diagnostic : Diagnostic) :
    set.Twins (reportAt set home slot diagnostic) := by
  apply ResourceSet.twins_modify
  · exact fun _ named => ⟨named, rfl⟩
  · intro other
    have after := @content?_reportAt set home slot diagnostic other
    unfold reportAt at after
    rw [after]
    split
    · cases set.content? other <;> rfl
    · rfl

theorem twins_bindAt (target : Uri) (warning : Option Diagnostic) :
    set.Twins (bindAt set home pending target warning) :=
  ResourceSet.twins_update fun _ _ _ done => Content.shape_of_bind? done

section Candidates

variable {site : Site} {feature : Feature} {found : Resolution} {uris : List Uri}
  (here : context? set home pending = some (site, feature))
  (asked : candidates scope set home site feature pending.proxy = (found, uris))
include here asked

theorem twins_candidates : (supplied home set pending).Twins found.set := by
  cases waits : pending.proxy with
  | uri target =>
    rw [waits, candidates_uri] at asked
    cases asked
    rw [supplied_of_uri here waits]
    exact .refl _
  | name name =>
    rw [waits] at asked
    cases asked
    rw [supplied_of_name waits]
    exact twins_noted name

theorem content?_candidates_of_ne (apart : other ≠ home) :
    found.set.content? other = (supplied home set pending).content? other := by
  cases waits : pending.proxy with
  | uri target =>
    rw [waits, candidates_uri] at asked
    cases asked
    rw [supplied_of_uri here waits]
  | name name =>
    rw [waits] at asked
    cases asked
    rw [supplied_of_name waits]
    exact (ResourceSet.content?_modify_update _ other).trans (if_neg apart)

end Candidates

theorem twins_resolve : (supplied home set pending).Twins (resolve scope set home pending).set := by
  have outcome := resolves scope set home pending
  generalize (resolve scope set home pending).set = after at outcome ⊢
  cases outcome with
  | passed lost =>
    rw [supplied_of_lost lost]
    exact .refl set
  | reported here asked fruitless => exact (twins_candidates here asked).trans (twins_reportAt _ _)
  | bound here asked member fits warns => exact (twins_candidates here asked).trans (twins_bindAt _ _)

theorem content?_resolve_of_ne (apart : other ≠ home) :
    (resolve scope set home pending).set.content? other =
      (supplied home set pending).content? other := by
  have outcome := resolves scope set home pending
  generalize (resolve scope set home pending).set = after at outcome ⊢
  -- both what is reported and what is bound goes into the resource that is visited
  cases outcome with
  | passed lost => rw [supplied_of_lost lost]
  | reported here asked fruitless =>
    rw [content?_reportAt, if_neg apart, content?_candidates_of_ne here asked apart]
  | bound here asked member fits warns =>
    rw [content?_bindAt, if_neg apart, content?_candidates_of_ne here asked apart]

/-! ### Visits that load nothing -/

/-- The visit of a reference asks for no text that can be had. -/
def Idle (set : ResourceSet) (home : ResourceUri) (pending : Pending) : Prop :=
  ∀ here target, context? set home pending = some here → pending.proxy = .uri target →
    set.Steady target.resource

theorem idle_of_bare (bare : set.loader = none) : Idle set home pending :=
  fun _ target _ _ => ResourceSet.steady_of_bare bare target.resource

theorem Idle.of_twins {next : ResourceSet} (idle : Idle set home pending) (twins : set.Twins next) :
    Idle next home pending := by
  intro here target found waits
  obtain ⟨site, found'⟩ := context?_of_alike twins.alike.symm found
  exact (twins.steady target.resource).mpr (idle _ target found' waits)

theorem supplied_of_idle (idle : Idle set home pending) :
    ∃ requests, supplied home set pending = { set with requests } := by
  cases here : context? set home pending with
  | none => exact ⟨set.requests, supplied_of_lost here⟩
  | some found =>
    cases waits : pending.proxy with
    | name name => exact ⟨set.requests, supplied_of_name waits⟩
    | uri target =>
      obtain ⟨requests, _, asked, _⟩ := (idle found target here waits).ensureLoaded
      exact ⟨requests, by rw [supplied_of_uri here waits, asked]⟩

theorem twins_supplied (idle : Idle set home pending) :
    set.Twins (supplied home set pending) := by
  obtain ⟨requests, same⟩ := supplied_of_idle idle
  rw [same]
  exact ⟨.refl set, rfl, fun _ => rfl⟩

theorem twins_resolve_of_idle (idle : Idle set home pending) :
    set.Twins (resolve scope set home pending).set :=
  (twins_supplied idle).trans twins_resolve

theorem content?_resolve_of_idle (idle : Idle set home pending) (apart : other ≠ home) :
    (resolve scope set home pending).set.content? other = set.content? other := by
  obtain ⟨requests, same⟩ := supplied_of_idle idle
  rw [content?_resolve_of_ne apart, same]
  rfl

theorem loaded_of_asked {site : Site} {feature : Feature}
    (here : context? set home pending = some (site, feature)) :
    (resolve scope set home pending).loaded =
      (candidates scope set home site feature pending.proxy).1.loaded := by
  unfold resolve
  rw [here]
  dsimp only
  split <;> rfl

theorem loaded_of_idle (idle : Idle set home pending) :
    (resolve scope set home pending).loaded = none := by
  cases here : context? set home pending with
  | none =>
    unfold resolve
    rw [here]
  | some found =>
    rw [loaded_of_asked here]
    cases waits : pending.proxy with
    | name name => rfl
    | uri target =>
      obtain ⟨requests, result, loading, vain⟩ := (idle _ target here waits).ensureLoaded
      rw [candidates_uri, loading]
      exact if_neg (by simp [vain])

end Linking

end Crosslink
