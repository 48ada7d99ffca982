import Crosslink.Proofs.Linking.Supplying
import Crosslink.Proofs.Tree.Writing

/-! What a visit decides, apart from where it writes that down.

A visit loads what it needs, judges the reference, and settles it in its own
resource by the verdict. The verdict alone tells what becomes of the tree, of
what waits and of what is noted.
-/

set_option autoImplicit false

namespace Crosslink

namespace Linking

inductive Verdict where
  /-- There is no such node, or it has no such feature. -/
  | passed
  | kept (error : Diagnostic)
  | bound (target : Uri) (warning : Option Diagnostic)

def Verdict.of (site : Site) (feature : Feature) (proxy : Proxy) : List Uri → Verdict
  | [] => .kept (unresolvedError site feature proxy)
  | target :: others =>
    .bound target (if others.isEmpty then none
      else some (ambiguityWarning site feature proxy (others.length + 1) target))

def verdict (scope : Scope) (set : ResourceSet) (home : ResourceUri) (pending : Pending) :
    Verdict :=
  match context? set home pending with
  | none => .passed
  | some (site, feature) =>
    let (found, uris) := candidates scope set home site feature pending.proxy
    .of site feature pending.proxy (uris.filter (conforms found.set feature))

end Linking

open Linking

namespace Content

def note (content : Content) : Proxy → Content
  | .name name => (content.importName? name).getD content
  | .uri _ => content

def settle (content : Content) (pending : Pending) : Verdict → Content
  | .passed => content
  | .kept error => (content.note pending.proxy).report pending.slot error
  | .bound target warning =>
    ((content.note pending.proxy).bind? pending target warning).getD (content.note pending.proxy)

def closes (content : Content) (pending : Pending) : Verdict → Bool
  | .bound _ _ => (content.tree.referenceAt? pending.slot).isSome
  | _ => false

variable {content next : Content} {pending : Pending} {verdict : Verdict} {target : Uri}
  {warning : Option Diagnostic}

theorem importedNames_importName? (name : QualifiedName) :
    (content.importName? name).getD content =
      { content with importedNames :=
          if name ∈ content.importedNames then content.importedNames
          else content.importedNames ++ [name] } := by
  unfold importName?
  split <;> rfl

theorem note_eq (proxy : Proxy) :
    content.note proxy = { content with importedNames := (content.note proxy).importedNames } := by
  cases proxy with
  | uri target => rfl
  | name name => rw [note, importedNames_importName?]

@[simp] theorem tree_note (proxy : Proxy) : (content.note proxy).tree = content.tree := by
  rw [note_eq]

@[simp] theorem pending_note (proxy : Proxy) : (content.note proxy).pending = content.pending := by
  rw [note_eq]

/-- What a bound reference leaves, with the slot holding a value. -/
theorem settle_bound (present : (content.tree.referenceAt? pending.slot).isSome = true) :
    ∃ after, (content.note pending.proxy).bind? pending target warning = some after ∧
      content.settle pending (.bound target warning) = after := by
  rw [← @tree_note content pending.proxy] at present
  obtain ⟨after, done⟩ := Option.isSome_iff_exists.mp
    (@isSome_bind? _ pending target warning present)
  exact ⟨after, done, by rw [settle, done, Option.getD_some]⟩

/-- Without a value in the slot a reference is noted, and that is all. -/
theorem settle_absent (absent : (content.tree.referenceAt? pending.slot).isSome = false) :
    (content.note pending.proxy).bind? pending target warning = none ∧
      content.settle pending (.bound target warning) = content.note pending.proxy := by
  have undone : (content.note pending.proxy).bind? pending target warning = none := by
    cases done : (content.note pending.proxy).bind? pending target warning with
    | none => rfl
    | some after =>
      have present := (bind?_eq_some done).1
      rw [tree_note, absent] at present
      cases present
  exact ⟨undone, by rw [settle, undone, Option.getD_none]⟩

theorem shape_settle : (content.settle pending verdict).tree.shape = content.tree.shape := by
  cases verdict with
  | passed => rfl
  | kept error => exact congrArg Tree.shape (tree_note pending.proxy)
  | bound target warning =>
    cases present : (content.tree.referenceAt? pending.slot).isSome with
    | false => rw [(settle_absent present).2, tree_note]
    | true =>
      obtain ⟨after, done, settled⟩ := @settle_bound content pending target warning present
      rw [settled, shape_of_bind? done, tree_note]

theorem closes_of_shape (same : next.tree.shape = content.tree.shape) (pending : Pending)
    (verdict : Verdict) : next.closes pending verdict = content.closes pending verdict := by
  cases verdict with
  | passed => rfl
  | kept error => rfl
  | bound target warning => exact Tree.isSome_referenceAt?_of_shape same

/-- What is left to wait. -/
theorem pending_settle : (content.settle pending verdict).pending =
    if content.closes pending verdict then content.pending.filter (·.slot ≠ pending.slot)
    else content.pending := by
  cases verdict with
  | passed => rfl
  | kept error => exact pending_note pending.proxy
  | bound target warning =>
    unfold closes
    cases present : (content.tree.referenceAt? pending.slot).isSome with
    | false => rw [(settle_absent present).2, pending_note, if_neg Bool.false_ne_true]
    | true =>
      obtain ⟨after, done, settled⟩ := @settle_bound content pending target warning present
      rw [settled, (bind?_eq_some done).2.2.1, pending_note, if_pos rfl]

end Content

namespace Resource

variable {resource : Resource} {pending : Pending} {verdict : Verdict}

def note (resource : Resource) : Proxy → Resource
  | .name name => resource.update (·.importName? name)
  | .uri _ => resource

/-- Write down what a verdict says, and count it as a change unless it is a report only. -/
def settle (resource : Resource) (pending : Pending) : Verdict → Resource
  | .passed => resource
  | .kept error =>
    let noted := resource.note pending.proxy
    { noted with content := noted.content.map (·.report pending.slot error) }
  | .bound target warning =>
    (resource.note pending.proxy).update (·.bind? pending target warning)

@[simp] theorem uri_note (proxy : Proxy) : (resource.note proxy).uri = resource.uri := by
  cases proxy with
  | uri target => rfl
  | name name => exact resource.uri_update _

@[simp] theorem uri_settle : (resource.settle pending verdict).uri = resource.uri := by
  cases verdict with
  | passed => rfl
  | kept error => exact uri_note pending.proxy
  | bound target warning => exact (uri_update _ _).trans (uri_note pending.proxy)

@[simp] theorem language_note (proxy : Proxy) :
    (resource.note proxy).language = resource.language := by
  cases proxy with
  | uri target => rfl
  | name name => exact resource.language_update _

@[simp] theorem language_settle :
    (resource.settle pending verdict).language = resource.language := by
  cases verdict with
  | passed => rfl
  | kept error => exact language_note pending.proxy
  | bound target warning => exact (language_update _ _).trans (language_note pending.proxy)

theorem content_note (resource : Resource) (proxy : Proxy) :
    (resource.note proxy).content = resource.content.map (·.note proxy) := by
  cases proxy with
  | uri target => exact Option.map_id'.symm
  | name name => exact resource.content_update _

theorem content_settle : (resource.settle pending verdict).content =
    resource.content.map (·.settle pending verdict) := by
  cases verdict with
  | passed => exact Option.map_id'.symm
  | kept error =>
    unfold settle
    dsimp only
    rw [content_note, Option.map_map]
    rfl
  | bound target warning =>
    unfold settle
    rw [content_update, content_note, Option.map_map]
    rfl

end Resource

namespace ResourceSet

variable {set : ResourceSet} {uri : ResourceUri}

theorem modify_id : set.modify uri (fun resource => resource) = set := by
  unfold modify
  simp only [ite_self, List.map_id']

theorem modify_modify {change more : Resource → Resource}
    (keeps : ∀ resource : Resource, resource.uri = uri → (change resource).uri = uri) :
    (set.modify uri change).modify uri more = set.modify uri fun r => more (change r) := by
  unfold modify
  rw [List.map_map]
  congr 1
  apply List.map_congr_left
  intro resource _
  rw [Function.comp_apply]
  split
  · next here => rw [if_pos (keeps resource here)]
  · rfl

end ResourceSet

namespace Linking

variable {scope : Scope} {set : ResourceSet} {home : ResourceUri} {pending : Pending}
  {site : Site} {feature : Feature} {found : Resolution} {uris : List Uri}

/-- What waits in a slot of a consistent tree has its node and its feature. -/
theorem exists_context {content : Content} {value : Reference}
    (held : set.content? home = some content) (consistent : content.tree.Consistent)
    (present : content.tree.referenceAt? pending.slot = some value) :
    ∃ site feature, context? set home pending = some (site, feature) := by
  obtain ⟨feature, declared⟩ := consistent.feature_of_referenceAt? present
  exact ⟨_, feature, context?_eq_some_iff.mpr ⟨content, held, rfl, declared⟩⟩

theorem verdict_of_lost (lost : context? set home pending = none) :
    verdict scope set home pending = .passed := by
  unfold verdict
  rw [lost]

theorem verdict_of_asked (here : context? set home pending = some (site, feature))
    (asked : candidates scope set home site feature pending.proxy = (found, uris)) :
    verdict scope set home pending =
      .of site feature pending.proxy (uris.filter (conforms found.set feature)) := by
  unfold verdict
  rw [here]
  dsimp only
  rw [asked]

-- What is asked for is loaded, and a name is noted, before the candidates are tested.
theorem set_candidates (here : context? set home pending = some (site, feature))
    (asked : candidates scope set home site feature pending.proxy = (found, uris)) :
    found.set = (supplied home set pending).modify home (·.note pending.proxy) := by
  cases waits : pending.proxy with
  | uri target =>
    rw [waits, candidates_uri] at asked
    cases asked
    rw [supplied_of_uri here waits]
    exact ResourceSet.modify_id.symm
  | name name =>
    rw [waits] at asked
    cases asked
    rw [supplied_of_name waits]
    rfl

/-- A visit loads what it needs, and settles the reference by the verdict. -/
theorem set_resolve : (resolve scope set home pending).set =
    (supplied home set pending).modify home
      (·.settle pending (verdict scope set home pending)) := by
  cases here : context? set home pending with
  | none =>
    rw [verdict_of_lost here, supplied_of_lost here]
    unfold resolve
    rw [here]
    exact ResourceSet.modify_id.symm
  | some context =>
    obtain ⟨site, feature⟩ := context
    cases asked : candidates scope set home site feature pending.proxy with
    | mk found uris =>
      have noted := set_candidates here asked
      rw [verdict_of_asked here asked]
      unfold resolve
      rw [here]
      dsimp only
      rw [asked]
      dsimp only
      -- noting comes first in both, and the change of the resource is put on top of it
      have twice := fun more => @ResourceSet.modify_modify (supplied home set pending) home
        (·.note pending.proxy) more fun resource named => (Resource.uri_note _).trans named
      cases uris.filter (conforms found.set feature) with
      | nil =>
        show reportAt found.set home pending.slot _ = _
        rw [noted]
        exact twice _
      | cons target others =>
        show bindAt found.set home pending target _ = _
        rw [noted]
        exact twice _

/-- A visit counts as bound exactly if it closes the slot. -/
theorem isBound_resolve : (resolve scope set home pending).isBound =
    (set.content? home).any (·.closes pending (verdict scope set home pending)) := by
  cases here : context? set home pending with
  | none =>
    rw [verdict_of_lost here]
    unfold resolve
    rw [here]
    cases set.content? home <;> rfl
  | some context =>
    obtain ⟨site, feature⟩ := context
    obtain ⟨content, held, _⟩ := context?_eq_some_iff.mp here
    cases asked : candidates scope set home site feature pending.proxy with
    | mk found uris =>
      have fresh : found.isBound = false := by
        cases waits : pending.proxy with
        | uri target =>
          rw [waits, candidates_uri] at asked
          cases asked
          rfl
        | name name =>
          rw [waits] at asked
          cases asked
          rfl
      obtain ⟨names, kept⟩ := content?_candidates asked held
      rw [verdict_of_asked here asked, held]
      unfold resolve
      rw [here]
      dsimp only
      rw [asked]
      dsimp only
      cases uris.filter (conforms found.set feature) with
      | nil => exact fresh
      | cons target others =>
        obtain ⟨resource, present, filled⟩ := Option.bind_eq_some_iff.mp kept
        show hasSlot found.set home pending.slot = (content.tree.referenceAt? pending.slot).isSome
        unfold hasSlot Resource.tree?
        rw [present, Option.bind_some, filled]
        rfl

end Linking

end Crosslink
