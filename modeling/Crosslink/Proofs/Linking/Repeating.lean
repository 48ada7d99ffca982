import Crosslink.Proofs.Linking.Completeness
import Crosslink.Proofs.Linking.Resuming
import Crosslink.Proofs.Linking.Searching

/-! Linking once more.

A run looks each name up once. A resource that it loads later may hold a node of
that name, so that a second run may bind what the first one left open. What had
all its candidates in time has the verdict that it got, and is left as it is. A
second run loads nothing, and leaves nothing for a third one.
-/

set_option autoImplicit false

namespace Crosslink

open Linking

namespace Linking

variable {naming : Naming} {scope : Scope} {start set next : ResourceSet} {home : ResourceUri}
  {pending : Pending} {site other : Site} {feature : Feature} {name : QualifiedName} {target : Uri}
  {content : Content}

/-! ### The verdicts of a second run -/

/-- The reference waits by name, and has a candidate in a resource that was not loaded at the
start. -/
def Late (naming : Naming) (start set : ResourceSet) (home : ResourceUri) (pending : Pending) :
    Prop :=
  (∃ name, pending.proxy = .name name) ∧
    ∃ target ∈ fitting (globalScope naming) set home pending,
      start.isLoaded target.resource = false

section Settled

variable {earlier : ResourceSet} {tree : Tree} (ignores : naming.IgnoresReferences)
  (shapes : tree.shape = site.tree.shape)
  (here : context? earlier home pending = some (site, feature))
  (there : context? set home pending = some ({ site with tree }, feature))
  (after : (supplied home earlier pending).Extends set)
include ignores shapes here there after

/-- An address leads where it led when its resource had been asked for. -/
theorem verdict_of_address (waits : pending.proxy = .uri target) :
    verdict (globalScope naming) set home pending =
      verdict (globalScope naming) earlier home pending := by
  have steady : (supplied home earlier pending).Steady target.resource := by
    rw [supplied_of_uri here waits]
    exact ResourceSet.steady_ensureLoaded earlier target.resource
  have idle : Idle set home pending := by
    intro _ known _ waits'
    cases waits.symm.trans waits'
    exact after.steady steady
  have asked := @candidates_uri (globalScope naming) earlier home site feature target
  rw [← supplied_of_uri here waits, ← waits] at asked
  rw [verdict_of_idle (globalScope_ignoresReferences ignores) idle there,
    verdict_of_asked here asked, Verdict.of_of_shape shapes]
  unfold fitting
  rw [there, waits]
  dsimp only
  rw [List.filter_singleton, List.filter_singleton, conforms_of_shape (after.same steady)]

/-- A name may have got more candidates, but none in what was loaded then. -/
theorem verdict_of_name (once : set.uris.Nodup) (once' : earlier.uris.Nodup)
    (before : start.Extends earlier) (waits : pending.proxy = .name name) :
    (verdict (globalScope naming) set home pending).Like
        (verdict (globalScope naming) earlier home pending) ∨
      Late naming start set home pending := by
  have free : ∀ set : ResourceSet, Idle set home pending := fun _ _ _ _ known =>
    nomatch waits.symm.trans known
  rw [supplied_of_name waits] at after
  have kept : ∀ target, earlier.isLoaded target.resource = true →
      (target ∈ fitting (globalScope naming) set home pending ↔
        target ∈ fitting (globalScope naming) earlier home pending) := by
    intro target loaded
    have same := after.same (.inl loaded)
    rw [mem_fitting_of_name there waits, mem_fitting_of_name here waits,
      mem_globalScope_of_shape ignores once' once same, conforms_of_shape same]
  have scope := globalScope_ignoresReferences ignores
  rw [verdict_of_idle scope (free set) there, verdict_of_idle scope (free earlier) here,
    Verdict.of_of_shape shapes]
  cases now : fitting (globalScope naming) set home pending with
  | nil =>
    have none_before : fitting (globalScope naming) earlier home pending = [] := by
      apply List.eq_nil_iff_forall_not_mem.mpr
      intro target found
      have loaded := isLoaded_of_conforms ((mem_fitting_of_name here waits).mp found).2
      have still := (kept target loaded).mpr found
      rw [now] at still
      cases still
    rw [none_before]
    exact .inl (.inl rfl)
  | cons target others =>
    cases then_ : fitting (globalScope naming) earlier home pending with
    | cons => exact .inl (.inr ⟨rfl, rfl⟩)
    | nil =>
      have found : target ∈ fitting (globalScope naming) set home pending := by simp [now]
      refine .inr ⟨⟨name, waits⟩, target, found, Bool.eq_false_iff.mpr fun loaded => ?_⟩
      have earlier_too := (kept target (before.isLoaded loaded)).mp found
      rw [then_] at earlier_too
      cases earlier_too

end Settled

/-- A verdict stands unless a candidate has come too late for it. -/
theorem like_or_late (ignores : naming.IgnoresReferences) (once : set.uris.Nodup)
    {entry : Pending × Verdict} (stands : Stands (globalScope naming) start set home entry) :
    (verdict (globalScope naming) set home entry.1).Like entry.2 ∨
      Late naming start set home entry.1 := by
  obtain ⟨earlier, once', before, loaded, judged, after⟩ := stands
  have extended := (extends_supplied home earlier entry.1).trans after
  rw [← judged]
  rcases contexts_of_shape (extended.same (.inl loaded)) entry.1 with
    ⟨there, here⟩ | ⟨site, tree, feature, shapes, here, there⟩
  · rw [verdict_of_lost there, verdict_of_lost here]
    exact .inl (.inl rfl)
  · cases waits : entry.1.proxy with
    | uri target => exact .inl (.inl (verdict_of_address ignores shapes here there after waits))
    | name name =>
      exact verdict_of_name ignores shapes here there after once once' before waits

section Served

variable (ignores : naming.IgnoresReferences) (once : set.uris.Nodup)
  (served : Served (globalScope naming) start set)

/-- A second run loads nothing. -/
theorem complete_of_served (served : Served scope start set) : Complete set := by
  rintro home pending member ⟨site, feature⟩ target found waits
  obtain ⟨content, held, _⟩ := context?_eq_some_iff.mp found
  rw [waiting_eq held] at member
  obtain ⟨before, entries, _, listed, rfl, stands⟩ := (served held).whole
  rw [Content.pending_settleAll, ← listed] at member
  obtain ⟨entry, among, rfl⟩ := List.mem_map.mp (List.mem_filter.mp member).1
  obtain ⟨earlier, _, _, loaded, _, after⟩ := stands entry among
  have extended := (extends_supplied home earlier entry.1).trans after
  obtain ⟨_, _, here'⟩ := context?_of_shape (extended.same (.inl loaded)).symm found
  rw [supplied_of_uri here' waits] at after
  exact after.steady (ResourceSet.steady_ensureLoaded earlier target.resource)

include ignores once served

/-- A reference that a second run binds is late. -/
theorem late_of_closing {entry : ResourceUri × Pending} (member : entry ∈ set.agenda)
    (closes : closing (globalScope naming) set entry = true) :
    Late naming start set entry.1 entry.2 := by
  obtain ⟨content, held, waits⟩ := ResourceSet.content_of_agenda once member
  obtain ⟨before, entries, _, listed, rfl, stands⟩ := (served held).whole
  rw [closing, held] at closes
  rw [Content.pending_settleAll, ← listed] at waits
  obtain ⟨waited, isOpen⟩ := List.mem_filter.mp waits
  obtain ⟨settled, among, same⟩ := List.mem_map.mp waited
  rw [← same] at closes isOpen ⊢
  refine (like_or_late ignores once (stands settled among)).resolve_left fun like => ?_
  have closes : (before.settleAll entries).closes settled.1
      (verdict (globalScope naming) set entry.1 settled.1) = true := closes
  rw [Content.closes_settleAll, Content.closes_of_like like] at closes
  rw [Bool.not_eq_true'] at isOpen
  have stays := List.any_eq_false.mp isOpen settled among
  simp [closes] at stays

/-- A resource in which nothing is late is left as it is. -/
theorem settleAll_of_prompt {resource : Resource} (member : resource ∈ set.resources)
    (prompt : ∀ pending ∈ resource.pending, ¬ Late naming start set resource.uri pending) :
    resource.settleAll (resource.pending.map fun pending =>
      (pending, verdict (globalScope naming) set resource.uri pending)) = resource := by
  have own := ResourceSet.content?_of_mem once member
  cases filled : resource.content with
  | none => exact Resource.settleAll_of_closed filled _
  | some content =>
    rw [filled] at own
    obtain ⟨before, entries, _, listed, rfl, stands⟩ := (served own).whole
    have waits : resource.pending = before.left entries := by
      rw [Resource.pending_of_content filled, Content.pending_settleAll, Content.left, listed]
    rw [waits] at prompt ⊢
    apply Resource.settleAll_again filled
    intro entry among isOpen
    refine (like_or_late ignores once (stands entry among)).resolve_right (prompt entry.1 ?_)
    exact List.mem_filter.mpr ⟨List.mem_map_of_mem among, by rw [isOpen]; rfl⟩

/-- What a second run closes is late, or shares its slot with what is. -/
theorem late_of_closedIn {entry : ResourceUri × Pending}
    (closed : set.closedIn (verdict (globalScope naming) set) set.agenda entry = true) :
    ∃ other, (entry.1, other) ∈ set.agenda ∧ other.slot = entry.2.slot ∧
      Late naming start set entry.1 other := by
  unfold ResourceSet.closedIn at closed
  cases held : set.content? entry.1 with
  | none =>
    rw [held] at closed
    cases closed
  | some content =>
    rw [held] at closed
    obtain ⟨judged, among, closes⟩ := List.any_eq_true.mp closed
    obtain ⟨⟨uri, other⟩, listed, rfl⟩ := List.mem_map.mp among
    obtain ⟨member, here⟩ := List.mem_filter.mp listed
    obtain rfl : uri = entry.1 := of_decide_eq_true here
    obtain ⟨same, closes⟩ := Bool.and_eq_true_iff.mp closes
    refine ⟨other, member, of_decide_eq_true same, ?_⟩
    apply late_of_closing ignores once served member
    rw [closing, held]
    exact closes

end Served

/-- Where nothing can be loaded, a second run finds nothing to do. -/
theorem link_twice (ignores : scope.IgnoresReferences) (once : set.uris.Nodup)
    (complete : Complete set) :
    let first := link scope (fun _ => false) set
    let second := link scope (fun _ => false) first.1
    second.1.resources = first.1.resources ∧ second.2.bound = 0 ∧ second.2.ending = .finished := by
  intro first second
  obtain ⟨linked, _, _⟩ := link_whole ignores once complete
  obtain ⟨again, bound, ending⟩ :=
    link_whole ignores (linked.once once) (linked.complete complete)
  have left := linked.agenda once
  refine ⟨?_, ?_, ending⟩
  · have both := (linked.trans ignores again).resources
    rw [left, ResourceSet.settleAll_append, ResourceSet.settleAll_again once] at both
    exact both.trans linked.resources.symm
  · rw [linked.closings ignores, left, countP_closing_left] at bound
    exact bound

/-- After a run that has come to its end a second one binds late references only, and changes only
the resources of such. A third one changes nothing. -/
theorem link_repeated (reachable : start.Reachable) (ignores : naming.IgnoresReferences)
    {bound : Nat} {run : Run}
    (finished : Run.runWithin (globalScope naming) (fun _ => false) bound (.start start) =
      (run, .finished)) :
    let again := link (globalScope naming) (fun _ => false) run.set
    let third := link (globalScope naming) (fun _ => false) again.1
    again.2.ending = .finished ∧
    ((∀ entry ∈ run.set.agenda, ¬ Late naming start run.set entry.1 entry.2) →
      again.1.resources = run.set.resources ∧ again.2.bound = 0) ∧
    (∀ uri, (∀ pending ∈ waiting run.set uri, ¬ Late naming start run.set uri pending) →
      again.1.get? uri = run.set.get? uri) ∧
    (∀ entry ∈ run.set.agenda, entry ∉ again.1.agenda →
      ∃ other, (entry.1, other) ∈ run.set.agenda ∧ other.slot = entry.2.slot ∧
        Late naming start run.set entry.1 other) ∧
    third.1.resources = again.1.resources ∧ third.2.bound = 0 ∧ third.2.ending = .finished := by
  intro again third
  obtain ⟨once, _, served⟩ := served_runWithin reachable.grown.once finished
  have ignores' := globalScope_ignoresReferences ignores
  have complete := complete_of_served served
  obtain ⟨yields, count, ending⟩ := link_whole ignores' once complete
  refine ⟨ending, fun prompt => ⟨?unchanged, ?none_bound⟩, fun uri prompt => ?own,
    fun entry member gone => ?gone, link_twice ignores' once complete⟩
  case unchanged =>
    refine (yields.resources.trans (ResourceSet.resources_settleAll _)).trans ?_
    refine (List.map_congr_left fun resource member => ?_).trans (List.map_id' _)
    rw [ResourceSet.judged_agenda once (ResourceSet.get?_of_mem once member)]
    apply settleAll_of_prompt ignores once served member
    intro pending waits
    exact prompt (resource.uri, pending)
      (List.mem_flatMap.mpr ⟨resource, member, List.mem_map_of_mem waits⟩)
  case none_bound =>
    refine count.trans (List.countP_eq_zero.mpr fun entry member closes => ?_)
    exact prompt entry member (late_of_closing ignores once served member closes)
  case own =>
    refine (yields.get? uri).trans ?_
    cases found : run.set.get? uri with
    | none => rfl
    | some resource =>
      have named := ResourceSet.uri_of_get? found
      subst named
      rw [ResourceSet.judged_agenda once found, Option.map_some]
      congr 1
      apply settleAll_of_prompt ignores once served (ResourceSet.mem_of_get? found)
      intro pending waits
      apply prompt
      unfold waiting
      rwa [found]
  case gone =>
    have left := yields.agenda once
    rw [left, List.mem_filter, not_and] at gone
    exact late_of_closedIn ignores once served (by simpa using gone member)

/-! ### Names that come too late -/

/-- Nodes are called by their names, but by another one when the type that they extend is known. -/
def veiled : Naming := fun site =>
  match site.tree.referenceAt? ⟨site.id, 1, none⟩ with
  | some (.bound _) => some ⟨["Z"]⟩
  | _ => Naming.simple site

/-- The type that the first one extends gets its name when the second has been linked. -/
def unveiled : ResourceSet :=
  (({ languages := ({} : Languages).register Types.language } : ResourceSet).load firstUri
    "type A extends Z type B extends C type C").1

theorem reachable_unveiled : unveiled.Reachable := .load .types _ _

-- How the first run ends, what the second binds, and what the unknown name finds in between.
theorem ran_leftBehind :
    ((link (globalScope .simple) (fun _ => false) leftBehind).2.ending,
      (link (globalScope .simple) (fun _ => false)
        (link (globalScope .simple) (fun _ => false) leftBehind).1).2.bound,
      fitting (globalScope .simple) (link (globalScope .simple) (fun _ => false) leftBehind).1 firstUri
        ⟨⟨2, 1, none⟩, .name ⟨["C"]⟩⟩) = (.finished, 1, []) := by
  cbv

/-- A second run binds a reference if its name is loaded too late, or if linking gives it. -/
theorem link_again_binds :
    (leftBehind.Reachable ∧
      (link (globalScope .simple) (fun _ => false) leftBehind).2.ending = .finished ∧
      (link (globalScope .simple) (fun _ => false)
        (link (globalScope .simple) (fun _ => false) leftBehind).1).2.bound = 1) ∧
    unveiled.Reachable ∧ unveiled.loader = none ∧
      (link (globalScope veiled) (fun _ => false) unveiled).2.ending = .finished ∧
      (link (globalScope veiled) (fun _ => false)
        (link (globalScope veiled) (fun _ => false) unveiled).1).2.bound = 1 := by
  have ran := ran_leftBehind
  have ran' : ((link (globalScope veiled) (fun _ => false) unveiled).2.ending,
      (link (globalScope veiled) (fun _ => false)
        (link (globalScope veiled) (fun _ => false) unveiled).1).2.bound) = (.finished, 1) := by
    cbv
  simp only [Prod.mk.injEq] at ran ran'
  exact ⟨⟨reachable_leftBehind, ran.1, ran.2.1⟩, reachable_unveiled, by cbv, ran'⟩

/-- The second run leaves the first text as it is, and the third leaves everything. -/
theorem link_leftBehind_repeated :
    let linked := (link (globalScope .simple) (fun _ => false) leftBehind).1
    let again := link (globalScope .simple) (fun _ => false) linked
    again.1.get? firstUri = linked.get? firstUri ∧
      (link (globalScope .simple) (fun _ => false) again.1).1.resources = again.1.resources ∧
      (link (globalScope .simple) (fun _ => false) again.1).2.bound = 0 := by
  have seen := ran_leftBehind
  simp only [Prod.mk.injEq] at seen
  obtain ⟨finished, _, nothing_fits⟩ := seen
  cases ran : Run.runWithin (globalScope .simple) (fun _ => false) (visitBound leftBehind)
      (.start leftBehind) with
  | mk run ending =>
    obtain ⟨same, _, ended⟩ := link_of_run ran
    obtain rfl : ending = .finished := ended.symm.trans finished
    obtain ⟨_, _, own, _, third, none_bound, _⟩ :=
      link_repeated reachable_leftBehind Naming.simple_ignoresReferences ran
    rw [same]
    refine ⟨own firstUri fun pending waits late => ?_, third, none_bound⟩
    obtain ⟨_, _, found, _⟩ := late
    obtain ⟨content, held, left⟩ := Option.map_eq_some_iff.mp waits_leftBehind
    rw [← same, waiting_eq held, left, List.mem_singleton] at waits
    rw [← same, waits, nothing_fits] at found
    cases found

end Linking

end Crosslink
