import Crosslink.Proofs.Linking.Agenda
import Crosslink.Proofs.Linking.Sessions

/-! Linking as one simultaneous step.

A run looks names up in the set that it changes. Where nothing is loaded, none
of its changes can be seen by a later lookup: every reference gets what it would
get in the set as it was when the run began.
-/

set_option autoImplicit false

namespace Crosslink

open Linking

namespace Linking

variable {naming : Naming} {scope : Scope} {set : ResourceSet} {home : ResourceUri}
  {pending : Pending} {site : Site} {feature : Feature} {content : Content} {name : QualifiedName}

/-- The candidates of a reference, in the set as it is, that exist and fit. -/
def fitting (scope : Scope) (set : ResourceSet) (home : ResourceUri) (pending : Pending) :
    List Uri :=
  match context? set home pending with
  | none => []
  | some (site, feature) =>
    (match pending.proxy with
      | .uri target => [target]
      | .name name => scope set site feature name).filter (conforms set feature)

def diagnosis (site : Site) (feature : Feature) (proxy : Proxy) : List Uri → Option Diagnostic
  | [] => some (unresolvedError site feature proxy)
  | [_] => none
  | target :: others => some (ambiguityWarning site feature proxy (others.length + 1) target)

-- Looking for candidates changes nothing that a lookup or a test of a candidate sees.
theorem verdict_of_idle (ignores : scope.IgnoresReferences) (idle : Idle set home pending)
    (here : context? set home pending = some (site, feature)) : verdict scope set home pending =
      .of site feature pending.proxy (fitting scope set home pending) := by
  unfold fitting
  rw [here]
  dsimp only
  cases waits : pending.proxy with
  | uri target =>
    obtain ⟨requests, result, loading, _⟩ := (idle _ target here waits).ensureLoaded
    have asked := @candidates_uri scope set home site feature target
    rw [loading, ← waits] at asked
    rw [verdict_of_asked here asked, waits]
    rfl
  | name name =>
    have asked : candidates scope set home site feature pending.proxy =
        ({ set := noted set home name, isLookup := true },
          scope (noted set home name) site feature name) := by
      rw [waits]
      rfl
    have kept : (noted set home name).shape = set.shape :=
      ResourceSet.shape_modify fun resource => resource.shape_note (.name name)
    rw [verdict_of_asked here asked, waits]
    congr 1
    rw [ignores set (noted set home name) site site.tree feature name kept rfl]
    apply List.filter_congr
    intro uri _
    exact conforms_of_alike (ResourceSet.alike_of_shape kept)

/-- Each reference that waits has a slot of its own that holds its proxy, and no address leads into
a resource that is not loaded. -/
structure Ready (set : ResourceSet) : Prop where
  once : set.uris.Nodup
  consistent : ∀ {uri content}, set.content? uri = some content → content.tree.Consistent
  distinct : ∀ {uri content}, set.content? uri = some content →
    (content.pending.map (·.slot.place)).Nodup
  holds : ∀ {uri content}, set.content? uri = some content → ∀ pending ∈ content.pending,
    content.tree.referenceAt? pending.slot = some (.unresolved pending.proxy)
  loaded : AddressesLoaded set

/-- What a resource holds when each of its references has been resolved in the set of the start. -/
structure Resolved (scope : Scope) (set : ResourceSet) (home : ResourceUri)
    (before after : Content) : Prop where
  /-- A reference with candidates is bound to the first one. -/
  bound : ∀ pending ∈ before.pending, ∀ target others,
    fitting scope set home pending = target :: others →
      after.tree.referenceAt? pending.slot = some (.bound target)
  open_ : ∀ pending ∈ before.pending, fitting scope set home pending = [] →
    after.tree.referenceAt? pending.slot = some (.unresolved pending.proxy)
  waits : after.pending = before.pending.filter fun pending =>
    (fitting scope set home pending).isEmpty
  /-- Its slot has a diagnostic unless there is one candidate only, and then has none. -/
  noted : ∀ pending ∈ before.pending, ∃ site feature,
    context? set home pending = some (site, feature) ∧
    ∀ diagnostic, (pending.slot, diagnostic) ∈ after.linkDiagnostics.entries ↔
      diagnosis site feature pending.proxy (fitting scope set home pending) = some diagnostic
  imported : after.importedNames = Content.noteNames before.importedNames
    (before.pending.filterMap (·.proxy.name?))
  /-- All other slots are as they were. -/
  others : ∀ slot, (∀ pending ∈ before.pending, pending.slot.place ≠ slot.place) →
    after.view slot = before.view slot
  /-- Nothing changes but references and what is noted of them. -/
  shape : after.shape = before.shape

/-- One reference of a ready set: its verdict, and what it makes of the slot. -/
theorem verdict_of_ready (ignores : scope.IgnoresReferences) (ready : Ready set)
    (held : set.content? home = some content) (member : pending ∈ content.pending) :
    ∃ site feature, context? set home pending = some (site, feature) ∧
      verdict scope set home pending =
        .of site feature pending.proxy (fitting scope set home pending) := by
  have waits : pending ∈ waiting set home := waiting_eq held ▸ member
  obtain ⟨site, feature, here⟩ :=
    exists_context held (ready.consistent held) (ready.holds held pending member)
  have idle := complete_of_addressesLoaded ready.loaded home pending waits
  exact ⟨site, feature, here, verdict_of_idle ignores idle here⟩

theorem closes_of_ready (ignores : scope.IgnoresReferences) (ready : Ready set)
    (held : set.content? home = some content) (member : pending ∈ content.pending) :
    content.closes pending (verdict scope set home pending) =
      !(fitting scope set home pending).isEmpty := by
  obtain ⟨site, feature, _, judged⟩ := verdict_of_ready ignores ready held member
  rw [judged]
  cases fitting scope set home pending with
  | nil => rfl
  | cons target others =>
    unfold Verdict.of Content.closes
    rw [ready.holds held pending member]
    rfl

theorem resolved_of_ready (ignores : scope.IgnoresReferences) (ready : Ready set)
    (held : set.content? home = some content) {after : Content}
    (settled : after = content.settleAll
      (content.pending.map fun pending => (pending, verdict scope set home pending)))
    (shape : after.shape = content.shape) : Resolved scope set home content after := by
  have places : ((content.pending.map fun pending =>
      (pending, verdict scope set home pending)).map (·.1.slot.place)).Nodup := by
    rw [List.map_map]
    exact ready.distinct held
  have slots : ((content.pending.map fun pending =>
      (pending, verdict scope set home pending)).map (·.1.slot)).Nodup :=
    List.Nodup.of_map SlotKey.place (by rwa [List.map_map])
  have view : ∀ pending ∈ content.pending, after.view pending.slot =
      (content.view pending.slot).settle pending.proxy (verdict scope set home pending) := by
    intro pending member
    rw [settled]
    apply Content.view_settleAll_of_mem places (List.mem_map.mpr ⟨pending, member, rfl⟩)
    rw [ready.holds held pending member]
    rfl
  refine ⟨?bound, ?kept, ?waits, ?noted, ?imported, ?others, shape⟩
  case bound =>
    intro pending member target others found
    obtain ⟨site, feature, _, judged⟩ := verdict_of_ready ignores ready held member
    have seen := congrArg SlotView.value (view pending member)
    rw [judged, found] at seen
    exact seen
  case kept =>
    intro pending member found
    obtain ⟨site, feature, _, judged⟩ := verdict_of_ready ignores ready held member
    have seen := congrArg SlotView.value (view pending member)
    rw [judged, found] at seen
    exact seen.trans (ready.holds held pending member)
  case waits =>
    rw [settled, Content.pending_settleAll]
    apply List.filter_congr
    intro pending member
    rw [Content.closed_of_mem slots (List.mem_map.mpr ⟨pending, member, rfl⟩),
      closes_of_ready ignores ready held member, Bool.not_not]
  case noted =>
    intro pending member
    obtain ⟨site, feature, here, judged⟩ := verdict_of_ready ignores ready held member
    refine ⟨site, feature, here, fun diagnostic => ?_⟩
    have seen := congrFun (congrArg SlotView.wrong (view pending member)) diagnostic
    rw [judged] at seen
    rw [← eq_iff_iff]
    refine Eq.trans seen ?_
    cases fitting scope set home pending with
    | nil => simp [Verdict.of, SlotView.settle, diagnosis, eq_comm]
    | cons target others => cases others <;> simp [Verdict.of, SlotView.settle, diagnosis]
  case imported =>
    rw [settled, Content.importedNames_settleAll, List.filterMap_map]
    congr 1
    apply List.filterMap_congr
    intro pending member
    obtain ⟨site, feature, _, judged⟩ := verdict_of_ready ignores ready held member
    rw [Function.comp_apply, judged]
    cases fitting scope set home pending <;> rfl
  case others =>
    intro slot apart
    rw [settled]
    apply Content.view_settleAll_of_apart
    intro entry listed
    obtain ⟨pending, member, rfl⟩ := List.mem_map.mp listed
    exact apart pending member

/-- Where the paths of nodes can be written, all that a name finds exists and fits. -/
theorem fitting_of_name (once : set.uris.Nodup)
    (trees : ∀ {uri content}, set.content? uri = some content → content.tree.Consistent ∧
      content.tree.PathNamed ∧ content.tree.size ≤ Text.indexBound)
    (here : context? set home pending = some (site, feature)) (waits : pending.proxy = .name name) :
    fitting (globalScope naming) set home pending = globalScope naming set site feature name := by
  unfold fitting
  rw [here, waits]
  apply List.filter_eq_self.mpr
  intro target found
  obtain ⟨resource, present, tree, id, path, grown, written, rfl, _, fits⟩ := mem_globalScope found
  obtain ⟨content, filled, rfl⟩ := Option.map_eq_some_iff.mp grown
  have held := (ResourceSet.content?_of_mem once present).trans filled
  obtain ⟨consistent, named, small⟩ := trees held
  obtain ⟨steps, leads, _⟩ := consistent.fragment?_eq_some.mp written
  exact conforms_iff.mpr ⟨_, ResourceSet.node?_eq_some_iff.mpr ⟨content, held, rfl, rfl,
    consistent.resolve?_fragment named small written,
    Tree.contains_of_leads consistent leads⟩, fits⟩

theorem closing_of_ready (ignores : scope.IgnoresReferences) (ready : Ready set)
    {entry : ResourceUri × Pending} (member : entry ∈ set.agenda) :
    closing scope set entry = (!(fitting scope set entry.1 entry.2).isEmpty) ∧
      set.closedIn (verdict scope set) set.agenda entry = closing scope set entry := by
  obtain ⟨content, held, waits⟩ := ResourceSet.content_of_agenda ready.once member
  constructor
  · rw [closing, held]
    exact closes_of_ready ignores ready held waits
  · rw [ResourceSet.closedIn, closing, held, ResourceSet.judged_agenda_of_content ready.once held]
    apply Content.closed_of_mem _ (List.mem_map.mpr ⟨entry.2, waits, rfl⟩)
    rw [List.map_map]
    exact List.Nodup.of_map SlotKey.place (by rw [List.map_map]; exact ready.distinct held)

/-- Linking by names resolves every reference in the set as it is when the run starts. -/
theorem link_simultaneously (ignores : naming.IgnoresReferences) (ready : Ready set) :
    let after := link (globalScope naming) (fun _ => false) set
    let candidates := fun entry : ResourceUri × Pending =>
      fitting (globalScope naming) set entry.1 entry.2
    after.2.ending = .finished ∧ after.1.shape = set.shape ∧
    (∀ uri before, set.content? uri = some before → ∃ content,
      after.1.content? uri = some content ∧ Resolved (globalScope naming) set uri before content) ∧
    after.2.bound = set.agenda.countP (fun entry => !(candidates entry).isEmpty) ∧
    after.2.unresolved = set.agenda.countP (fun entry => (candidates entry).isEmpty) ∧
    ((∀ {uri content}, set.content? uri = some content →
        content.tree.PathNamed ∧ content.tree.size ≤ Text.indexBound) →
      ∀ uri pending site feature name, context? set uri pending = some (site, feature) →
        pending.proxy = .name name →
          candidates (uri, pending) = globalScope naming set site feature name) := by
  intro after candidates
  have ignores' := globalScope_ignoresReferences ignores
  obtain ⟨yields, bound, ending⟩ :=
    link_whole ignores' ready.once (complete_of_addressesLoaded ready.loaded)
  refine ⟨ending, yields.shape, ?contents, ?bound, ?unresolved, fun written uri pending site feature
    name => fitting_of_name ready.once fun held => ⟨ready.consistent held, written held⟩⟩
  case contents =>
    intro uri before held
    have now := yields.content? uri
    rw [held, ResourceSet.judged_agenda_of_content ready.once held] at now
    have same := ResourceSet.contents_of_shape yields.shape uri
    rw [now, held] at same
    exact ⟨_, now, resolved_of_ready ignores' ready held rfl (Option.some.inj same)⟩
  case bound =>
    refine bound.trans (List.countP_congr fun entry member => ?_)
    rw [(closing_of_ready ignores' ready member).1]
  case unresolved =>
    have counted : after.2.unresolved = after.1.agenda.length := (after.1.length_agenda).symm
    rw [counted, yields.agenda ready.once, List.countP_eq_length_filter]
    congr 1
    apply List.filter_congr
    intro entry member
    obtain ⟨closes, closed⟩ := closing_of_ready ignores' ready member
    rw [closed, closes, Bool.not_not]

/-! ### Sessions -/

/-- In a session every set is ready. -/
theorem ready_of_inStep (inStep : set.InStep naming) : Ready set := by
  refine ⟨inStep.speaks.once, fun held => (inStep.sound held).consistent,
    fun held => (inStep.sound held).placed.distinct,
    fun held pending waits => (inStep.sound held).holds_of_waits waits, ?loaded⟩
  case loaded =>
    intro resource member pending waits target address
    unfold Resource.pending at waits
    cases filled : resource.content with
    | none => simp [filled] at waits
    | some content =>
      have held := (ResourceSet.content?_of_mem inStep.speaks.once member).trans filled
      rw [filled] at waits
      obtain ⟨name, named⟩ := (inStep.sound held).name_of_waits waits
      cases address.symm.trans named

theorem ready_of_reached (reached : Reached naming set) : Ready set :=
  ready_of_inStep (inStep_of_reached reached)

def namesakes : ResourceSet :=
  (({ languages := ({} : Languages).register Types.language } : ResourceSet).load firstUri
    "type A extends B type B type B type C extends D").1

def firstNamesake : Uri := ⟨firstUri, .ofSteps [⟨"elements", some 1⟩]⟩

/-- The name of both is bound to the first one, and the unknown name stays. -/
theorem link_namesakes :
    (link (globalScope .simple) (fun _ => false) namesakes).2.bound = 1 ∧
    (link (globalScope .simple) (fun _ => false) namesakes).2.unresolved = 1 ∧
    ∃ content, (link (globalScope .simple) (fun _ => false) namesakes).1.content? firstUri =
      some content ∧ content.tree.referenceAt? ⟨1, 1, none⟩ = some (.bound firstNamesake) := by
  have reached : Reached .simple namesakes := .load (.start {}) firstUri _
  obtain ⟨_, _, contents, bound, unresolved, _⟩ :=
    link_simultaneously Naming.simple_ignoresReferences (ready_of_reached reached)
  have seen : ((namesakes.content? firstUri).map (fun content => content.pending),
      namesakes.agenda.countP
        (fun entry => !(fitting (globalScope .simple) namesakes entry.1 entry.2).isEmpty),
      namesakes.agenda.countP
        (fun entry => (fitting (globalScope .simple) namesakes entry.1 entry.2).isEmpty),
      fitting (globalScope .simple) namesakes firstUri ⟨⟨1, 1, none⟩, .name ⟨["B"]⟩⟩) =
    (some [⟨⟨1, 1, none⟩, .name ⟨["B"]⟩⟩, ⟨⟨4, 1, none⟩, .name ⟨["D"]⟩⟩], 1, 1,
      [firstNamesake, ⟨firstUri, .ofSteps [⟨"elements", some 2⟩]⟩]) := by
    cbv
  simp only [Prod.mk.injEq] at seen
  obtain ⟨waits, once, lost, found⟩ := seen
  obtain ⟨before, held, pending⟩ := Option.map_eq_some_iff.mp waits
  obtain ⟨after, held', resolved⟩ := contents firstUri before held
  refine ⟨bound.trans once, unresolved.trans lost, after, held', ?_⟩
  exact resolved.bound ⟨⟨1, 1, none⟩, .name ⟨["B"]⟩⟩ (by simp [pending]) firstNamesake
    [⟨firstUri, .ofSteps [⟨"elements", some 2⟩]⟩] found

end Linking

end Crosslink
