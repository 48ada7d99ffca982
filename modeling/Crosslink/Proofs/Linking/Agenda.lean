import Crosslink.Proofs.Linking.Reaching
import Crosslink.Proofs.Linking.Settling
import Crosslink.Proofs.Linking.Steadiness

/-! Runs that load nothing.

What waits when such a run starts is all that it visits, resource by resource.
Each reference is settled by the verdict that it has at the start, so that the
run comes down to settling the references of a list, up to where it is stopped.
-/

set_option autoImplicit false

namespace Crosslink

open Linking

def Resource.agenda (resource : Resource) : List (ResourceUri × Pending) :=
  resource.pending.map fun pending => (resource.uri, pending)

theorem Resource.pending_of_content {resource : Resource} {content : Content}
    (filled : resource.content = some content) : resource.pending = content.pending := by
  unfold pending
  rw [filled]
  rfl

namespace ResourceSet

variable {set : ResourceSet} {judge : ResourceUri → Pending → Verdict}

def agenda (set : ResourceSet) : List (ResourceUri × Pending) :=
  set.resources.flatMap Resource.agenda

def settleAll (set : ResourceSet) (judge : ResourceUri → Pending → Verdict)
    (entries : List (ResourceUri × Pending)) : ResourceSet :=
  entries.foldl (fun set entry => set.modify entry.1 (·.settle entry.2 (judge entry.1 entry.2))) set

theorem settleAll_append (first rest : List (ResourceUri × Pending)) :
    set.settleAll judge (first ++ rest) = (set.settleAll judge first).settleAll judge rest :=
  List.foldl_append

def judged (judge : ResourceUri → Pending → Verdict) (uri : ResourceUri)
    (entries : List (ResourceUri × Pending)) : List (Pending × Verdict) :=
  (entries.filter (·.1 = uri)).map fun entry => (entry.2, judge uri entry.2)

theorem settleAll_eq (entries : List (ResourceUri × Pending)) :
    set.settleAll judge entries =
      { set with resources := set.resources.map fun resource =>
          resource.settleAll (judged judge resource.uri entries) } := by
  induction entries generalizing set with
  | nil => exact congrArg (fun resources => { set with resources }) (List.map_id' _).symm
  | cons entry rest ih =>
    have step : set.settleAll judge (entry :: rest) =
        (set.modify entry.1 (·.settle entry.2 (judge entry.1 entry.2))).settleAll judge rest := rfl
    rw [step, ih]
    unfold modify
    dsimp only
    rw [List.map_map]
    congr 1
    apply List.map_congr_left
    intro resource _
    rw [Function.comp_apply]
    unfold judged
    by_cases here : resource.uri = entry.1
    · simp [here, Resource.settleAll]
    · simp [here, Ne.symm here]

theorem resources_settleAll (entries : List (ResourceUri × Pending)) :
    (set.settleAll judge entries).resources = set.resources.map fun resource =>
      resource.settleAll (judged judge resource.uri entries) := by
  rw [settleAll_eq]

theorem settleAll_requests (requests : List ResourceUri) (entries : List (ResourceUri × Pending)) :
    ({ set with requests } : ResourceSet).settleAll judge entries =
      { set.settleAll judge entries with requests } := by
  rw [settleAll_eq, settleAll_eq]

theorem get?_settleAll (set : ResourceSet) (judge : ResourceUri → Pending → Verdict)
    (entries : List (ResourceUri × Pending)) (uri : ResourceUri) :
    (set.settleAll judge entries).get? uri =
      (set.get? uri).map (·.settleAll (judged judge uri entries)) := by
  rw [settleAll_eq]
  have kept := find?_map_of_uri (fun resource =>
    @Resource.uri_settleAll resource (judged judge resource.uri entries)) set.resources uri
  refine kept.trans ?_
  cases found : set.get? uri with
  | none =>
    unfold get? at found
    rw [found]
    rfl
  | some resource =>
    have named := uri_of_get? found
    unfold get? at found
    rw [found, Option.map_some, Option.map_some, named]

theorem content?_settleAll (set : ResourceSet) (judge : ResourceUri → Pending → Verdict)
    (entries : List (ResourceUri × Pending)) (uri : ResourceUri) :
    (set.settleAll judge entries).content? uri =
      (set.content? uri).map (·.settleAll (judged judge uri entries)) := by
  rw [content?, get?_settleAll, content?, Option.bind_map, Option.map_bind]
  congr 1
  funext resource
  exact resource.content_settleAll _

theorem shape_settleAll (entries : List (ResourceUri × Pending)) :
    (set.settleAll judge entries).shape = set.shape := by
  induction entries generalizing set with
  | nil => rfl
  | cons entry rest ih =>
    exact ih.trans (shape_modify fun _ => Resource.shape_settle)

/-- Of one resource the agenda has all that waits, with the verdicts. -/
theorem judged_agenda (once : set.uris.Nodup) {uri : ResourceUri} {resource : Resource}
    (found : set.get? uri = some resource) : judged judge uri set.agenda =
      resource.pending.map fun pending => (pending, judge uri pending) := by
  have named := uri_of_get? found
  obtain ⟨_, before, after, split, _⟩ := List.find?_eq_some_iff_append.mp found
  unfold uris at once
  rw [split, List.map_append, List.map_cons, List.nodup_append] at once
  have elsewhere : ∀ {others : List Resource}, (∀ other ∈ others, other.uri ≠ uri) →
      (others.flatMap Resource.agenda).filter (·.1 = uri) = [] := by
    intro others apart
    rw [List.filter_eq_nil_iff]
    rintro ⟨home, pending⟩ member
    obtain ⟨other, listed, own⟩ := List.mem_flatMap.mp member
    obtain ⟨_, _, same⟩ := List.mem_map.mp own
    cases same
    simpa using apart other listed
  have own : resource.agenda.filter (·.1 = uri) = resource.agenda := by
    apply List.filter_eq_self.mpr
    intro entry member
    obtain ⟨_, _, rfl⟩ := List.mem_map.mp member
    exact decide_eq_true named
  unfold judged agenda
  rw [split, List.flatMap_append, List.flatMap_cons, List.filter_append, List.filter_append,
    elsewhere, own, elsewhere, List.append_nil, List.nil_append, Resource.agenda, List.map_map]
  · rfl
  · intro other later same
    exact (List.nodup_cons.mp once.2.1).1 (List.mem_map.mpr ⟨other, later, same.trans named.symm⟩)
  · intro other earlier same
    exact once.2.2 other.uri (List.mem_map_of_mem earlier) resource.uri List.mem_cons_self
      (same.trans named.symm)

theorem judged_agenda_of_content (once : set.uris.Nodup) {uri : ResourceUri} {content : Content}
    (held : set.content? uri = some content) : judged judge uri set.agenda =
      content.pending.map fun pending => (pending, judge uri pending) := by
  obtain ⟨resource, found, filled⟩ := Option.bind_eq_some_iff.mp held
  rw [judged_agenda once found, Resource.pending_of_content filled]

theorem content_of_agenda (once : set.uris.Nodup) {entry : ResourceUri × Pending}
    (member : entry ∈ set.agenda) :
    ∃ content, set.content? entry.1 = some content ∧ entry.2 ∈ content.pending := by
  obtain ⟨resource, listed, own⟩ := List.mem_flatMap.mp member
  obtain ⟨pending, waits, rfl⟩ := List.mem_map.mp own
  have held := content?_of_mem once listed
  unfold Resource.pending at waits
  cases filled : resource.content with
  | none => simp [filled] at waits
  | some content =>
    rw [filled] at waits
    exact ⟨content, held.trans filled, waits⟩

theorem length_agenda (set : ResourceSet) :
    set.agenda.length = (set.resources.flatMap (·.pending)).length := by
  unfold agenda
  rw [List.length_flatMap, List.length_flatMap]
  congr 1
  apply List.map_congr_left
  intro resource _
  exact List.length_map _

def closedIn (set : ResourceSet) (judge : ResourceUri → Pending → Verdict)
    (entries : List (ResourceUri × Pending)) (entry : ResourceUri × Pending) : Bool :=
  (set.content? entry.1).any (·.closed (judged judge entry.1 entries) entry.2.slot)

/-- What waits after references have been settled. -/
theorem agenda_settleAll (once : set.uris.Nodup) (entries : List (ResourceUri × Pending)) :
    (set.settleAll judge entries).agenda =
      set.agenda.filter fun entry => !set.closedIn judge entries entry := by
  rw [settleAll_eq, agenda, agenda, List.flatMap_map, List.filter_flatMap]
  apply List.flatMap_congr
  intro resource member
  have held := content?_of_mem once member
  unfold Resource.agenda Resource.pending
  rw [Resource.uri_settleAll, Resource.content_settleAll, List.filter_map]
  cases filled : resource.content with
  | none => rfl
  | some content =>
    rw [filled] at held
    rw [Option.map_some, Option.map_some, Option.getD_some, Content.pending_settleAll]
    congr 1
    apply List.filter_congr
    intro pending _
    rw [Function.comp_apply, closedIn, held]
    rfl

end ResourceSet

namespace Linking

variable {scope : Scope} {stop : Progress → Bool} {set start : ResourceSet} {home : ResourceUri}
  {pending : Pending} {run : Run} {entries : List (ResourceUri × Pending)}

/-- Nothing that waits asks for a text that can be had. -/
def Complete (set : ResourceSet) : Prop :=
  ∀ home, ∀ pending ∈ waiting set home, Idle set home pending

/-- All that waits with a known address waits for a node of a loaded resource. -/
def AddressesLoaded (set : ResourceSet) : Prop :=
  ∀ resource ∈ set.resources, ∀ pending ∈ resource.pending, ∀ target,
    pending.proxy = .uri target → set.isLoaded target.resource = true

theorem complete_of_addressesLoaded (loaded : AddressesLoaded set) : Complete set := by
  intro home pending member here target _ waits
  unfold waiting at member
  cases found : set.get? home with
  | none => simp [found] at member
  | some resource =>
    rw [found] at member
    exact .inl (loaded resource (ResourceSet.mem_of_get? found) pending member target waits)

def closing (scope : Scope) (set : ResourceSet) (entry : ResourceUri × Pending) : Bool :=
  (set.content? entry.1).any (·.closes entry.2 (verdict scope set entry.1 entry.2))

theorem closing_of_shape (ignores : scope.IgnoresReferences) {next : ResourceSet}
    (same : next.shape = set.shape)
    (entry : ResourceUri × Pending) : closing scope next entry = closing scope set entry := by
  have contents := ResourceSet.contents_of_shape same entry.1
  rw [closing, closing, verdict_of_shape ignores same]
  cases held : set.content? entry.1 with
  | none =>
    rw [held] at contents
    rw [Option.map_eq_none_iff.mp contents]
  | some content =>
    rw [held] at contents
    obtain ⟨after, held', alike⟩ := Option.map_eq_some_iff.mp contents
    rw [held']
    exact Content.closes_of_shape (congrArg Content.tree alike) entry.2 _

def Yields (scope : Scope) (start : ResourceSet) (entries : List (ResourceUri × Pending))
    (after : ResourceSet) : Prop :=
  ∃ requests, after = { start.settleAll (verdict scope start) entries with requests }

namespace Yields

variable {after last : ResourceSet} {more : List (ResourceUri × Pending)}
  (yields : Yields scope start entries after)
include yields

theorem resources :
    after.resources = (start.settleAll (verdict scope start) entries).resources := by
  obtain ⟨requests, rfl⟩ := yields
  rfl

theorem shape : after.shape = start.shape := by
  obtain ⟨requests, rfl⟩ := yields
  exact ResourceSet.shape_settleAll entries

theorem once (once : start.uris.Nodup) : after.uris.Nodup := by
  rwa [ResourceSet.uris_of_shape yields.shape]

theorem get? (uri : ResourceUri) : after.get? uri = (start.get? uri).map
    (·.settleAll (ResourceSet.judged (verdict scope start) uri entries)) := by
  obtain ⟨requests, rfl⟩ := yields
  exact start.get?_settleAll _ entries uri

theorem content? (uri : ResourceUri) : after.content? uri = (start.content? uri).map
    (·.settleAll (ResourceSet.judged (verdict scope start) uri entries)) := by
  obtain ⟨requests, rfl⟩ := yields
  exact start.content?_settleAll _ entries uri

theorem agenda (once : start.uris.Nodup) : after.agenda =
    start.agenda.filter fun entry => !start.closedIn (verdict scope start) entries entry := by
  rw [← ResourceSet.agenda_settleAll once]
  obtain ⟨requests, rfl⟩ := yields
  rfl

theorem complete (complete : Complete start) : Complete after := by
  intro home pending member
  have settled := yields.content? home
  refine (complete home pending ?_).of_twins (ResourceSet.twins_of_shape yields.shape)
  cases held : start.content? home with
  | none =>
    rw [held] at settled
    rw [waiting_of_closed settled] at member
    cases member
  | some content =>
    rw [held] at settled
    rw [waiting_eq settled, Content.pending_settleAll] at member
    rw [waiting_eq held]
    exact (List.mem_filter.mp member).1

theorem verdicts (ignores : scope.IgnoresReferences) : verdict scope after = verdict scope start :=
  funext fun home => funext fun pending => verdict_of_shape ignores yields.shape home pending

theorem closings (ignores : scope.IgnoresReferences) : closing scope after = closing scope start :=
  funext fun entry => closing_of_shape ignores yields.shape entry

theorem trans (ignores : scope.IgnoresReferences) (further : Yields scope after more last) :
    Yields scope start (entries ++ more) last := by
  obtain ⟨requests, same⟩ := further
  rw [yields.verdicts ignores] at same
  obtain ⟨_, rfl⟩ := yields
  refine ⟨requests, ?_⟩
  rw [same, ResourceSet.settleAll_requests, ResourceSet.settleAll_append]

end Yields

/-- A run has settled the references of a list, and has done nothing else. -/
structure Settles (scope : Scope) (start : ResourceSet) (entries : List (ResourceUri × Pending))
    (run : Run) : Prop where
  set : Yields scope start entries run.set
  visited : run.progress.visited = entries.length
  bound : run.progress.bound = entries.countP (closing scope start)

theorem settles_visit (ignores : scope.IgnoresReferences) (idle : Idle start home pending)
    (settles : Settles scope start entries run) :
    Settles scope start (entries ++ [(home, pending)]) (run.visit scope home pending) := by
  have shapes := settles.set.shape
  have judged := verdict_of_shape ignores shapes home pending
  have counted : (resolve scope run.set home pending).isBound =
      closing scope start (home, pending) := by
    rw [isBound_resolve, ← closing_of_shape ignores shapes, closing]
  obtain ⟨requests, same⟩ := settles.set
  obtain ⟨requests', supply⟩ := supplied_of_idle (idle.of_twins (ResourceSet.twins_of_shape shapes))
  refine ⟨⟨requests', ?_⟩, ?_, ?_⟩
  · rw [set_visit, set_resolve, judged, supply, same, ResourceSet.settleAll_append]
    rfl
  · have visited := @visited_visits scope home run [pending]
    rw [List.length_append, ← settles.visited]
    exact visited
  · rw [List.countP_append, ← settles.bound, List.countP_singleton, ← counted]
    unfold Run.visit
    dsimp only
    rw [loaded_of_idle (idle.of_twins (ResourceSet.twins_of_shape shapes))]
    cases (resolve scope run.set home pending).isBound <;> rfl

theorem settles_visits (ignores : scope.IgnoresReferences) {references : List Pending}
    (idle : ∀ pending ∈ references, Idle start home pending)
    (settles : Settles scope start entries run) :
    Settles scope start (entries ++ references.map fun pending => (home, pending))
      (visits scope home run references) := by
  induction references generalizing entries run with
  | nil =>
    rw [List.map_nil, List.append_nil]
    exact settles
  | cons pending rest ih =>
    have first := settles_visit ignores (idle pending List.mem_cons_self) settles
    rw [List.map_cons, List.append_cons]
    exact ih (fun later member => idle later (List.mem_cons_of_mem _ member)) first

/-- The run is to stop when so many references of all have been visited, if there are more. -/
structure StopsAt (stop : Progress → Bool) (count all : Nat) : Prop where
  free : ∀ progress : Progress, progress.visited < count → stop progress = false
  stopped : count < all → ∀ progress : Progress, progress.visited = count → stop progress = true

theorem stopsAt_never (all : Nat) : StopsAt (fun _ => false) all all where
  free _ _ := rfl
  stopped more := absurd more (Nat.lt_irrefl all)

/-- Some members of the start have had their turns, and the others wait for theirs. -/
structure Comes (scope : Scope) (start : ResourceSet) (done rest : List Resource) (run : Run) :
    Prop where
  split : start.resources = done ++ rest
  settles : Settles scope start (done.flatMap Resource.agenda) run
  queue : run.queue = rest.map (·.uri)

theorem comes_start (scope : Scope) (set : ResourceSet) :
    Comes scope set [] set.resources (.start set) where
  split := rfl
  settles := ⟨⟨set.requests, rfl⟩, rfl, rfl⟩
  queue := rfl

namespace Comes

variable {done rest : List Resource} {resource : Resource} {count bound : Nat}

theorem get? (comes : Comes scope start done (resource :: rest) run) (once : start.uris.Nodup) :
    start.get? resource.uri = some resource :=
  ResourceSet.get?_of_mem once (by simp [comes.split])

/-- Before the turn of a resource it holds what it held at the start. -/
theorem waiting (comes : Comes scope start done (resource :: rest) run) (once : start.uris.Nodup) :
    waiting run.set resource.uri = resource.pending := by
  have none_own : ResourceSet.judged (verdict scope start) resource.uri
      (done.flatMap Resource.agenda) = [] := by
    unfold ResourceSet.judged
    rw [List.map_eq_nil_iff, List.filter_eq_nil_iff]
    rintro ⟨home, pending⟩ member
    obtain ⟨other, earlier, listed⟩ := List.mem_flatMap.mp member
    obtain ⟨_, _, same⟩ := List.mem_map.mp listed
    cases same
    unfold ResourceSet.uris at once
    rw [comes.split, List.map_append, List.map_cons, List.nodup_append] at once
    have apart := once.2.2 other.uri (List.mem_map_of_mem earlier) resource.uri List.mem_cons_self
    simpa using apart
  have after := comes.settles.set.get? resource.uri
  rw [comes.get? once, none_own] at after
  unfold Linking.waiting
  rw [after]
  rfl

theorem idle (comes : Comes scope start done (resource :: rest) run) (once : start.uris.Nodup)
    (complete : Complete start) :
    ∀ pending ∈ resource.pending, Idle start resource.uri pending := by
  intro pending member
  apply complete resource.uri pending
  unfold Linking.waiting
  rw [comes.get? once]
  exact member

def turn (run : Run) (rest : List Resource) : Run := { run with queue := rest.map (·.uri) }

/-- The run when a part of the turn of the next resource has been visited. -/
theorem settles_part (ignores : scope.IgnoresReferences) (once : start.uris.Nodup)
    (complete : Complete start) (comes : Comes scope start done (resource :: rest) run)
    {first : List Pending} (among : first ⊆ resource.pending) :
    Settles scope start
      (done.flatMap Resource.agenda ++ first.map fun pending => (resource.uri, pending))
      (visits scope resource.uri (turn run rest) first) :=
  settles_visits ignores (fun pending member => comes.idle once complete pending (among member))
    ⟨comes.settles.set, comes.settles.visited, comes.settles.bound⟩

/-- The run when the turn of the next resource is over. -/
theorem turned (ignores : scope.IgnoresReferences) (once : start.uris.Nodup)
    (complete : Complete start) (comes : Comes scope start done (resource :: rest) run) :
    Comes scope start (done ++ [resource]) rest
      (visits scope resource.uri (turn run rest) resource.pending) := by
  have kept := @continues_visits scope resource.uri (turn run rest) resource.pending
    fun pending member => (comes.idle once complete pending member).of_twins
      (ResourceSet.twins_of_shape comes.settles.set.shape)
  refine ⟨?_, ?_, kept.queue⟩
  · rw [comes.split, List.append_assoc, List.singleton_append]
  · rw [List.flatMap_append, List.flatMap_singleton]
    exact comes.settles_part ignores once complete (List.Subset.refl _)

variable (ignores : scope.IgnoresReferences) (once : start.uris.Nodup)
  (complete : Complete start) (stops : StopsAt stop count start.agenda.length)
  (comes : Comes scope start done (resource :: rest) run)
include ignores once complete stops comes

/-- A turn that is not stopped is visited as a whole. -/
theorem through (whole : (done.flatMap Resource.agenda).length + resource.pending.length ≤ count) :
    ∃ later, Comes scope start (done ++ [resource]) rest later ∧
      Run.runWithin scope stop (bound + 1) run = Run.runWithin scope stop bound later := by
  have visited := comes.settles.visited
  have free := @visitAll_free scope stop resource.uri (turn run rest) resource.pending
    fun progress before => stops.free progress (by simp only [turn] at before; omega)
  refine ⟨_, comes.turned ignores once complete, ?_⟩
  rw [runWithin_of_waiting comes.queue (comes.waiting once)]
  unfold turn at free
  rw [free]
  rfl

/-- A turn that is stopped ends the run. -/
theorem cut (early : (done.flatMap Resource.agenda).length ≤ count)
    (short : count < (done.flatMap Resource.agenda).length + resource.pending.length) :
    ∃ last, Settles scope start (start.agenda.take count) last ∧
      Run.runWithin scope stop (bound + 1) run = (last, .cancelled) := by
  have visited := comes.settles.visited
  have all : start.agenda = done.flatMap Resource.agenda ++
      (resource.agenda ++ rest.flatMap Resource.agenda) := by
    rw [ResourceSet.agenda, comes.split, List.flatMap_append, List.flatMap_cons]
  have length : resource.agenda.length = resource.pending.length := List.length_map _
  -- what is visited of the turn, and the first reference that is not
  obtain ⟨place, rfl⟩ := Nat.exists_eq_add_of_le early
  have within : place < resource.pending.length := by omega
  let first := resource.pending.take place
  let last := visits scope resource.uri (turn run rest) first
  have settles : Settles scope start
      (start.agenda.take ((done.flatMap Resource.agenda).length + place)) last := by
    have listed : start.agenda.take ((done.flatMap Resource.agenda).length + place) =
        done.flatMap Resource.agenda ++ first.map fun pending => (resource.uri, pending) := by
      rw [all, List.take_length_add_append, List.take_append_of_le_length (by omega),
        Resource.agenda, ← List.map_take]
    rw [listed]
    exact comes.settles_part ignores once complete (List.take_subset place resource.pending)
  refine ⟨last, settles, ?_⟩
  have stopped : stop last.progress = true := by
    apply stops.stopped
    · rw [all, List.length_append, List.length_append]
      omega
    · rw [settles.visited, List.length_take, all, List.length_append, List.length_append]
      omega
  have turned := @visitAll_append scope stop resource.uri (turn run rest) first
    (resource.pending.drop place) fun progress before => stops.free progress (by
      have most : first.length ≤ place := List.length_take_le _ _
      simp only [turn] at before
      omega)
  rw [List.take_append_drop] at turned
  have more : resource.pending.drop place ≠ [] := by
    intro none_left
    rw [List.drop_eq_nil_iff] at none_left
    omega
  obtain ⟨pending, others, left⟩ := List.exists_cons_of_ne_nil more
  rw [left, Run.visitAll, if_pos stopped] at turned
  rw [runWithin_of_waiting comes.queue (comes.waiting once)]
  unfold turn at turned
  rw [turned]
  rfl

end Comes

-- The induction is on the members whose turn is to come. Each turn is visited as a whole, but for
-- the one in which the run is stopped.
theorem settles_runWithin (ignores : scope.IgnoresReferences) (once : start.uris.Nodup)
    (complete : Complete start) {count bound : Nat}
    (stops : StopsAt stop count start.agenda.length) {done rest : List Resource}
    (comes : Comes scope start done rest run)
    (early : (done.flatMap Resource.agenda).length ≤ count) (enough : rest.length ≤ bound) :
    ∃ last, Settles scope start (start.agenda.take count) last ∧
      Run.runWithin scope stop bound run =
        (last, if count < start.agenda.length then .cancelled else .finished) := by
  induction rest generalizing done run bound with
  | nil =>
    have all : start.agenda = done.flatMap Resource.agenda := by
      rw [ResourceSet.agenda, comes.split, List.append_nil]
    have ended : Run.runWithin scope stop bound run = (run, .finished) := by
      cases bound with
      | zero => simp [Run.runWithin, comes.queue]
      | succ bound => simp [Run.runWithin, comes.queue]
    rw [all, List.take_of_length_le early, if_neg (by omega)]
    exact ⟨run, comes.settles, ended⟩
  | cons resource rest ih =>
    obtain ⟨bound, rfl⟩ : ∃ more, bound = more + 1 := ⟨bound - 1, by simp at enough; omega⟩
    by_cases whole : (done.flatMap Resource.agenda).length + resource.pending.length ≤ count
    · obtain ⟨later, comes', same⟩ := @Comes.through scope stop start run done rest resource count
        bound ignores once complete stops comes whole
      rw [same]
      refine ih comes' ?_ (by simpa using enough)
      rwa [List.flatMap_append, List.flatMap_singleton, List.length_append, Resource.agenda,
        List.length_map]
    · obtain ⟨last, settles, same⟩ := @Comes.cut scope stop start run done rest resource count
        bound ignores once complete stops comes early (by omega)
      have more : count < start.agenda.length := by
        rw [ResourceSet.agenda, comes.split, List.flatMap_append, List.flatMap_cons,
          List.length_append, List.length_append, Resource.agenda, List.length_map]
        omega
      rw [if_pos more]
      exact ⟨last, settles, same⟩

/-- Linking that loads nothing settles the first references of the agenda by their verdicts at the
start: as many as it is stopped after. -/
theorem link_of_complete (ignores : scope.IgnoresReferences) (once : set.uris.Nodup)
    (complete : Complete set) {count : Nat} (stops : StopsAt stop count set.agenda.length) :
    Yields scope set (set.agenda.take count) (link scope stop set).1 ∧
    (link scope stop set).2.bound = (set.agenda.take count).countP (closing scope set) ∧
    (link scope stop set).2.ending =
      if count < set.agenda.length then .cancelled else .finished := by
  have enough : set.resources.length ≤ visitBound set := Nat.le_add_right _ _
  obtain ⟨last, settles, same⟩ := settles_runWithin ignores once complete stops
    (comes_start scope set) (Nat.zero_le count) enough
  obtain ⟨linked, bound, ending⟩ := link_of_run same
  exact ⟨linked ▸ settles.set, bound.trans settles.bound, ending⟩

/-- It settles all of them if it is not stopped. -/
theorem link_whole (ignores : scope.IgnoresReferences) (once : set.uris.Nodup)
    (complete : Complete set) :
    Yields scope set set.agenda (link scope (fun _ => false) set).1 ∧
    (link scope (fun _ => false) set).2.bound = set.agenda.countP (closing scope set) ∧
    (link scope (fun _ => false) set).2.ending = .finished := by
  have whole := link_of_complete ignores once complete (stopsAt_never set.agenda.length)
  rwa [List.take_length, if_neg (Nat.lt_irrefl _)] at whole

/-- Linking that loads nothing settles the first references of the agenda, however it is stopped. -/
theorem exists_yields (ignores : scope.IgnoresReferences) (once : set.uris.Nodup)
    (complete : Complete set) (stop : Progress → Bool) :
    ∃ count, Yields scope set (set.agenda.take count) (link scope stop set).1 := by
  have prefixed : ∀ {entries left : List (ResourceUri × Pending)} {after : ResourceSet},
      set.agenda = entries ++ left → Yields scope set entries after →
        ∃ count, Yields scope set (set.agenda.take count) after := by
    intro entries left after cut yields
    refine ⟨entries.length, ?_⟩
    rwa [cut, List.take_left']
    rfl
  have agenda : ∀ {done rest : List Resource}, set.resources = done ++ rest →
      set.agenda = done.flatMap Resource.agenda ++ rest.flatMap Resource.agenda := by
    intro done rest split
    rw [ResourceSet.agenda, split, List.flatMap_append]
  refine @runWithin_induction scope (fun run => ∃ done rest, Comes scope set done rest run)
    (fun after => ∃ count, Yields scope set (set.agenda.take count) after) stop ?ends ?stops ?turns
    (visitBound set) (.start set) ⟨[], set.resources, comes_start scope set⟩
  case ends =>
    rintro run ⟨done, rest, comes⟩
    exact prefixed (agenda comes.split) comes.settles.set
  case stops =>
    rintro run home queue first left ⟨done, rest, comes⟩ waits cut
    obtain ⟨resource, rest, rfl, rfl, rfl⟩ := List.map_eq_cons_iff.mp (comes.queue.symm.trans waits)
    rw [comes.waiting once] at cut
    have among : first ⊆ resource.pending := cut ▸ List.subset_append_left first left
    refine @prefixed _ (left.map (fun pending => (resource.uri, pending)) ++
      rest.flatMap Resource.agenda) _ ?_ (comes.settles_part ignores once complete among).set
    rw [agenda comes.split, List.flatMap_cons, Resource.agenda, cut, List.map_append,
      List.append_assoc, List.append_assoc]
  case turns =>
    rintro run home queue ⟨done, rest, comes⟩ waits
    obtain ⟨resource, rest, rfl, rfl, rfl⟩ := List.map_eq_cons_iff.mp (comes.queue.symm.trans waits)
    rw [comes.waiting once]
    exact ⟨_, _, comes.turned ignores once complete⟩

end Linking

end Crosslink
