import Crosslink.Proofs.Linking.Reachable
import Crosslink.Proofs.Linking.Serving
import Crosslink.Proofs.Linking.Sessions
import Crosslink.Proofs.Linking.Steadiness
import Crosslink.Proofs.Resource.Soundness
import Mathlib.Algebra.Order.BigOperators.Group.List
import Mathlib.Algebra.Order.Ring.Nat

/-! Runs that are not stopped visit all that is loaded.

Each turn takes one resource from the queue, and lets at most one wait for every
known address that it visits. Texts of names bring no addresses, so that the run
comes to its end, and then every member that is loaded has had its turn.
-/

set_option autoImplicit false

namespace Crosslink

namespace Linking

variable {scope : Scope} {start set next : ResourceSet} {home other uri : ResourceUri}
  {pending : Pending} {rest : List Pending} {run : Run} {content : Content}

/-! ### How far a run is from its end -/

def SuppliesNamesFor (set : ResourceSet) (uri : ResourceUri) : Prop :=
  ∀ content, set.supply? uri = some content →
    ∀ pending ∈ content.pending, waitsForAddress pending = false

def SuppliesNames (set : ResourceSet) : Prop := ∀ uri, SuppliesNamesFor set uri

theorem SuppliesNamesFor.later (names : SuppliesNamesFor set uri) (extended : set.Extends next) :
    SuppliesNamesFor next uri := by
  intro content had
  rw [extended.supply?] at had
  exact names content had

def owed (set : ResourceSet) (uri : ResourceUri) : Nat := (waiting set uri).countP waitsForAddress

theorem owed_of_closed (closed : set.content? uri = none) : owed set uri = 0 := by
  unfold owed
  rw [waiting_of_closed closed]
  rfl

theorem owed_of_supply? (names : SuppliesNamesFor set uri) (had : set.supply? uri = some content)
    (held : next.content? uri = some content) : owed next uri = 0 := by
  unfold owed
  rw [waiting_eq held, List.countP_eq_zero]
  intro pending member
  simp [names content had pending member]

theorem extends_visits (entries : List Pending) :
    run.set.Extends (visits scope home run entries).set := by
  induction entries generalizing run with
  | nil => exact .refl _
  | cons pending rest ih =>
    have later := @ih (run.visit scope home pending)
    rw [set_visit] at later
    exact extends_resolve.trans later

theorem content?_visits_of_loaded (apart : other ≠ home) (entries : List Pending)
    (held : run.set.content? other = some content) :
    (visits scope home run entries).set.content? other = some content := by
  induction entries generalizing run with
  | nil => exact held
  | cons pending rest ih =>
    apply ih
    rw [set_visit]
    exact content?_resolve_of_loaded apart held

/-- What another resource holds newly after visits is what the loader had for it. -/
theorem supply?_of_visits (apart : other ≠ home) (entries : List Pending)
    (closed : run.set.content? other = none)
    (held : (visits scope home run entries).set.content? other = some content) :
    run.set.supply? other = some content := by
  induction entries generalizing run with
  | nil => cases closed.symm.trans held
  | cons pending rest ih =>
    have turned : (run.visit scope home pending).set = (resolve scope run.set home pending).set :=
      set_visit run
    cases first : (resolve scope run.set home pending).set.content? other with
    | none =>
      rw [← (@extends_resolve scope run.set home pending).supply?, ← turned]
      exact ih (turned ▸ first) held
    | some loaded =>
      have kept := @content?_visits_of_loaded scope home other (run.visit scope home pending) loaded
        apart rest (turned ▸ first)
      cases kept.symm.trans held
      exact (loaded_of_new apart closed first).2

/-- At most what was loaded for a visit comes to wait. -/
theorem exists_queue_visit : ∃ new, (run.visit scope home pending).queue = run.queue ++ new ∧
    new.Sublist (resolve scope run.set home pending).loaded.toList := by
  unfold Run.visit
  dsimp only
  cases (resolve scope run.set home pending).loaded with
  | none => exact ⟨[], (List.append_nil _).symm, .slnil⟩
  | some uri =>
    unfold Run.enqueue
    dsimp only
    split
    · exact ⟨[], (List.append_nil _).symm, List.nil_sublist _⟩
    · exact ⟨[uri], rfl, .refl _⟩

theorem queue_visit : ∃ more, (run.visit scope home pending).queue = run.queue ++ more ∧
    more.length ≤ (waitsForAddress pending).toNat ∧ ∀ uri ∈ more, run.set.content? uri = none := by
  obtain ⟨new, queue, listed⟩ := @exists_queue_visit scope home pending run
  refine ⟨new, queue, ?_, fun uri member => ?_⟩
  · refine listed.length_le.trans ?_
    cases loaded : (resolve scope run.set home pending).loaded with
    | none => exact Nat.zero_le _
    | some uri =>
      obtain ⟨_, target, _, waits, _⟩ := address_of_loaded loaded
      unfold waitsForAddress
      rw [waits]
      exact Nat.le_refl 1
  · exact closed_of_loaded (Option.mem_toList.mp (listed.mem member))

/-- What visits let wait had not been loaded, and there is an address for each. -/
theorem queue_visits (entries : List Pending) : ∃ more,
    (visits scope home run entries).queue = run.queue ++ more ∧
      more.length ≤ entries.countP waitsForAddress ∧ ∀ uri ∈ more, run.set.content? uri = none := by
  induction entries generalizing run with
  | nil => exact ⟨[], (List.append_nil _).symm, Nat.zero_le _, nofun⟩
  | cons pending rest ih =>
    obtain ⟨one, queue, few, closed⟩ := @queue_visit scope home pending run
    obtain ⟨more, queue', few', closed'⟩ := @ih (run.visit scope home pending)
    refine ⟨one ++ more, ?_, ?_, fun uri member => ?_⟩
    · rw [← List.append_assoc, ← queue]
      exact queue'
    · rw [List.length_append, List.countP_cons]
      cases address : waitsForAddress pending <;> rw [address] at few <;>
        simp only [Bool.toNat_true, Bool.toNat_false, Bool.false_eq_true, if_true, if_false]
          at few ⊢ <;> omega
    · rcases List.mem_append.mp member with new | later
      · exact closed uri new
      · have after := closed' uri later
        rw [set_visit] at after
        exact extends_resolve.closed after

def turnsLeft (run : Run) : Nat := run.queue.length + (run.queue.map (owed run.set)).sum

section Turn

variable {queue more : List ResourceUri} {entries : List Pending}
  (names : ∀ uri, run.set.content? uri = none →
    (visits scope home run entries).set.isLoaded uri = true → SuppliesNamesFor run.set uri)
include names

/-- What is loaded for visits owes nothing. -/
theorem owed_new (apart : other ≠ home) (closed : run.set.content? other = none) :
    owed (visits scope home run entries).set other = 0 := by
  cases held : (visits scope home run entries).set.content? other with
  | none => exact owed_of_closed held
  | some content =>
    have loaded := ResourceSet.isLoaded_iff.mpr ⟨content, held⟩
    exact owed_of_supply? (names other closed loaded) (supply?_of_visits apart entries closed held)
      held

theorem owed_visits (apart : other ≠ home) :
    owed (visits scope home run entries).set other ≤ owed run.set other := by
  cases held : run.set.content? other with
  | none =>
    rw [owed_new names apart held]
    exact Nat.zero_le _
  | some content =>
    have kept := @content?_visits_of_loaded scope home other run content apart entries held
    unfold owed
    rw [waiting_eq held, waiting_eq kept]

/-- The visits of a resource add nothing to what others owe. -/
theorem sum_owed_visits (apart : home ∉ queue) :
    (queue.map (owed (visits scope home run entries).set)).sum ≤
      (queue.map (owed run.set)).sum := by
  apply List.sum_le_sum
  intro uri member
  refine owed_visits names ?_
  rintro rfl
  exact apart member

/-- What was not loaded before owes nothing afterwards. -/
theorem sum_owed_new (apart : home ∉ more)
    (closed : ∀ uri ∈ more, run.set.content? uri = none) :
    (more.map (owed (visits scope home run entries).set)).sum = 0 := by
  apply List.sum_eq_zero
  intro count listed
  obtain ⟨uri, member, rfl⟩ := List.mem_map.mp listed
  refine owed_new names ?_ (closed uri member)
  rintro rfl
  exact apart member

end Turn

-- A turn ends, and each reference that may bring a new one is owed no more.
theorem turnsLeft_turn {queue : List ResourceUri} (waits : run.queue = home :: queue)
    (apart : home ∉ queue)
    (names : ∀ uri, run.set.content? uri = none →
      (visits scope home { run with queue } (waiting run.set home)).set.isLoaded uri = true →
        SuppliesNamesFor run.set uri) :
    turnsLeft (visits scope home { run with queue } (waiting run.set home)) + 1 ≤
      turnsLeft run := by
  obtain ⟨more, queue', few, closed⟩ :=
    @queue_visits scope home { run with queue } (waiting run.set home)
  have absent : home ∉ more := by
    intro member
    rw [waiting_of_closed (closed home member)] at few
    rw [List.eq_nil_of_length_eq_zero (Nat.le_zero.mp few)] at member
    cases member
  have old := @sum_owed_visits scope home { run with queue } queue (waiting run.set home) names apart
  have new := @sum_owed_new scope home { run with queue } more (waiting run.set home) names absent
    closed
  unfold turnsLeft
  rw [queue', waits, List.map_append, List.sum_append, List.length_append, List.map_cons,
    List.sum_cons, List.length_cons, new]
  dsimp only at old ⊢
  have own : owed run.set home = (waiting run.set home).countP waitsForAddress := rfl
  omega

/-- Texts of names let every run come to its end. -/
theorem finishes (serves : Serves scope start run) (names : SuppliesNames start) {bound : Nat}
    (enough : turnsLeft run ≤ bound) :
    (Run.runWithin scope (fun _ => false) bound run).2 = .finished := by
  induction bound generalizing run with
  | zero =>
    have empty : run.queue = [] := by
      apply List.eq_nil_of_length_eq_zero
      unfold turnsLeft at enough
      omega
    simp [Run.runWithin, empty]
  | succ bound ih =>
    cases waits : run.queue with
    | nil => rw [Run.runWithin, waits]
    | cons home queue =>
      have unique := serves.queue
      rw [waits, List.nodup_cons] at unique
      have fewer := @turnsLeft_turn scope home run queue waits unique.1
        fun uri _ _ => (names uri).later serves.extended
      rw [runWithin_never waits]
      exact ih (serves.turn waits) (by omega)

theorem turnsLeft_start (once : set.uris.Nodup) : turnsLeft (.start set) = visitBound set := by
  unfold turnsLeft visitBound Run.start ResourceSet.uris
  dsimp only
  rw [List.length_map, List.map_map, List.length_flatMap]
  congr 2
  apply List.map_congr_left
  intro resource member
  unfold owed waiting
  rw [Function.comp_apply, ResourceSet.get?_of_mem once member, List.countP_eq_length_filter]
  rfl

/-! ### What a run that is not stopped leaves -/

/-- All that can be had is read as types. -/
def LoadsTypes (set : ResourceSet) : Prop :=
  ∀ loader, set.loader = some loader → ∀ uri text, loader uri = .ok text →
    ∀ language, set.language? uri = some language → language = Types.language

theorem sound_of_supply? (types : LoadsTypes set) (had : set.supply? uri = some content) :
    content.Sound := by
  obtain ⟨loader, loads, answered⟩ := Option.bind_eq_some_iff.mp had
  obtain ⟨text, answer, read⟩ := Option.bind_eq_some_iff.mp answered
  obtain ⟨language, spoken, rfl⟩ := Option.map_eq_some_iff.mp read
  have answer : loader uri = .ok text := by
    cases answer' : loader uri <;> rw [answer'] at answer <;> cases answer
    rfl
  rw [types loader loads uri text answer language spoken]
  exact (Content.sound_of_parse text _).1

theorem loadsTypes_of_speaks (speaks : Types.Speaks set) : LoadsTypes set :=
  fun _ _ _ _ _ _ spoken => ResourceSet.language_of_speaks speaks spoken

theorem suppliesNames_of_loadsTypes (types : LoadsTypes set) : SuppliesNames set := by
  intro uri content had pending member
  obtain ⟨name, waits⟩ := (sound_of_supply? types had).name_of_waits member
  unfold waitsForAddress
  rw [waits]

structure Visited (uri : ResourceUri) (before after : Content) : Prop where
  shape : after.tree.shape = before.tree.shape
  /-- What still waits has an error of its own. -/
  waits : ∀ pending ∈ after.pending, pending ∈ before.pending ∧
    ∃ feature, after.tree.feature? pending.source pending.feature = some feature ∧
      ∀ diagnostic, (pending.slot, diagnostic) ∈ after.linkDiagnostics.entries ↔
        diagnostic = unresolvedError ⟨uri, after.tree, pending.source⟩ feature pending.proxy
  bound : ∀ pending ∈ before.pending, pending ∉ after.pending →
    ∃ target, after.tree.referenceAt? pending.slot = some (.bound target)

-- A set that the run has passed through has the node and the feature, so that the reference
-- was not passed over there.
theorem verdict_of_stands {before : Content} {verdict : Verdict}
    (stands : Stands scope start set home (pending, verdict)) (origin : start.Origin home before)
    (consistent : before.tree.Consistent)
    (present : (before.tree.referenceAt? pending.slot).isSome = true) :
    ∃ tree feature uris, tree.shape = before.tree.shape ∧
      tree.feature? pending.source pending.feature = some feature ∧
      verdict = .of ⟨home, tree, pending.source⟩ feature pending.proxy uris := by
  obtain ⟨earlier, _, extended, loaded, judged, _⟩ := stands
  obtain ⟨content, held⟩ := ResourceSet.isLoaded_iff.mp loaded
  have shapes := extended.shape_of_origin origin held
  rw [← Tree.isSome_referenceAt?_of_shape shapes] at present
  obtain ⟨value, filled⟩ := Option.isSome_iff_exists.mp present
  obtain ⟨site, feature, here⟩ :=
    exists_context held (Tree.consistent_of_shape shapes consistent) filled
  obtain ⟨_, held', rfl, declared⟩ := context?_eq_some_iff.mp here
  cases held.symm.trans held'
  cases asked : candidates scope earlier home ⟨home, content.tree, pending.source⟩ feature
      pending.proxy with
  | mk found uris =>
    exact ⟨content.tree, feature, _, shapes, declared,
      judged.symm.trans (verdict_of_asked here asked)⟩

theorem visited_of_attended {before : Content} {entries : List (Pending × Verdict)}
    (origin : start.Origin home before) (placed : before.Placed)
    (listed : entries.map (·.1) = before.pending)
    (stands : ∀ entry ∈ entries, Stands scope start set home entry) :
    Visited home before (before.settleAll entries) := by
  have shapes := @Content.shape_settleAll before entries
  have places : (entries.map (·.1.slot.place)).Nodup := by
    have distinct := placed.distinct
    rwa [← listed, List.map_map] at distinct
  have slots : (entries.map (·.1.slot)).Nodup :=
    List.Nodup.of_map SlotKey.place (by rwa [List.map_map])
  have settled : ∀ pending ∈ before.pending, ∃ verdict, (pending, verdict) ∈ entries := by
    intro pending member
    rw [← listed] at member
    obtain ⟨⟨_, verdict⟩, among, rfl⟩ := List.mem_map.mp member
    exact ⟨verdict, among⟩
  refine ⟨shapes, fun pending member => ?waits, fun pending member closed => ?bound⟩
  case waits =>
    rw [Content.pending_settleAll] at member
    obtain ⟨waited, isOpen⟩ := List.mem_filter.mp member
    obtain ⟨verdict, among⟩ := settled pending waited
    have present := placed.present pending waited
    obtain ⟨tree, feature, uris, same, declared, rfl⟩ :=
      verdict_of_stands (stands _ among) origin placed.consistent present
    have view := Content.view_settleAll_of_mem places among present
    rw [Content.closed_of_mem slots among] at isOpen
    cases uris with
    | cons target others =>
      unfold Verdict.of Content.closes at isOpen
      rw [present] at isOpen
      cases isOpen
    | nil =>
      have agree : (before.settleAll entries).tree.shape = tree.shape := shapes.trans same.symm
      refine ⟨waited, feature, ?_, fun diagnostic => ?_⟩
      · rw [Tree.feature?_of_shape agree]
        exact declared
      · have error := @unresolvedError_of_shape ⟨home, tree, pending.source⟩ feature pending.proxy
          (before.settleAll entries).tree agree
        rw [error, ← eq_iff_iff]
        exact congrFun (congrArg SlotView.wrong view) diagnostic
  case bound =>
    obtain ⟨verdict, among⟩ := settled pending member
    have present := placed.present pending member
    obtain ⟨tree, feature, uris, _, _, rfl⟩ :=
      verdict_of_stands (stands _ among) origin placed.consistent present
    have view := Content.view_settleAll_of_mem places among present
    cases uris with
    | nil =>
      rw [Content.pending_settleAll, List.mem_filter, Content.closed_of_mem slots among] at closed
      exact absurd ⟨member, rfl⟩ closed
    | cons target others => exact ⟨target, congrArg SlotView.value view⟩

/-- A run that is not stopped comes to its end. All that is loaded then, be it from the start or
on the way, has been visited as it was at first. -/
theorem link_visits_all (once : set.uris.Nodup) (types : LoadsTypes set)
    (placed : ∀ {uri content}, set.content? uri = some content → content.Placed) :
    let after := link scope (fun _ => false) set
    after.2.ending = .finished ∧
      ∀ uri content, after.1.content? uri = some content →
        ∃ before, set.Origin uri before ∧ Visited uri before content := by
  intro after
  cases ran : Run.runWithin scope (fun _ => false) (visitBound set) (.start set) with
  | mk last ending =>
    have ended : ending = .finished := by
      have ends := finishes (@serves_start scope set once) (suppliesNames_of_loadsTypes types)
        (Nat.le_of_eq (turnsLeft_start once))
      rwa [ran] at ends
    subst ended
    obtain ⟨_, _, served⟩ := served_runWithin once ran
    obtain ⟨linked, _, finished⟩ := link_of_run ran
    refine ⟨finished, fun uri content held => ?_⟩
    rw [show after.1 = last.set from linked] at held
    obtain ⟨before, entries, origin, listed, rfl, stands⟩ := (served held).whole
    refine ⟨before, origin, visited_of_attended origin ?_ listed stands⟩
    rcases origin with held | ⟨_, had⟩
    · exact placed held
    · exact (sound_of_supply? types had).placed

/-! ### A text behind the run -/

/-- The second type of the second text extends the one of the first, which is not loaded any more.
The first type extends one that is not known. -/
def addressed : ResourceSet :=
  let start : ResourceSet := { languages := ({} : Languages).register Types.language }
  let both := ((start.load firstUri "type A").1.load secondUri "type Y extends B type X").1
  let target : Uri := ⟨firstUri, .ofSteps [⟨"elements", some 0⟩]⟩
  let led := (both.edit secondUri fun tree =>
    (tree.run [.setReference 2 "extends" (.bound target)], ())).1
  (led.unload firstUri).1

theorem reachable_addressed : addressed.Reachable := by
  unfold addressed
  exact .unload (.edit (.load (.load .types _ _) _ _) _ _) _

theorem speaks_addressed : Types.Speaks addressed := by
  have load : ∀ {set : ResourceSet} {uri text}, Types.Speaks set →
      Types.Speaks (set.load uri text).1 := by
    intro set uri text speaks
    rcases speaks.load uri text with same | ⟨after, _⟩
    · rw [same]
      exact speaks
    · exact after
  unfold addressed
  exact .unload (.edit (load (load (Types.speaks_empty {}))) _ _) _

/-- The first text can be had again. Its turn has passed when it is loaded, and so has the turn of
the type that extends the unknown one. -/
def leftBehind : ResourceSet :=
  { addressed with loader := some fun _ => .ok "type A extends B type B extends C" }

theorem reachable_leftBehind : leftBehind.Reachable := reachable_addressed.provideLoader _

theorem speaks_leftBehind : Types.Speaks leftBehind := speaks_addressed.provide _

/-- All that is asked of the set and of a run over it, in one evaluation. -/
theorem seen_leftBehind :
    ((leftBehind.resources.all fun resource => resource.content.all fun content =>
        decide ((content.pending.map (·.slot.place)).Nodup) &&
          content.pending.all fun pending => (content.tree.referenceAt? pending.slot).isSome),
      (leftBehind.content? firstUri).isSome, (leftBehind.supply? firstUri).map (·.pending),
      ((link (globalScope .simple) (fun _ => false) leftBehind).1.content? firstUri).map
        (·.pending)) =
    (true, false, some [⟨⟨1, 1, none⟩, .name ⟨["B"]⟩⟩, ⟨⟨2, 1, none⟩, .name ⟨["C"]⟩⟩],
      some [⟨⟨2, 1, none⟩, .name ⟨["C"]⟩⟩]) := by
  cbv

theorem placed_leftBehind (held : leftBehind.content? uri = some content) : content.Placed := by
  obtain ⟨checked, _⟩ := Prod.mk.inj seen_leftBehind
  obtain ⟨resource, found, filled⟩ := Option.bind_eq_some_iff.mp held
  have own := List.all_eq_true.mp checked resource (ResourceSet.mem_of_get? found)
  rw [filled] at own
  obtain ⟨distinct, present⟩ := Bool.and_eq_true_iff.mp own
  exact ⟨(reachable_leftBehind.wellFormed held).consistent, of_decide_eq_true distinct,
    fun pending member => List.all_eq_true.mp present pending member⟩

theorem waits_leftBehind : ((link (globalScope .simple) (fun _ => false) leftBehind).1.content?
    firstUri).map (·.pending) = some [⟨⟨2, 1, none⟩, .name ⟨["C"]⟩⟩] := by
  have seen := seen_leftBehind
  simp only [Prod.mk.injEq] at seen
  exact seen.2.2.2

/-- The text is loaded behind the run and visited all the same. -/
theorem link_leftBehind : leftBehind.content? firstUri = none ∧
    (link (globalScope .simple) (fun _ => false) leftBehind).2.ending = .finished ∧
    ∃ content, (link (globalScope .simple) (fun _ => false) leftBehind).1.content? firstUri =
        some content ∧ content.pending = [⟨⟨2, 1, none⟩, .name ⟨["C"]⟩⟩] ∧
      (∃ feature, ∀ diagnostic,
        (⟨2, 1, none⟩, diagnostic) ∈ content.linkDiagnostics.entries ↔
          diagnostic = unresolvedError ⟨firstUri, content.tree, 2⟩ feature (.name ⟨["C"]⟩)) ∧
      ∃ target, content.tree.referenceAt? ⟨1, 1, none⟩ = some (.bound target) := by
  have seen := seen_leftBehind
  simp only [Prod.mk.injEq] at seen
  obtain ⟨_, missing, had, _⟩ := seen
  have closed : leftBehind.content? firstUri = none :=
    Option.isNone_iff_eq_none.mp (Option.isSome_eq_false_iff.mp missing)
  obtain ⟨ending, visited⟩ := @link_visits_all (globalScope .simple) leftBehind
    speaks_leftBehind.once (loadsTypes_of_speaks speaks_leftBehind) placed_leftBehind
  obtain ⟨content, held, left⟩ := Option.map_eq_some_iff.mp waits_leftBehind
  obtain ⟨before, origin, visited⟩ := visited firstUri content held
  obtain ⟨_, feature, _, noted⟩ := visited.waits ⟨⟨2, 1, none⟩, .name ⟨["C"]⟩⟩ (by simp [left])
  refine ⟨closed, ending, content, held, left, ⟨feature, noted⟩, ?_⟩
  rcases origin with loaded | ⟨_, supplied⟩
  · cases closed.symm.trans loaded
  · rw [supplied, Option.map_some, Option.some.injEq] at had
    exact visited.bound ⟨⟨1, 1, none⟩, .name ⟨["B"]⟩⟩ (by simp [had]) (by simp [left])

end Linking

end Crosslink
