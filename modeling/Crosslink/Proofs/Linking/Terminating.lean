import Crosslink.Proofs.Linking.Completeness

/-! Runs that come to their end, whatever their loader has.

A turn lets only those wait again that it has loaded, and what it loads had not been loaded. So
each resource is loaded once at most, and has one turn at most besides. A loader may have a text
for every address there is. If all languages in use read names only, then a turn that loads no
member of the start owes fewer addresses than were owed before, and there are only so many members.
-/

set_option autoImplicit false

namespace Crosslink

namespace Linking

variable {scope : Scope} {stop : Progress → Bool} {start set : ResourceSet}
  {home uri : ResourceUri} {run after last : Run} {queue : List ResourceUri} {ending : Ending}

def ReadsNames (language : Language) : Prop :=
  ∀ text, ∀ pending ∈ (language.parse text).pending, waitsForAddress pending = false

/-- What joins a set is read in languages of names. -/
def RegistersNames (set : ResourceSet) : Prop :=
  ∀ uri language, set.languages.for? uri = some language → ReadsNames language

/-- What is loaded for references, visit by visit, up to where the visits stop. -/
def loads (scope : Scope) (stop : Progress → Bool) (home : ResourceUri) :
    Run → List Pending → List ResourceUri
  | _, [] => []
  | run, pending :: rest =>
    if stop run.progress then []
    else (resolve scope run.set home pending).loaded.toList ++
      loads scope stop home (run.visit scope home pending) rest

structure Taken where
  home : ResourceUri
  loaded : List ResourceUri

/-- The turns that a run takes until no resource waits or it is stopped, however many there are. -/
inductive Takes (scope : Scope) (stop : Progress → Bool) :
    Run → List Taken → Run → Ending → Prop where
  | finished {run : Run} (idle : run.queue = []) : Takes scope stop run [] run .finished
  | cancelled {run after : Run} {home : ResourceUri} {queue : List ResourceUri}
      (waits : run.queue = home :: queue)
      (visited : Run.visitAll scope stop home { run with queue } (waiting run.set home) =
        (after, true)) :
      Takes scope stop run
        [⟨home, loads scope stop home { run with queue } (waiting run.set home)⟩] after .cancelled
  | next {run after last : Run} {home : ResourceUri} {queue : List ResourceUri}
      {turns : List Taken} {ending : Ending} (waits : run.queue = home :: queue)
      (visited : Run.visitAll scope stop home { run with queue } (waiting run.set home) =
        (after, false))
      (rest : Takes scope stop after turns last ending) :
      Takes scope stop run
        (⟨home, loads scope stop home { run with queue } (waiting run.set home)⟩ :: turns)
        last ending

/-! ### One turn -/

theorem isLoaded_of_loaded {pending : Pending}
    (loaded : (resolve scope set home pending).loaded = some uri) :
    (resolve scope set home pending).set.isLoaded uri = true := by
  obtain ⟨here, target, found, waits, rfl, fresh, had⟩ := address_of_loaded loaded
  have apart : target.resource ≠ home := by
    intro same
    obtain ⟨content, held, _⟩ := context?_eq_some_iff.mp found
    rw [← same] at held
    cases (closed_of_loaded loaded).symm.trans held
  rw [ResourceSet.isLoaded_iff, content?_resolve_of_ne apart, supplied_of_uri found waits,
    (ResourceSet.fills_ensureLoaded fresh).own]
  cases supplied : set.supply? target.resource with
  | some content => exact ⟨content, rfl⟩
  | none =>
    obtain ⟨_, _, vain⟩ := ResourceSet.ensureLoaded_of_missing fresh supplied
    rw [vain] at had
    cases had

theorem extends_visitAll {entries : List Pending} {stopped : Bool}
    (visited : Run.visitAll scope stop home run entries = (after, stopped)) :
    run.set.Extends after.set := by
  obtain ⟨first, _, _, same⟩ := @exists_visits scope home stop run entries
  rw [same] at visited
  cases visited
  exact extends_visits first

theorem visits_of_visitAll {entries : List Pending}
    (visited : Run.visitAll scope stop home run entries = (after, false)) :
    after = visits scope home run entries := by
  obtain ⟨first, rest, rfl, same⟩ := @exists_visits scope home stop run entries
  rw [same, Prod.mk.injEq, Bool.not_eq_false', List.isEmpty_iff] at visited
  obtain ⟨rfl, rfl⟩ := visited
  rw [List.append_nil]

/-- Only what was loaded for the references comes to wait. -/
theorem queue_visitAll (entries : List Pending) : ∃ more,
    (Run.visitAll scope stop home run entries).1.queue = run.queue ++ more ∧
      more.Sublist (loads scope stop home run entries) := by
  induction entries generalizing run with
  | nil => exact ⟨[], (List.append_nil _).symm, .slnil⟩
  | cons pending rest ih =>
    rw [Run.visitAll, loads]
    split
    · exact ⟨[], (List.append_nil _).symm, .slnil⟩
    · obtain ⟨new, queue, listed⟩ := @exists_queue_visit scope home pending run
      obtain ⟨more, queue', listed'⟩ := @ih (run.visit scope home pending)
      exact ⟨new ++ more, by rw [queue', queue, List.append_assoc], listed.append listed'⟩

/-- What is loaded for references had not been loaded, and is loaded from then on. -/
theorem loads_once (entries : List Pending) :
    (loads scope stop home run entries).Nodup ∧ ∀ uri ∈ loads scope stop home run entries,
      run.set.content? uri = none ∧
        (Run.visitAll scope stop home run entries).1.set.isLoaded uri = true := by
  induction entries generalizing run with
  | nil => exact ⟨List.nodup_nil, fun _ member => absurd member List.not_mem_nil⟩
  | cons pending rest ih =>
    rw [Run.visitAll, loads]
    split
    · exact ⟨List.nodup_nil, fun _ member => absurd member List.not_mem_nil⟩
    · obtain ⟨once, each⟩ := @ih (run.visit scope home pending)
      rw [set_visit] at each
      have later : ∀ uri ∈ loads scope stop home (run.visit scope home pending) rest,
          run.set.content? uri = none := fun uri member =>
        extends_resolve.closed (each uri member).1
      cases loaded : (resolve scope run.set home pending).loaded with
      | none => exact ⟨once, fun uri member => ⟨later uri member, (each uri member).2⟩⟩
      | some new =>
        have filled := isLoaded_of_loaded loaded
        have rest' : (run.visit scope home pending).set.Extends
            (Run.visitAll scope stop home (run.visit scope home pending) rest).1.set :=
          extends_visitAll rfl
        rw [set_visit] at rest'
        refine ⟨List.nodup_cons.mpr ⟨fun again => ?_, once⟩, fun uri member => ?_⟩
        · obtain ⟨content, held⟩ := ResourceSet.isLoaded_iff.mp filled
          cases (each new again).1.symm.trans held
        · rcases List.mem_cons.mp member with rfl | member
          · exact ⟨closed_of_loaded loaded, rest'.isLoaded filled⟩
          · exact ⟨later uri member, (each uri member).2⟩

/-! ### All turns of a run -/

namespace Takes

variable {turns : List Taken} (takes : Takes scope stop run turns last ending)
include takes

theorem extends_set : run.set.Extends last.set := by
  induction takes with
  | finished _ => exact .refl _
  | cancelled _ visited => exact (extends_visitAll visited :)
  | next _ visited _ ih => exact ResourceSet.Extends.trans (extends_visitAll visited :) ih

theorem ne_exhausted : ending ≠ .exhausted := by
  induction takes with
  | finished _ => nofun
  | cancelled _ _ => nofun
  | next _ _ _ ih => exact ih

/-- Enough turns are allowed if there are as many as the run takes. -/
theorem runWithin_eq {bound : Nat} (enough : turns.length ≤ bound) :
    Run.runWithin scope stop bound run = (last, ending) := by
  induction takes generalizing bound with
  | finished idle => cases bound <;> simp [Run.runWithin, idle]
  | cancelled waits visited =>
    obtain ⟨bound, rfl⟩ := Nat.exists_eq_add_of_le' enough
    rw [List.length_singleton, runWithin_of_waiting waits rfl, visited]
  | next waits visited _ ih =>
    obtain ⟨bound, rfl⟩ := Nat.exists_eq_add_of_le' enough
    rw [List.length_cons, ← Nat.add_assoc, runWithin_of_waiting waits rfl, visited]
    exact ih (Nat.le_add_left _ _)

/-- All that a run loads had not been loaded, and is loaded once. -/
theorem loaded_once : (turns.flatMap (·.loaded)).Nodup ∧ ∀ uri ∈ turns.flatMap (·.loaded),
    run.set.content? uri = none ∧ last.set.isLoaded uri = true := by
  induction takes with
  | finished _ => exact ⟨List.nodup_nil, nofun⟩
  | @cancelled run after home queue _ visited =>
    have own := @loads_once scope stop home { run with queue } (waiting run.set home)
    rw [visited] at own
    simpa using own
  | @next run after last home queue turns _ _ visited rest ih =>
    obtain ⟨once, own⟩ := @loads_once scope stop home { run with queue } (waiting run.set home)
    have extended := extends_visitAll visited
    rw [visited] at own
    obtain ⟨once', others⟩ := ih
    rw [List.flatMap_cons]
    refine ⟨List.nodup_append.mpr ⟨once, once', ?_⟩, fun uri member => ?_⟩
    · rintro uri early _ late rfl
      obtain ⟨content, held⟩ := ResourceSet.isLoaded_iff.mp (own uri early).2
      cases (others uri late).1.symm.trans held
    · rcases List.mem_append.mp member with early | late
      · exact ⟨(own uri early).1, rest.extends_set.isLoaded (own uri early).2⟩
      · exact ⟨extended.closed (others uri late).1, (others uri late).2⟩

/-- A resource has a turn for each time it waits at first and for each time it is loaded, at
most. -/
theorem count_home_le (uri : ResourceUri) : (turns.map (·.home)).count uri ≤
    run.queue.count uri + (turns.flatMap (·.loaded)).count uri := by
  induction takes with
  | finished _ => exact Nat.zero_le _
  | cancelled waits _ =>
    rw [waits, List.map_singleton, List.count_cons, List.count_cons, List.count_nil]
    dsimp only
    omega
  | @next run after _ home queue turns _ waits visited _ ih =>
    obtain ⟨more, queue', listed⟩ :=
      @queue_visitAll scope stop home { run with queue } (waiting run.set home)
    rw [visited] at queue'
    have fewer := listed.count_le uri
    rw [queue', List.count_append] at ih
    rw [waits, List.map_cons, List.flatMap_cons, List.count_cons, List.count_cons,
      List.count_append]
    dsimp only at ih ⊢
    omega

/-- If all that can be had is names, there are no more turns than are owed. -/
theorem length_le_turnsLeft (names : SuppliesNames start) (serves : Serves scope start run) :
    turns.length ≤ turnsLeft run := by
  induction takes with
  | finished _ => exact Nat.zero_le _
  | cancelled waits _ =>
    unfold turnsLeft
    rw [waits, List.length_singleton, List.length_cons]
    omega
  | @next run _ _ home queue _ _ waits visited _ ih =>
    obtain rfl := visits_of_visitAll visited
    have unique := serves.queue
    rw [waits, List.nodup_cons] at unique
    have fewer := @turnsLeft_turn scope home run queue waits unique.1
      fun uri _ _ => (names uri).later serves.extended
    have left := ih (serves.turn waits)
    rw [List.length_cons]
    omega

end Takes

/-! ### That there is an end -/

theorem suppliesNamesFor_of_language
    (reads : ∀ language, set.language? uri = some language → ReadsNames language) :
    SuppliesNamesFor set uri := by
  intro content had pending member
  obtain ⟨loader, _, answered⟩ := Option.bind_eq_some_iff.mp had
  obtain ⟨text, _, read⟩ := Option.bind_eq_some_iff.mp answered
  obtain ⟨language, spoken, rfl⟩ := Option.map_eq_some_iff.mp read
  exact reads language spoken text pending (List.mem_mergeSort.mp member)

theorem RegistersNames.suppliesNamesFor (names : RegistersNames set) (absent : uri ∉ set.uris) :
    SuppliesNamesFor set uri := by
  apply suppliesNamesFor_of_language
  intro language spoken
  rw [ResourceSet.language?_of_absent (ResourceSet.get?_eq_none_iff.mpr absent)] at spoken
  exact names uri language spoken

def unread (start set : ResourceSet) : List ResourceUri :=
  start.uris.filter fun uri => !set.isLoaded uri

-- If no member of the start is loaded in a turn, then all that is loaded in it has joined the set,
-- in a language that is in use.
theorem descends_turn (names : RegistersNames start) (serves : Serves scope start run)
    (waits : run.queue = home :: queue) :
    let after := visits scope home { run with queue } (waiting run.set home)
    Prod.Lex (· < ·) (· < ·) ((unread start after.set).length, turnsLeft after)
      ((unread start run.set).length, turnsLeft run) := by
  intro after
  have extended : run.set.Extends after.set :=
    @extends_visits scope home { run with queue } (waiting run.set home)
  have fewer : (unread start after.set).Sublist (unread start run.set) := by
    refine List.monotone_filter_right _ fun uri isUnread => ?_
    rw [Bool.not_eq_true', ← Bool.not_eq_true] at isUnread ⊢
    exact fun loaded => isUnread (extended.isLoaded loaded)
  rcases Nat.lt_or_ge (unread start after.set).length (unread start run.set).length with
    shorter | equal
  · exact .left _ _ shorter
  · have same := fewer.eq_of_length_le equal
    have unique := serves.queue
    rw [waits, List.nodup_cons] at unique
    rw [same]
    refine .right _ (turnsLeft_turn waits unique.1 fun uri closed loaded => ?_)
    refine (names.suppliesNamesFor fun member => ?_).later serves.extended
    have isUnread : uri ∈ unread start run.set := by
      refine List.mem_filter.mpr ⟨member, ?_⟩
      rw [Bool.not_eq_true', ← Bool.not_eq_true, ResourceSet.isLoaded_iff]
      rintro ⟨content, held⟩
      cases closed.symm.trans held
    rw [← same] at isUnread
    have notYet := (List.mem_filter.mp isUnread).2
    rw [loaded] at notYet
    cases notYet

theorem exists_takes (names : RegistersNames start) (stop : Progress → Bool) (run : Run)
    (serves : Serves scope start run) : ∃ turns last ending, Takes scope stop run turns last ending := by
  cases waits : run.queue with
  | nil => exact ⟨[], run, .finished, .finished waits⟩
  | cons home queue =>
    cases visited : Run.visitAll scope stop home { run with queue } (waiting run.set home) with
    | mk after stopped =>
      cases stopped with
      | true => exact ⟨_, after, .cancelled, .cancelled waits visited⟩
      | false =>
        obtain rfl := visits_of_visitAll visited
        obtain ⟨turns, last, ending, rest⟩ := exists_takes names stop _ (serves.turn waits)
        exact ⟨_, last, ending, .next waits visited rest⟩
termination_by ((unread start run.set).length, turnsLeft run)
decreasing_by exact descends_turn names serves waits

/-- Linking comes to its end if all languages in use read names only, be there a text for every
address or not, and wherever it is stopped. It takes finitely many turns, loads each resource once
at most, and none that was loaded; and each resource has one turn at most as a member of the start,
and one at most as a resource that was loaded. As many turns are always allowed if the languages of
the members read names only, too. -/
theorem link_terminates (once : set.uris.Nodup) (names : RegistersNames set) (scope : Scope)
    (stop : Progress → Bool) :
    ∃ turns last ending, Takes scope stop (.start set) turns last ending ∧
      ending ≠ .exhausted ∧
      (∀ bound, turns.length ≤ bound →
        Run.runWithin scope stop bound (.start set) = (last, ending)) ∧
      (turns.flatMap (·.loaded)).Nodup ∧
      (∀ uri ∈ turns.flatMap (·.loaded),
        set.content? uri = none ∧ last.set.isLoaded uri = true) ∧
      (∀ uri, (turns.map (·.home)).count uri ≤
        (if uri ∈ set.uris then 1 else 0) + (turns.flatMap (·.loaded)).count uri) ∧
      ((∀ resource ∈ set.resources, ∀ language, resource.language = some language →
          ReadsNames language) →
        (link scope stop set).1 = last.set ∧ (link scope stop set).2.ending = ending) := by
  have serves := @serves_start scope set once
  obtain ⟨turns, last, ending, takes⟩ := exists_takes names stop (.start set) serves
  obtain ⟨loadedOnce, loaded⟩ := takes.loaded_once
  refine ⟨turns, last, ending, takes, takes.ne_exhausted, fun bound => takes.runWithin_eq,
    loadedOnce, loaded, fun uri => ?turns, fun own => ?link⟩
  case turns =>
    have counted := takes.count_home_le uri
    rw [show (Run.start set).queue = set.uris from rfl, once.count] at counted
    exact counted
  case link =>
    have supplied : SuppliesNames set := by
      intro uri
      cases found : set.get? uri with
      | none => exact names.suppliesNamesFor (ResourceSet.get?_eq_none_iff.mp found)
      | some resource =>
        apply suppliesNamesFor_of_language
        rw [ResourceSet.language?_of_get? found]
        exact own resource (ResourceSet.mem_of_get? found)
    have enough := takes.length_le_turnsLeft supplied serves
    rw [turnsLeft_start once] at enough
    obtain ⟨linked, _, ended⟩ := link_of_run (takes.runWithin_eq enough)
    exact ⟨linked, ended⟩

theorem readsNames_types : ReadsNames Types.language := by
  intro text pending member
  have sound := (Content.sound_of_parse text none).1
  obtain ⟨name, waits⟩ := sound.name_of_waits (List.mem_mergeSort.mpr member)
  unfold waitsForAddress
  rw [waits]

/-- There is a text for every address, and no resource has more than two turns. -/
theorem link_terminates_leftBehind : leftBehind.uris.Nodup ∧ RegistersNames leftBehind ∧
    (∀ uri, leftBehind.loader.map (· uri) = some (.ok "type A extends B type B extends C")) ∧
    ∃ turns last ending,
      Takes (globalScope .simple) (fun _ => false) (.start leftBehind) turns last ending ∧
        ending ≠ .exhausted ∧ (∀ uri, (turns.map (·.home)).count uri ≤ 2) ∧
        (link (globalScope .simple) (fun _ => false) leftBehind).1 = last.set := by
  have speaks := speaks_leftBehind
  have names : RegistersNames leftBehind := by
    intro uri language found
    rw [speaks.known found]
    exact readsNames_types
  obtain ⟨turns, last, ending, takes, ends, _, loadedOnce, _, counted, linked⟩ :=
    link_terminates speaks.once names (globalScope .simple) fun _ => false
  refine ⟨speaks.once, names, fun _ => rfl, turns, last, ending, takes, ends, fun uri => ?_, ?_⟩
  · have loaded := List.nodup_iff_count_le_one.mp loadedOnce uri
    have first : (if uri ∈ leftBehind.uris then 1 else 0) ≤ 1 := by split <;> omega
    have both := counted uri
    omega
  · refine (linked fun resource member language spoken => ?_).1
    rw [speaks.spoken resource member, Option.some.injEq] at spoken
    rw [← spoken]
    exact readsNames_types

end Linking

end Crosslink
