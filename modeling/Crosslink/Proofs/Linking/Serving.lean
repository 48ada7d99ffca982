import Crosslink.Proofs.Linking.Reaching
import Crosslink.Proofs.Linking.Settling
import Crosslink.Proofs.ResourceSet.Extending

/-! Runs that load on their way.

A member that is loaded either waits for its turn, and then holds what it held at
first, or it has had its turn. All that waited in it has then been settled, each
reference by the verdict of a set that the run has passed through.
-/

set_option autoImplicit false

namespace Crosslink

open Linking

namespace Linking

variable {scope : Scope} {start set next : ResourceSet} {home other uri : ResourceUri}
  {pending : Pending} {rest : List Pending} {run : Run} {content : Content}

/-! ### One visit -/

theorem extends_supplied (home : ResourceUri) (set : ResourceSet) (pending : Pending) :
    set.Extends (supplied home set pending) := by
  unfold supplied
  split
  · exact ResourceSet.extends_ensureLoaded set _
  · exact .refl set

theorem supplied_extends_resolve :
    (supplied home set pending).Extends (resolve scope set home pending).set :=
  ResourceSet.extends_of_twins twins_resolve

theorem extends_resolve : set.Extends (resolve scope set home pending).set :=
  (extends_supplied home set pending).trans supplied_extends_resolve

theorem nodup_resolve (once : set.uris.Nodup) :
    (resolve scope set home pending).set.uris.Nodup := by
  rw [set_resolve, ResourceSet.uris_modify fun _ named => Resource.uri_settle.trans named]
  unfold supplied
  split
  · exact ResourceSet.nodup_ensureLoaded once _
  · exact once

/-- What the visit leaves in its own resource. -/
theorem content?_resolve_self (held : set.content? home = some content) :
    (resolve scope set home pending).set.content? home =
      some (content.settle pending (verdict scope set home pending)) := by
  have kept := @content?_supplied set home home pending content held
  rw [set_resolve, ResourceSet.content?, ResourceSet.get?_modify, if_pos rfl]
  · obtain ⟨resource, found, filled⟩ := Option.bind_eq_some_iff.mp kept
    rw [found, Option.map_some, Option.bind_some, Resource.content_settle, filled]
    rfl
  · exact fun _ named => Resource.uri_settle.trans named

/-- Only for a known address is a resource loaded, which had not been and which can be had. -/
theorem address_of_loaded (loaded : (resolve scope set home pending).loaded = some uri) :
    ∃ here target, context? set home pending = some here ∧ pending.proxy = .uri target ∧
      target.resource = uri ∧ set.isLoaded uri = false ∧ (set.ensureLoaded uri).2.isOk = true := by
  cases here : context? set home pending with
  | none =>
    unfold resolve at loaded
    rw [here] at loaded
    cases loaded
  | some found =>
    rw [loaded_of_asked here] at loaded
    cases waits : pending.proxy with
    | name name =>
      rw [waits] at loaded
      cases loaded
    | uri target =>
      rw [waits, candidates_uri] at loaded
      dsimp only at loaded
      split at loaded
      · next fresh =>
        cases loaded
        rw [Bool.and_eq_true, Bool.not_eq_true'] at fresh
        exact ⟨found, target, rfl, rfl, rfl, fresh⟩
      · cases loaded

/-- What was loaded for the visit had not been loaded. -/
theorem closed_of_loaded (loaded : (resolve scope set home pending).loaded = some uri) :
    set.content? uri = none := by
  obtain ⟨_, _, _, _, _, closed, _⟩ := address_of_loaded loaded
  exact ResourceSet.content?_of_closed closed

/-- What another resource holds newly was loaded for the visit, as the loader had it. -/
theorem loaded_of_new (apart : other ≠ home) (closed : set.content? other = none)
    (held : (resolve scope set home pending).set.content? other = some content) :
    (resolve scope set home pending).loaded = some other ∧ set.supply? other = some content := by
  rw [content?_resolve_of_ne apart] at held
  cases here : context? set home pending with
  | none =>
    rw [supplied_of_lost here, closed] at held
    cases held
  | some found =>
    cases waits : pending.proxy with
    | name name =>
      rw [supplied_of_name waits, closed] at held
      cases held
    | uri target =>
      rw [supplied_of_uri here waits] at held
      cases loaded : set.isLoaded target.resource with
      | true =>
        rw [ResourceSet.ensureLoaded_of_loaded loaded, closed] at held
        cases held
      | false =>
        have fills := ResourceSet.fills_ensureLoaded loaded
        by_cases asked : other = target.resource
        · subst asked
          rw [fills.own] at held
          refine ⟨?_, held⟩
          rw [loaded_of_asked here, waits, candidates_uri, loaded,
            ResourceSet.isOk_ensureLoaded loaded held]
          rfl
        · rw [fills.others other asked, closed] at held
          cases held

/-- In other resources a visit changes nothing that was loaded. -/
theorem content?_resolve_of_loaded (apart : other ≠ home)
    (held : set.content? other = some content) :
    (resolve scope set home pending).set.content? other = some content :=
  (content?_resolve_of_ne apart).trans (content?_supplied held)

theorem mem_queue_visit : uri ∈ (run.visit scope home pending).queue ↔
    uri ∈ run.queue ∨ (resolve scope run.set home pending).loaded = some uri := by
  unfold Run.visit
  dsimp only
  cases loaded : (resolve scope run.set home pending).loaded with
  | none => simp
  | some new =>
    unfold Run.enqueue
    dsimp only
    split
    · next waits =>
      constructor
      · exact .inl
      · rintro (member | same)
        · exact member
        · cases same
          exact waits
    · simp [eq_comm]

theorem nodup_queue_visit (once : run.queue.Nodup) :
    (run.visit scope home pending).queue.Nodup := by
  unfold Run.visit
  dsimp only
  cases (resolve scope run.set home pending).loaded with
  | none => exact once
  | some new =>
    unfold Run.enqueue
    dsimp only
    split
    · exact once
    · next fresh =>
      refine List.nodup_append.mpr ⟨once, List.nodup_singleton _, ?_⟩
      intro first member last single same
      rw [List.mem_singleton.mp single] at same
      exact fresh (same ▸ member)

/-! ### What has been settled -/

/-- The verdict was reached in a set that the run has passed through, and what it needed was
loaded before. -/
def Stands (scope : Scope) (start set : ResourceSet) (home : ResourceUri)
    (entry : Pending × Verdict) : Prop :=
  ∃ earlier, earlier.uris.Nodup ∧ start.Extends earlier ∧ earlier.isLoaded home = true ∧
    verdict scope earlier home entry.1 = entry.2 ∧ (supplied home earlier entry.1).Extends set

theorem Stands.later {entry : Pending × Verdict} (stands : Stands scope start set home entry)
    (extended : set.Extends next) : Stands scope start next home entry := by
  obtain ⟨earlier, once, before, loaded, judged, after⟩ := stands
  exact ⟨earlier, once, before, loaded, judged, after.trans extended⟩

def Attended (scope : Scope) (start set : ResourceSet) (home : ResourceUri) (rest : List Pending)
    (content : Content) : Prop :=
  ∃ before entries, start.Origin home before ∧ entries.map (·.1) ++ rest = before.pending ∧
    content = before.settleAll entries ∧ ∀ entry ∈ entries, Stands scope start set home entry

theorem attended_start (origin : start.Origin home content) :
    Attended scope start set home content.pending content :=
  ⟨content, [], origin, rfl, rfl, List.forall_mem_nil _⟩

/-- When nothing is left, all that waited has been settled. -/
theorem Attended.whole (attended : Attended scope start set home [] content) :
    ∃ before entries, start.Origin home before ∧ entries.map (·.1) = before.pending ∧
      content = before.settleAll entries ∧
      ∀ entry ∈ entries, Stands scope start set home entry := by
  obtain ⟨before, entries, origin, listed, settled, stands⟩ := attended
  rw [List.append_nil] at listed
  exact ⟨before, entries, origin, listed, settled, stands⟩

theorem Attended.later (attended : Attended scope start set home rest content)
    (extended : set.Extends next) : Attended scope start next home rest content := by
  obtain ⟨before, entries, origin, listed, settled, stands⟩ := attended
  exact ⟨before, entries, origin, listed, settled, fun entry member =>
    (stands entry member).later extended⟩

theorem Attended.visit (attended : Attended scope start set home (pending :: rest) content)
    (once : set.uris.Nodup) (extended : start.Extends set)
    (held : set.content? home = some content) :
    Attended scope start (resolve scope set home pending).set home rest
      (content.settle pending (verdict scope set home pending)) := by
  obtain ⟨before, entries, origin, listed, rfl, stands⟩ := attended
  refine ⟨before, entries ++ [(pending, verdict scope set home pending)], origin, ?_, ?_, ?_⟩
  · rw [← listed, List.map_append, List.append_assoc]
    rfl
  · rw [Content.settleAll_append]
    rfl
  · intro entry member
    rcases List.mem_append.mp member with earlier | last
    · exact (stands entry earlier).later extends_resolve
    · rw [List.mem_singleton.mp last]
      exact ⟨set, once, extended, ResourceSet.isLoaded_iff.mpr ⟨_, held⟩, rfl,
        supplied_extends_resolve⟩

/-! ### Turns -/

structure Serves (scope : Scope) (start : ResourceSet) (run : Run) : Prop where
  once : run.set.uris.Nodup
  extended : start.Extends run.set
  queue : run.queue.Nodup
  /-- What waits for its turn is as it was at first. -/
  untouched : ∀ uri ∈ run.queue, ∀ content, run.set.content? uri = some content →
    start.Origin uri content
  /-- What does not has had its turn. -/
  attended : ∀ uri ∉ run.queue, ∀ content, run.set.content? uri = some content →
    Attended scope start run.set uri [] content

structure Turn (scope : Scope) (start : ResourceSet) (home : ResourceUri) (rest : List Pending)
    (run : Run) : Prop where
  once : run.set.uris.Nodup
  extended : start.Extends run.set
  queue : run.queue.Nodup
  apart : home ∉ run.queue
  untouched : ∀ uri ∈ run.queue, ∀ content, run.set.content? uri = some content →
    start.Origin uri content
  attended : ∀ uri ∉ run.queue, uri ≠ home → ∀ content, run.set.content? uri = some content →
    Attended scope start run.set uri [] content
  own : ∃ content, run.set.content? home = some content ∧
    Attended scope start run.set home rest content

theorem Turn.visit (turn : Turn scope start home (pending :: rest) run) :
    Turn scope start home rest (run.visit scope home pending) := by
  obtain ⟨content, held, attended⟩ := turn.own
  have extended := @extends_resolve scope run.set home pending
  have others := fun {other content} (apart : other ≠ home) =>
    @content?_resolve_of_loaded scope run.set home other pending content apart
  have same := @set_visit scope home pending run
  have apart : home ∉ (run.visit scope home pending).queue := by
    intro member
    rcases mem_queue_visit.mp member with earlier | loaded
    · exact turn.apart earlier
    · rw [closed_of_loaded loaded] at held
      cases held
  refine ⟨?once, ?extended, nodup_queue_visit turn.queue, apart, ?untouched, ?attended, ?own⟩
  case once =>
    rw [same]
    exact nodup_resolve turn.once
  case extended =>
    rw [same]
    exact turn.extended.trans extended
  case untouched =>
    intro uri member after found
    rw [same] at found
    have elsewhere : uri ≠ home := fun here => apart (here ▸ member)
    cases earlier : run.set.content? uri with
    | none => exact turn.extended.origin_of_new earlier (loaded_of_new elsewhere earlier found).2
    | some before =>
      cases (others elsewhere earlier).symm.trans found
      rcases mem_queue_visit.mp member with waits | loaded
      · exact turn.untouched uri waits _ earlier
      · rw [closed_of_loaded loaded] at earlier
        cases earlier
  case attended =>
    intro uri absent elsewhere after found
    rw [same] at found ⊢
    cases earlier : run.set.content? uri with
    | none =>
      have loaded := (loaded_of_new elsewhere earlier found).1
      exact absurd (mem_queue_visit.mpr (.inr loaded)) absent
    | some before =>
      cases (others elsewhere earlier).symm.trans found
      have idle : uri ∉ run.queue := fun waits => absent (mem_queue_visit.mpr (.inl waits))
      exact (turn.attended uri idle elsewhere _ earlier).later extended
  case own =>
    rw [same]
    exact ⟨_, content?_resolve_self held, attended.visit turn.once turn.extended held⟩

theorem Turn.visits {entries : List Pending} (turn : Turn scope start home entries run) :
    Turn scope start home [] (visits scope home run entries) := by
  induction entries generalizing run with
  | nil => exact turn
  | cons pending rest ih => exact ih turn.visit

/-- What holds before a turn holds before the next one. -/
theorem Serves.turn (serves : Serves scope start run) {queue : List ResourceUri}
    (waits : run.queue = home :: queue) :
    Serves scope start (visits scope home { run with queue } (waiting run.set home)) := by
  have unique := serves.queue
  rw [waits, List.nodup_cons] at unique
  obtain ⟨apart, unique⟩ := unique
  have later : ∀ uri ∈ queue, uri ∈ run.queue := fun uri member =>
    waits ▸ List.mem_cons_of_mem _ member
  have left : ∀ {uri}, uri ∉ queue → uri ≠ home → uri ∉ run.queue := by
    intro uri absent elsewhere member
    rw [waits, List.mem_cons] at member
    exact member.elim elsewhere absent
  cases held : run.set.content? home with
  | none =>
    rw [waiting_of_closed held]
    refine ⟨serves.once, serves.extended, unique,
      fun uri member => serves.untouched uri (later uri member), ?_⟩
    intro uri absent content found
    have elsewhere : uri ≠ home := by
      rintro rfl
      exact nomatch held.symm.trans found
    exact serves.attended uri (left absent elsewhere) content found
  | some content =>
    rw [waiting_eq held]
    have origin := serves.untouched home (by simp [waits]) content held
    have begun : Turn scope start home content.pending { run with queue } :=
      ⟨serves.once, serves.extended, unique, apart,
        fun uri member => serves.untouched uri (later uri member),
        fun uri absent elsewhere => serves.attended uri (left absent elsewhere),
        content, held, attended_start origin⟩
    have ended := begun.visits
    refine ⟨ended.once, ended.extended, ended.queue, ended.untouched, ?_⟩
    intro uri absent content found
    by_cases here : uri = home
    · subst here
      obtain ⟨_, own, attended⟩ := ended.own
      cases own.symm.trans found
      exact attended
    · exact ended.attended uri absent here content found

/-! ### Whole runs -/

theorem serves_start (once : set.uris.Nodup) : Serves scope set (.start set) where
  once := once
  extended := .refl set
  queue := once
  untouched _ _ _ held := .inl held
  attended uri absent content held := by
    obtain ⟨resource, found, _⟩ := Option.bind_eq_some_iff.mp held
    have member : uri ∈ set.uris := by
      rw [← ResourceSet.uri_of_get? found]
      exact List.mem_map_of_mem (ResourceSet.mem_of_get? found)
    exact absurd member absent

/-- A turn of a run that is never stopped. -/
theorem runWithin_never {queue : List ResourceUri} (waits : run.queue = home :: queue)
    (bound : Nat) :
    Run.runWithin scope (fun _ => false) (bound + 1) run =
      Run.runWithin scope (fun _ => false) bound
        (visits scope home { run with queue } (waiting run.set home)) := by
  have all := @visitAll_free scope (fun _ => false) home { run with queue } (waiting run.set home)
    fun _ _ => rfl
  rw [runWithin_of_waiting waits rfl, all]

def Served (scope : Scope) (start set : ResourceSet) : Prop :=
  ∀ {uri content}, set.content? uri = some content → Attended scope start set uri [] content

theorem served_runWithin (once : set.uris.Nodup) {stop : Progress → Bool} {bound : Nat} {last : Run}
    (finished : Run.runWithin scope stop bound (.start set) = (last, .finished)) :
    last.set.uris.Nodup ∧ set.Extends last.set ∧ Served scope set last.set := by
  obtain ⟨serves, empty⟩ := runWithin_finished (fun serves waits => serves.turn waits)
    (serves_start once) finished
  exact ⟨serves.once, serves.extended, fun held => serves.attended _ (by simp [empty]) _ held⟩

end Linking

end Crosslink
