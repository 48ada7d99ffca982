import Crosslink.Proofs.Linking.Keeping

/-! Runs that are stopped right behind one visit.

Where nothing can be had from a loader, a run visits what waited at its start,
resource by resource. Whatever waits can thus be made the last that a run
visits, by asking the run to stop after so many visits.
-/

set_option autoImplicit false

namespace Crosslink

namespace Linking

variable {scope : Scope} {stop : Progress → Bool} {set : ResourceSet} {home other : ResourceUri}
  {pending : Pending} {run : Run} {bound : Nat}

/-! ### Where a run stops -/

theorem visited_visits (entries : List Pending) :
    (visits scope home run entries).progress.visited = run.progress.visited + entries.length := by
  induction entries generalizing run with
  | nil => rfl
  | cons pending rest ih =>
    have counted : (run.visit scope home pending).progress.visited = run.progress.visited + 1 := by
      unfold Run.visit Run.enqueue
      dsimp only
      split
      · split <;> rfl
      · rfl
    rw [visits, List.foldl_cons, ← visits, ih, counted, List.length_cons]
    omega

theorem visitAll_append {first rest : List Pending}
    (free : ∀ progress : Progress, progress.visited < run.progress.visited + first.length →
      stop progress = false) :
    Run.visitAll scope stop home run (first ++ rest) =
      Run.visitAll scope stop home (visits scope home run first) rest := by
  induction first generalizing run with
  | nil => rfl
  | cons pending first ih =>
    have counted := @visited_visits scope home run [pending]
    rw [visits, List.foldl_cons, List.foldl_nil, List.length_singleton] at counted
    rw [List.length_cons] at free
    rw [List.cons_append, Run.visitAll, free run.progress (by omega)]
    rw [if_neg (by decide), ih fun progress early => free progress (by omega)]
    rfl

theorem visitAll_free {entries : List Pending}
    (free : ∀ progress : Progress, progress.visited < run.progress.visited + entries.length →
      stop progress = false) :
    Run.visitAll scope stop home run entries = (visits scope home run entries, false) := by
  have whole := @visitAll_append scope stop home run entries [] free
  rwa [List.append_nil] at whole

theorem visitAll_stopped (stopped : stop run.progress = true) (entries : List Pending) :
    (Run.visitAll scope stop home run entries).1 = run := by
  cases entries with
  | nil => rfl
  | cons pending rest => rw [Run.visitAll, if_pos stopped]

theorem runWithin_of_waiting {queue : List ResourceUri} {entries : List Pending}
    (turn : run.queue = home :: queue) (waits : waiting run.set home = entries) :
    Run.runWithin scope stop (bound + 1) run =
      match Run.visitAll scope stop home { run with queue } entries with
      | (last, true) => (last, .cancelled)
      | (last, false) => Run.runWithin scope stop bound last := by
  rw [← waits, Run.runWithin, turn]
  rfl

theorem runWithin_turn {queue : List ResourceUri} (turn : run.queue = home :: queue) (bound : Nat)
    {last : Run} {ended : Bool}
    (visited : Run.visitAll scope stop home { run with queue } (waiting run.set home) = (last, ended)) :
    (Run.runWithin scope stop (bound + 1) run).1 =
      if ended then last else (Run.runWithin scope stop bound last).1 := by
  rw [runWithin_of_waiting turn rfl, visited]
  cases ended <;> rfl

theorem runWithin_stopped (stopped : stop run.progress = true) (bound : Nat) :
    (Run.runWithin scope stop bound run).1.set = run.set := by
  induction bound generalizing run with
  | zero => rfl
  | succ bound ih =>
    cases waits : run.queue with
    | nil => rw [Run.runWithin, waits]
    | cons home queue =>
      have same := @visitAll_stopped scope stop home { run with queue } stopped
        (waiting run.set home)
      rw [runWithin_turn waits bound (Prod.eta _).symm, same]
      split
      · rfl
      · exact ih stopped

-- Where the turn of a resource ends with a stop, the run ends.
theorem runWithin_of_turn {queue : List ResourceUri} (turn : run.queue = home :: queue) (bound : Nat)
    {last : Run}
    (visited : (Run.visitAll scope stop home { run with queue } (waiting run.set home)).1 = last)
    (stopped : stop last.progress = true) :
    (Run.runWithin scope stop (bound + 1) run).1.set = last.set := by
  rw [runWithin_turn turn bound (Prod.eta _).symm, visited]
  split
  · rfl
  · exact runWithin_stopped stopped bound

/-! ### Turns that load nothing -/

theorem queue_visit_of_idle (idle : Idle run.set home pending) :
    (run.visit scope home pending).queue = run.queue := by
  unfold Run.visit
  dsimp only
  rw [loaded_of_idle idle]

/-- What visits leave as it was when none of them loads anything. -/
structure Continues (home : ResourceUri) (run later : Run) : Prop where
  twins : run.set.Twins later.set
  queue : later.queue = run.queue
  others : ∀ other ≠ home, later.set.content? other = run.set.content? other

theorem continues_visit (idle : Idle run.set home pending) :
    Continues home run (run.visit scope home pending) where
  twins := by
    rw [set_visit]
    exact twins_resolve_of_idle idle
  queue := queue_visit_of_idle idle
  others other apart := by
    rw [set_visit]
    exact content?_resolve_of_idle idle apart

theorem Continues.trans {later last : Run} (first : Continues home run later)
    (second : Continues home later last) : Continues home run last where
  twins := first.twins.trans second.twins
  queue := second.queue.trans first.queue
  others other apart := (second.others other apart).trans (first.others other apart)

theorem continues_visits {entries : List Pending}
    (idle : ∀ pending ∈ entries, Idle run.set home pending) :
    Continues home run (visits scope home run entries) := by
  induction entries generalizing run with
  | nil => exact ⟨.refl run.set, rfl, fun _ _ => rfl⟩
  | cons pending rest ih =>
    have first := @continues_visit scope home pending run (idle pending List.mem_cons_self)
    refine first.trans (ih fun later member => ?_)
    exact (idle later (List.mem_cons_of_mem _ member)).of_twins first.twins

structure Arrives (home : ResourceUri) (run later : Run) : Prop where
  twins : run.set.Twins later.set
  queue : ∃ rest, later.queue = home :: rest
  content : later.set.content? home = run.set.content? home
  visited : run.progress.visited ≤ later.progress.visited

/-- The turn of every resource that waits comes, if the run is not stopped before. -/
theorem exists_arrives (bare : run.set.loader = none) (queued : home ∈ run.queue)
    (enough : run.queue.length ≤ bound) : ∃ later left, Arrives home run later ∧
      ∀ stop : Progress → Bool,
        (∀ progress : Progress, progress.visited < later.progress.visited →
          stop progress = false) →
        Run.runWithin scope stop bound run = Run.runWithin scope stop (left + 1) later := by
  -- the bound falls with each turn, and so does the queue, since nothing is loaded
  induction bound generalizing run with
  | zero =>
    rw [List.eq_nil_of_length_eq_zero (Nat.le_zero.mp enough)] at queued
    cases queued
  | succ bound ih =>
    cases waits : run.queue with
    | nil =>
      rw [waits] at queued
      cases queued
    | cons first queue =>
      by_cases here : home = first
      · subst here
        exact ⟨run, bound, ⟨.refl run.set, ⟨queue, waits⟩, rfl, Nat.le_refl _⟩, fun _ _ => rfl⟩
      · -- the first resource has its turn, and what is left of the queue holds `home`
        rw [waits] at queued enough
        have turn := @continues_visits scope first { run with queue } (waiting run.set first)
          fun _ _ => idle_of_bare bare
        have counted := @visited_visits scope first { run with queue } (waiting run.set first)
        obtain ⟨later, left, arrives, same⟩ := ih (turn.twins.loader.trans bare)
          (by simpa [turn.queue, here] using queued)
          (by simpa [turn.queue] using enough)
        have further := arrives.visited
        refine ⟨later, left, ⟨turn.twins.trans arrives.twins, arrives.queue,
          arrives.content.trans (turn.others home here), ?_⟩, ?_⟩
        · dsimp only at counted
          omega
        · intro stop free
          rw [← same stop free, Run.runWithin, waits]
          dsimp only
          have all := @visitAll_free scope stop first { run with queue } (waiting run.set first)
            fun progress early => free progress (by omega)
          unfold waiting at all
          rw [all]
          rfl

end Linking

end Crosslink
