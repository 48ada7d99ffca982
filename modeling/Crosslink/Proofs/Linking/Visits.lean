import Crosslink.Linking.Run
import Crosslink.Proofs.Resource.Views
import Crosslink.Proofs.ResourceSet.Loading

/-! One visit of an open reference, and runs of visits.

All that a visit can do is said once: it passes the reference over, reports it,
or binds it to a candidate that exists and fits. What every visit keeps is kept
by every run, however long it goes on.
-/

set_option autoImplicit false

namespace Crosslink

namespace Linking

variable {scope : Scope} {set next : ResourceSet} {home other : ResourceUri} {pending : Pending}
  {site : Site} {feature : Feature} {target : Uri} {warning : Option Diagnostic}

def waiting (set : ResourceSet) (home : ResourceUri) : List Pending :=
  ((set.get? home).map Resource.pending).getD []

theorem waiting_eq {content : Content} (held : set.content? home = some content) :
    waiting set home = content.pending := by
  obtain ⟨resource, found, filled⟩ := Option.bind_eq_some_iff.mp held
  simp [waiting, found, Resource.pending, filled]

theorem waiting_of_closed (closed : set.content? home = none) : waiting set home = [] := by
  unfold waiting Resource.pending
  cases found : set.get? home with
  | none => rfl
  | some resource =>
    have empty : resource.content = none := by simpa [ResourceSet.content?, found] using closed
    simp [empty]

-- A reference is resolved from its node, if that node and its feature exist.
theorem context?_eq_some_iff : context? set home pending = some (site, feature) ↔
    ∃ content, set.content? home = some content ∧ site = ⟨home, content.tree, pending.source⟩ ∧
      content.tree.feature? pending.source pending.feature = some feature := by
  unfold context? ResourceSet.content? Resource.site? Resource.tree?
  cases found : set.get? home with
  | none => simp
  | some resource =>
    have named := ResourceSet.uri_of_get? found
    simp only [Option.bind_some, named]
    cases resource.content with
    | none => simp
    | some content =>
      simp only [Option.map_some, Option.bind_some, Option.some.injEq, exists_eq_left', Site.at?]
      constructor
      · intro done
        split at done
        · obtain ⟨found, declared, same⟩ := Option.map_eq_some_iff.mp done
          cases same
          exact ⟨rfl, declared⟩
        · cases done
      · rintro ⟨rfl, declared⟩
        rw [if_pos (Tree.contains_of_feature? declared), Option.bind_some]
        exact Option.map_eq_some_iff.mpr ⟨feature, declared, rfl⟩

theorem context?_of_shape (same : (next.content? home).map (·.tree.shape) =
      (set.content? home).map (·.tree.shape))
    (here : context? set home pending = some (site, feature)) :
    ∃ tree, tree.shape = site.tree.shape ∧
      context? next home pending = some ({ site with tree }, feature) := by
  obtain ⟨content, held, rfl, declared⟩ := context?_eq_some_iff.mp here
  obtain ⟨content', held', same⟩ := ResourceSet.content_of_shape same held
  rw [← Tree.feature?_of_shape same] at declared
  exact ⟨_, same, context?_eq_some_iff.mpr ⟨content', held', rfl, declared⟩⟩

theorem context?_of_alike (alike : set.Alike next)
    (here : context? set home pending = some (site, feature)) :
    ∃ after, context? next home pending = some (after, feature) := by
  obtain ⟨_, _, there⟩ := context?_of_shape (alike home) here
  exact ⟨_, there⟩

theorem conforms_iff : conforms set feature target = true ↔
    ∃ site, set.node? target = some site ∧ site.fits feature = true := by
  unfold conforms
  cases set.node? target <;> simp

theorem conforms_of_shape (same : (next.content? target.resource).map (·.tree.shape) =
      (set.content? target.resource).map (·.tree.shape)) :
    conforms next feature target = conforms set feature target := by
  have forth : ∀ {first second : ResourceSet},
      (second.content? target.resource).map (·.tree.shape) =
        (first.content? target.resource).map (·.tree.shape) →
        conforms first feature target = true → conforms second feature target = true := by
    intro first second same fits
    obtain ⟨site, found, fits⟩ := conforms_iff.mp fits
    obtain ⟨after, leads, _, node, same⟩ := ResourceSet.node?_of_shape same found
    exact conforms_iff.mpr ⟨after, leads, (Site.fits_of_shape same node).trans fits⟩
  exact Bool.eq_iff_iff.mpr ⟨forth same.symm, forth same⟩

theorem conforms_of_alike (alike : set.Alike next) :
    conforms next feature target = conforms set feature target :=
  conforms_of_shape (alike target.resource)

/-! ### One visit -/

/-- All that the visit of a reference can leave behind. -/
inductive Resolves (scope : Scope) (set : ResourceSet) (home : ResourceUri) (pending : Pending) :
    ResourceSet → Prop where
  | passed (lost : context? set home pending = none) : Resolves scope set home pending set
  | reported {site : Site} {feature : Feature} {found : Resolution} {uris : List Uri}
      (here : context? set home pending = some (site, feature))
      (asked : candidates scope set home site feature pending.proxy = (found, uris))
      (fruitless : ∀ uri ∈ uris, conforms found.set feature uri = false) :
      Resolves scope set home pending (reportAt found.set home pending.slot
        (unresolvedError site feature pending.proxy))
  | bound {site : Site} {feature : Feature} {found : Resolution} {uris : List Uri} {target : Uri}
      {warning : Option Diagnostic}
      (here : context? set home pending = some (site, feature))
      (asked : candidates scope set home site feature pending.proxy = (found, uris))
      (member : target ∈ uris)
      (fits : conforms found.set feature target = true)
      (warns : ∀ diagnostic ∈ warning,
        ∃ count, diagnostic = ambiguityWarning site feature pending.proxy count target) :
      Resolves scope set home pending (bindAt found.set home pending target warning)

theorem resolves (scope : Scope) (set : ResourceSet) (home : ResourceUri) (pending : Pending) :
    Resolves scope set home pending (resolve scope set home pending).set := by
  unfold resolve
  split
  · next lost => exact .passed lost
  · next site feature here =>
    cases asked : candidates scope set home site feature pending.proxy with
    | mk found uris =>
      simp only
      split
      · next fruitless =>
        refine .reported here asked fun uri member => ?_
        simpa using List.filter_eq_nil_iff.mp fruitless uri member
      · next target others listed =>
        have chosen : target ∈ uris.filter (conforms found.set feature) := by simp [listed]
        obtain ⟨member, fits⟩ := List.mem_filter.mp chosen
        refine .bound here asked member fits fun diagnostic warned => ?_
        split at warned
        · cases warned
        · cases warned
          exact ⟨_, rfl⟩

theorem content?_reportAt (slot : SlotKey) (diagnostic : Diagnostic) (other : ResourceUri) :
    (reportAt set home slot diagnostic).content? other =
      if other = home then (set.content? other).map (·.report slot diagnostic)
      else set.content? other := by
  unfold reportAt ResourceSet.content?
  rw [ResourceSet.get?_modify]
  · split
    · cases set.get? other <;> rfl
    · rfl
  · exact fun resource named => named

theorem content?_bindAt (other : ResourceUri) :
    (bindAt set home pending target warning).content? other =
      if other = home then
        (set.content? other).map fun content => (content.bind? pending target warning).getD content
      else set.content? other :=
  ResourceSet.content?_modify_update (·.bind? pending target warning) other

theorem candidates_uri (target : Uri) : candidates scope set home site feature (.uri target) =
    ({ set := (set.ensureLoaded target.resource).1
       loaded :=
        if !set.isLoaded target.resource && (set.ensureLoaded target.resource).2.isOk then
          some target.resource
        else none }, [target]) := rfl

/-- The set in which a name is looked up: the name is noted. -/
def noted (set : ResourceSet) (home : ResourceUri) (name : QualifiedName) : ResourceSet :=
  set.modify home (·.update (·.importName? name))

theorem content?_noted {content : Content} (name : QualifiedName)
    (held : set.content? other = some content) :
    ∃ names, (noted set home name).content? other =
      some { content with importedNames := names } := by
  unfold noted
  rw [ResourceSet.content?_modify_update, held]
  split
  · cases changed : content.importName? name with
    | none => exact ⟨content.importedNames, by simp [changed]⟩
    | some after => exact ⟨_, by simp [changed, Content.importName?_eq_some changed]; rfl⟩
  · exact ⟨content.importedNames, rfl⟩

-- Looking for candidates leaves every loaded resource as it is, but for a name that is noted. What
-- is loaded on the way was not loaded before.
theorem content?_candidates {content : Content} {found : Resolution} {uris : List Uri}
    (asked : candidates scope set home site feature pending.proxy = (found, uris))
    (held : set.content? other = some content) :
    ∃ names, found.set.content? other = some { content with importedNames := names } := by
  cases waits : pending.proxy with
  | uri target =>
    rw [waits] at asked
    cases asked
    exact ⟨content.importedNames, ResourceSet.content?_ensureLoaded held⟩
  | name name =>
    rw [waits] at asked
    cases asked
    exact content?_noted name held

/-! ### Runs -/

def visits (scope : Scope) (home : ResourceUri) (run : Run) (entries : List Pending) : Run :=
  entries.foldl (fun run pending => run.visit scope home pending) run

@[simp] theorem set_visit (run : Run) : (run.visit scope home pending).set =
    (resolve scope run.set home pending).set := by
  unfold Run.visit Run.enqueue
  dsimp only
  split
  · split <;> rfl
  · rfl

/-- What each visit of a reference in a list keeps holds after any number of them. -/
theorem visits_induction {motive : ResourceSet → List Pending → Prop}
    (step : ∀ {set pending rest}, motive set (pending :: rest) →
      motive (resolve scope set home pending).set rest)
    (run : Run) (entries rest : List Pending) (start : motive run.set (entries ++ rest)) :
    motive (visits scope home run entries).set rest := by
  induction entries generalizing run with
  | nil => exact start
  | cons pending entries ih =>
    apply ih
    rw [set_visit]
    exact step start

/-- A turn visits what waits, up to where it is stopped. -/
theorem exists_visits (stop : Progress → Bool) (run : Run) (entries : List Pending) :
    ∃ first rest, entries = first ++ rest ∧
      Run.visitAll scope stop home run entries = (visits scope home run first, !rest.isEmpty) := by
  induction entries generalizing run with
  | nil => exact ⟨[], [], rfl, rfl⟩
  | cons pending entries ih =>
    unfold Run.visitAll
    split
    · exact ⟨[], pending :: entries, rfl, rfl⟩
    · obtain ⟨first, rest, rfl, same⟩ := ih (run.visit scope home pending)
      exact ⟨pending :: first, rest, rfl, same⟩

/-- A run is at the turn of a resource, or in the middle of it. What whole turns keep holds
before each turn, and what then holds in the middle of every turn holds where the run ends. -/
theorem runWithin_induction {motive : Run → Prop} {goal : ResourceSet → Prop}
    {stop : Progress → Bool} (ends : ∀ {run}, motive run → goal run.set)
    (stops : ∀ {run : Run} {home queue first rest}, motive run → run.queue = home :: queue →
      waiting run.set home = first ++ rest → goal (visits scope home { run with queue } first).set)
    (turns : ∀ {run : Run} {home queue}, motive run → run.queue = home :: queue →
      motive (visits scope home { run with queue } (waiting run.set home)))
    (bound : Nat) (run : Run) (start : motive run) :
    goal (Run.runWithin scope stop bound run).1.set := by
  induction bound generalizing run with
  | zero => exact ends start
  | succ bound ih =>
    unfold Run.runWithin
    split
    · exact ends start
    · next home queue waits =>
      obtain ⟨first, rest, cut, same⟩ :=
        @exists_visits scope home stop { run with queue } (waiting run.set home)
      have stopped := stops start waits cut
      have turned := turns start waits
      unfold waiting at same
      dsimp only
      rw [same]
      cases rest with
      | nil =>
        rw [cut, List.append_nil] at turned
        exact ih _ turned
      | cons pending rest => exact stopped

/-- When a run has finished, every turn was a whole one, and no resource waits for its turn. -/
theorem runWithin_finished {motive : Run → Prop} {stop : Progress → Bool}
    (turns : ∀ {run : Run} {home queue}, motive run → run.queue = home :: queue →
      motive (visits scope home { run with queue } (waiting run.set home)))
    {bound : Nat} {run last : Run} (start : motive run)
    (finished : Run.runWithin scope stop bound run = (last, .finished)) :
    motive last ∧ last.queue = [] := by
  induction bound generalizing run with
  | zero =>
    unfold Run.runWithin at finished
    split at finished
    · next empty =>
      cases finished
      exact ⟨start, List.isEmpty_iff.mp empty⟩
    · cases finished
  | succ bound ih =>
    cases waits : run.queue with
    | nil =>
      rw [Run.runWithin, waits] at finished
      cases finished
      exact ⟨start, waits⟩
    | cons home queue =>
      obtain ⟨first, rest, cut, same⟩ :=
        @exists_visits scope home stop { run with queue } (waiting run.set home)
      have turned := turns start waits
      unfold waiting at same
      rw [Run.runWithin, waits] at finished
      dsimp only at finished
      rw [same] at finished
      cases rest with
      | nil =>
        rw [cut, List.append_nil] at turned
        exact ih turned finished
      | cons pending rest => cases finished

theorem link_of_run {stop : Progress → Bool} {run : Run} {ending : Ending}
    (ran : Run.runWithin scope stop (visitBound set) (.start set) = (run, ending)) :
    (link scope stop set).1 = run.set ∧ (link scope stop set).2.bound = run.progress.bound ∧
      (link scope stop set).2.ending = ending := by
  unfold link
  rw [ran]
  exact ⟨rfl, rfl, rfl⟩

/-- What is left of a set by a run of so many turns at most. -/
def linkWithin (scope : Scope) (stop : Progress → Bool) (turns : Nat) (set : ResourceSet) :
    ResourceSet := (Run.runWithin scope stop turns (.start set)).1.set

theorem fst_link (scope : Scope) (stop : Progress → Bool) (set : ResourceSet) :
    (link scope stop set).1 = linkWithin scope stop (visitBound set) set := rfl

/-- What every visit keeps is kept by linking, however many turns it takes. What is known of the
references of a resource when its turn comes may go into it, as far as it stays true of those that
are left. -/
theorem linkWithin_induction {motive : ResourceSet → Prop}
    {ready : ResourceUri → ResourceSet → List Pending → Prop} {stop : Progress → Bool}
    (turn : ∀ {set home}, motive set → ready home set (waiting set home))
    (step : ∀ {set home pending rest}, motive set → ready home set (pending :: rest) →
      motive (resolve scope set home pending).set ∧
        ready home (resolve scope set home pending).set rest)
    (turns : Nat) (start : motive set) : motive (linkWithin scope stop turns set) := by
  have middle : ∀ {run : Run} {home queue first rest}, motive run.set →
      waiting run.set home = first ++ rest →
        motive (visits scope home { run with queue } first).set := by
    intro run home queue first rest held cut
    have listed := cut ▸ @turn run.set home held
    exact (@visits_induction scope home (fun after entries => motive after ∧ ready home after entries)
      (fun both => step both.1 both.2) { run with queue } first rest ⟨held, listed⟩).1
  exact @runWithin_induction scope (fun run => motive run.set) motive stop (fun held => held)
    (fun held _ cut => middle held cut)
    (fun held _ => middle held (List.append_nil _).symm) turns (.start set) start

end Linking

end Crosslink
