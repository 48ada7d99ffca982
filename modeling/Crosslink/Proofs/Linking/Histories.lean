import Crosslink.Proofs.Linking.Searching
import Crosslink.Proofs.Linking.Simultaneous
import Crosslink.Proofs.Resource.Underway

/-! Histories of a set of files.

Files are read, unloaded and linked, and linking may be stopped. All the time, each reference of
what is loaded waits, or has the verdict that it has where all files are loaded. Once all are, and
give these verdicts, a run that is not stopped leaves nothing that the history could be told from.
-/

set_option autoImplicit false

namespace Crosslink.Linking

abbrev TextFile := ResourceUri × String

inductive Event where
  | load (file : TextFile)
  | unload (uri : ResourceUri)
  | link (stop : Progress → Bool)

def Event.apply (naming : Naming) (set : ResourceSet) : Event → ResourceSet
  | .load (uri, text) => (set.load uri text).1
  | .unload uri => (set.unload uri).1
  | .link stop => (Linking.link (globalScope naming) stop set).1

def Event.linkAll : Event := .link fun _ => false

def replay (naming : Naming) (set : ResourceSet) (events : List Event) : ResourceSet :=
  events.foldl (Event.apply naming) set

def blank (registry : Registry) : ResourceSet :=
  { registry, languages := ({} : Languages).register Types.language }

variable {naming : Naming} {files : List TextFile} {whole set : ResourceSet} {uri : ResourceUri}
  {start content : Content} {pending : Pending}

theorem replay_append (set : ResourceSet) (first rest : List Event) :
    replay naming set (first ++ rest) = replay naming (replay naming set first) rest :=
  List.foldl_append

theorem inStep_apply (inStep : set.InStep naming) (event : Event) :
    (event.apply naming set).InStep naming := by
  cases event with
  | load file => exact inStep.load file.1 file.2
  | unload uri => exact inStep.unload uri
  | link stop => exact inStep_link inStep stop

theorem inStep_replay (inStep : set.InStep naming) (events : List Event) :
    (replay naming set events).InStep naming := by
  induction events generalizing set with
  | nil => exact inStep
  | cons event rest ih => exact ih (inStep_apply inStep event)

theorem inStep_blank (registry : Registry) : (blank registry).InStep naming :=
  inStep_of_reached (.start registry)

/-- Linking changes references only, wherever it is stopped. -/
theorem shape_link (ignores : naming.IgnoresReferences) (inStep : set.InStep naming)
    (stop : Progress → Bool) :
    (link (globalScope naming) stop set).1.shape = set.shape := by
  have ready := ready_of_inStep inStep
  obtain ⟨_, yields⟩ := exists_yields (globalScope_ignoresReferences ignores) ready.once
    (complete_of_addressesLoaded ready.loaded) stop
  exact yields.shape

/-! ### All files, as they were read -/

/-- All files have been read, as far as their language is known, and nothing has been linked. -/
structure Gathered (naming : Naming) (files : List TextFile) (whole : ResourceSet) : Prop where
  inStep : whole.InStep naming
  read : ∀ file ∈ files, whole.content? file.1 = whole.reading? file.1 file.2
  only : ∀ {uri content}, whole.content? uri = some content → ∃ text, (uri, text) ∈ files

theorem content?_loadAll (distinct : (files.map Prod.fst).Nodup)
    (closed : ∀ file ∈ files, set.isLoaded file.1 = false) :
    (∀ uri, (replay naming set (files.map .load)).language? uri = set.language? uri) ∧
      (∀ file ∈ files, (replay naming set (files.map .load)).content? file.1 =
        set.reading? file.1 file.2) ∧
      ∀ uri, uri ∉ files.map Prod.fst →
        (replay naming set (files.map .load)).content? uri = set.content? uri := by
  induction files generalizing set with
  | nil => exact ⟨fun _ => rfl, nofun, fun _ _ => rfl⟩
  | cons first rest ih =>
    obtain ⟨uri, text⟩ := first
    obtain ⟨apart, distinct⟩ := List.nodup_cons.mp distinct
    have fills := ResourceSet.fills_load (closed (uri, text) List.mem_cons_self) text
    have elsewhere : ∀ file ∈ rest, file.1 ≠ uri := fun file member same =>
      apart (List.mem_map.mpr ⟨file, member, same⟩)
    have later : ∀ file ∈ rest, (set.load uri text).1.isLoaded file.1 = false := by
      intro file member
      have open_ := closed file (List.mem_cons_of_mem _ member)
      rw [Bool.eq_false_iff, ne_eq, ResourceSet.isLoaded_iff,
        fills.others file.1 (elsewhere file member), ← ResourceSet.isLoaded_iff, open_]
      exact Bool.false_ne_true
    obtain ⟨languages, read, others⟩ := ih distinct later
    refine ⟨fun other => (languages other).trans (fills.languages other), ?_, ?_⟩
    · intro file member
      rcases List.mem_cons.mp member with rfl | member
      · exact (others uri apart).trans fills.own
      · have same := ResourceSet.reading?_of_languages fills.languages
        exact (read file member).trans (by rw [same])
    · intro other absent
      obtain ⟨away, absent⟩ := not_or.mp (List.mem_cons.not.mp absent)
      exact (others other absent).trans (fills.others other away)

theorem gathered (distinct : (files.map Prod.fst).Nodup) (registry : Registry) :
    Gathered naming files (replay naming (blank registry) (files.map .load)) := by
  obtain ⟨languages, read, others⟩ :=
    @content?_loadAll naming files (blank registry) distinct fun _ _ => rfl
  refine ⟨inStep_replay (inStep_blank registry) _, fun file member => ?_,
    fun {uri content} held => ?_⟩
  · rw [read file member, ResourceSet.reading?_of_languages languages]
  · by_contra absent
    rw [others uri fun member => absent ?_] at held
    · cases held
    · obtain ⟨⟨_, text⟩, listed, rfl⟩ := List.mem_map.mp member
      exact ⟨text, listed⟩

namespace Gathered

variable (gathered : Gathered naming files whole)
include gathered

theorem content_eq (held : whole.content? uri = some start) {text : String}
    (listed : (uri, text) ∈ files) : start = .ofParsed (Types.parse text) (some (.ofText text)) := by
  have read := (gathered.read _ listed).symm.trans held
  obtain ⟨own, known, rfl⟩ := Option.map_eq_some_iff.mp read
  rw [ResourceSet.language_of_speaks gathered.inStep.speaks known]
  rfl

theorem fresh (held : whole.content? uri = some start) : start.Fresh := by
  obtain ⟨text, listed⟩ := gathered.only held
  rw [gathered.content_eq held listed]
  exact Content.fresh_of_parse text _

/-- Each reference is bound there, or nothing is found for it. -/
theorem told (ignores : naming.IgnoresReferences) (held : whole.content? uri = some start) :
    ∀ pending ∈ start.pending, verdict (globalScope naming) whole uri pending ≠ .passed := by
  intro pending waits
  obtain ⟨site, feature, _, judged⟩ := verdict_of_ready (globalScope_ignoresReferences ignores)
    (ready_of_inStep gathered.inStep) held waits
  rw [judged]
  cases fitting (globalScope naming) whole uri pending <;> exact nofun

end Gathered

/-! ### On the way -/

/-- What is loaded are files of the whole. Each of its references waits, or has its verdict. -/
structure Toward (naming : Naming) (whole set : ResourceSet) : Prop where
  inStep : set.InStep naming
  languages : ∀ uri, set.language? uri = whole.language? uri
  contents : ∀ {uri content}, set.content? uri = some content →
    ∃ start, whole.content? uri = some start ∧
      start.Underway (verdict (globalScope naming) whole uri) content

theorem Gathered.toward (gathered : Gathered naming files whole) : Toward naming whole whole where
  inStep := gathered.inStep
  languages _ := rfl
  contents held := ⟨_, held, (gathered.fresh held).underway _⟩

namespace Toward

variable (toward : Toward naming whole set) (gathered : Gathered naming files whole)

section
include toward

theorem part : Part set whole := by
  intro uri content held
  obtain ⟨start, first, underway⟩ := toward.contents held
  rw [first, Option.map_some, underway.shape]

/-- As soon as all files are loaded, they differ in references only. -/
theorem alike (loaded : ∀ {uri}, whole.isLoaded uri = true → set.isLoaded uri = true) :
    whole.Alike set := by
  intro uri
  cases held : set.content? uri with
  | some content => rw [← held, toward.part.shape held]
  | none =>
    cases first : whole.content? uri with
    | none => rfl
    | some start =>
      obtain ⟨content, held'⟩ :=
        ResourceSet.isLoaded_iff.mp (loaded (ResourceSet.isLoaded_iff.mpr ⟨start, first⟩))
      cases held.symm.trans held'

/-- What waits has a name. -/
theorem name_of_waits (held : set.content? uri = some content) (waits : pending ∈ content.pending) :
    ∃ name, pending.proxy = .name name :=
  (toward.inStep.sound held).name_of_waits waits

end

include toward gathered

-- In all other resources what is bound to the one that changes is opened.
theorem demoted {other : ResourceUri} {after : Content} (held : ((set.content? uri).map fun content =>
      (content.demote? other).getD content) = some after) :
    ∃ start, whole.content? uri = some start ∧
      start.Underway (verdict (globalScope naming) whole uri) after := by
  obtain ⟨before, held', rfl⟩ := Option.map_eq_some_iff.mp held
  obtain ⟨start, first, underway⟩ := toward.contents held'
  exact ⟨start, first, underway.demoted (gathered.fresh first) other⟩

-- A file that is loaded may be read again, which is the same as if it were read for the first time.
theorem own_load {text : String} (listed : (uri, text) ∈ files) :
    set.isLoaded uri = true ∧ (set.load uri text).1.content? uri = set.content? uri ∨
      (set.load uri text).1.content? uri = whole.content? uri := by
  cases loaded : set.isLoaded uri with
  | false =>
    right
    rw [(ResourceSet.fills_load loaded text).own, gathered.read _ listed,
      ResourceSet.reading?_of_languages toward.languages]
  | true =>
    rcases toward.inStep.speaks.load uri text with same | ⟨_, own⟩
    · rw [same]
      exact .inl ⟨rfl, rfl⟩
    · right
      obtain ⟨before, held⟩ := ResourceSet.isLoaded_iff.mp loaded
      obtain ⟨start, first, _⟩ := toward.contents held
      rw [own, first, gathered.content_eq first listed]

theorem load {text : String} (listed : (uri, text) ∈ files) :
    Toward naming whole (set.load uri text).1 where
  inStep := toward.inStep.load uri text
  languages other := (ResourceSet.language?_load uri text other).trans (toward.languages other)
  contents {other content} held := by
    by_cases here : other = uri
    · subst here
      rcases toward.own_load gathered listed with ⟨_, same⟩ | same
      · exact toward.contents (same ▸ held)
      · exact gathered.toward.contents (same ▸ held)
    · rw [toward.inStep.others_load text here] at held
      exact toward.demoted gathered held

theorem unload (uri : ResourceUri) : Toward naming whole (set.unload uri).1 where
  inStep := toward.inStep.unload uri
  languages other := (ResourceSet.language?_unload uri other).trans (toward.languages other)
  contents {other content} held := by
    cases present : set.contains uri with
    | true =>
      rw [ResourceSet.content?_unload present] at held
      split at held
      · cases held
      · exact toward.demoted gathered held
    | false =>
      rw [ResourceSet.unload_of_absent present] at held
      exact toward.contents held

/-- Linking that finds nothing for a reference leaves it as it is; what it binds has to have its
verdict. -/
theorem link (ignores : naming.IgnoresReferences)
    (like : ∀ {uri content}, set.content? uri = some content → ∀ pending ∈ content.pending,
      verdict (globalScope naming) set uri pending = verdict (globalScope naming) whole uri pending ∨
        ∃ error, verdict (globalScope naming) set uri pending = .kept error)
    (stop : Progress → Bool) :
    Toward naming whole (Linking.link (globalScope naming) stop set).1 := by
  have ready := ready_of_inStep toward.inStep
  obtain ⟨count, yields⟩ := exists_yields (globalScope_ignoresReferences ignores) ready.once
    (complete_of_addressesLoaded ready.loaded) stop
  refine ⟨inStep_link toward.inStep stop, fun uri => ?languages, fun {uri content} held => ?contents⟩
  case languages =>
    exact ((ResourceSet.twins_of_shape yields.shape).languages uri).trans (toward.languages uri)
  case contents =>
    rw [yields.content?] at held
    obtain ⟨before, held', rfl⟩ := Option.map_eq_some_iff.mp held
    obtain ⟨start, first, underway⟩ := toward.contents held'
    have some_of : (ResourceSet.judged (verdict (globalScope naming) set) uri
        (set.agenda.take count)).Sublist
          (before.pending.map fun pending => (pending, verdict (globalScope naming) set uri pending)) := by
      rw [← ResourceSet.judged_agenda_of_content ready.once held']
      exact ((List.take_sublist _ _).filter _).map _
    refine ⟨start, first, underway.settled (gathered.fresh first) (toward.inStep.sound held') ?_ ?_⟩
    · refine (some_of.map _).nodup ?_
      rw [List.map_map]
      exact ready.distinct held'
    · intro entry member
      obtain ⟨pending, waits, rfl⟩ := List.mem_map.mp (some_of.subset member)
      exact ⟨waits, like held' pending waits⟩

end Toward

/-! ### At the end -/

structure Arrived (naming : Naming) (whole set : ResourceSet) : Prop
    extends Toward naming whole set where
  loaded : ∀ {uri}, whole.isLoaded uri = true → set.isLoaded uri = true
  verdicts : ∀ {uri content}, set.content? uri = some content → ∀ pending ∈ content.pending,
    verdict (globalScope naming) set uri pending = verdict (globalScope naming) whole uri pending

theorem Gathered.arrived (gathered : Gathered naming files whole) : Arrived naming whole whole :=
  ⟨gathered.toward, id, fun _ _ _ => rfl⟩

namespace Arrived

variable {next : ResourceSet} (arrived : Arrived naming whole set)
  (gathered : Gathered naming files whole) (ignores : naming.IgnoresReferences)
include arrived gathered ignores

theorem linked : Toward naming whole (Event.linkAll.apply naming set) :=
  arrived.toToward.link gathered ignores
    (fun held pending waits => .inl (arrived.verdicts held pending waits)) _

theorem finished (first : whole.content? uri = some start) :
    ∃ content, (Event.linkAll.apply naming set).content? uri = some content ∧
      start.Finished (verdict (globalScope naming) whole uri) content := by
  have ready := ready_of_inStep arrived.inStep
  obtain ⟨yields, _⟩ := link_whole (globalScope_ignoresReferences ignores) ready.once
    (complete_of_addressesLoaded ready.loaded)
  have loaded := arrived.loaded (ResourceSet.isLoaded_iff.mpr ⟨start, first⟩)
  obtain ⟨before, held⟩ := ResourceSet.isLoaded_iff.mp loaded
  obtain ⟨start', first', underway⟩ := arrived.contents held
  cases first.symm.trans first'
  have settled := yields.content? uri
  rw [held, Option.map_some, ResourceSet.judged_agenda_of_content ready.once held] at settled
  refine ⟨_, settled, ?_⟩
  rw [List.map_congr_left fun pending waits =>
    congrArg (Prod.mk pending) (arrived.verdicts held pending waits)]
  exact underway.finished (gathered.fresh first) (arrived.inStep.sound held)
    (gathered.told ignores first)

/-- Runs that come to the end leave the same, whatever happened before. -/
theorem agrees (other : Arrived naming whole next) (uri : ResourceUri) :
    Option.Rel Content.Agrees ((Event.linkAll.apply naming set).content? uri)
      ((Event.linkAll.apply naming next).content? uri) := by
  have linked := arrived.linked gathered ignores
  have linked' := other.linked gathered ignores
  cases first : whole.content? uri with
  | none =>
    have closed : ∀ {set}, Toward naming whole set → set.content? uri = none := by
      intro set toward
      by_contra held
      obtain ⟨content, held⟩ := Option.ne_none_iff_exists'.mp held
      obtain ⟨_, first', _⟩ := toward.contents held
      cases first.symm.trans first'
    rw [closed linked, closed linked']
    exact .none
  | some start =>
    obtain ⟨content, held, finished⟩ := arrived.finished gathered ignores first
    obtain ⟨content', held', finished'⟩ := other.finished gathered ignores first
    rw [held, held']
    exact .some (finished.agrees finished' (gathered.fresh first) (linked.inStep.sound held)
      (linked'.inStep.sound held') (gathered.told ignores first))

end Arrived

end Crosslink.Linking
