import Crosslink.Proofs.Linking.Histories

/-! Reading files in any order.

A file that is linked too early finds less than it would find later. If no name that is written has
two nodes to choose from, what it finds is what it would find later, so that nothing is bound that
would have to be bound to something else when more files are there. Whatever the order in which the
files were read, and whatever was linked in between, a last run leaves the same.
-/

set_option autoImplicit false

namespace Crosslink

open Linking

theorem ResourceSet.mem_agenda {set : ResourceSet} {uri : ResourceUri} {content : Content}
    {pending : Pending} (held : set.content? uri = some content) (waits : pending ∈ content.pending) :
    (uri, pending) ∈ set.agenda := by
  obtain ⟨resource, found, filled⟩ := Option.bind_eq_some_iff.mp held
  refine List.mem_flatMap.mpr ⟨resource, mem_of_get? found, List.mem_map.mpr ⟨pending, ?_, ?_⟩⟩
  · rwa [Resource.pending_of_content filled]
  · rw [uri_of_get? found]

namespace Linking

variable {naming : Naming} {files : List TextFile} {whole set : ResourceSet} {uri : ResourceUri}
  {content : Content} {pending : Pending} {event : Event} {events : List Event}

/-- No reference that waits has more than one node to choose from. -/
def Unambiguous (naming : Naming) (set : ResourceSet) : Prop :=
  ∀ entry ∈ set.agenda, (fitting (globalScope naming) set entry.1 entry.2).length ≤ 1

def Event.Reads (files : List TextFile) : Event → Prop
  | .load file => file ∈ files
  | .unload _ => False
  | .link _ => True

/-- All of the files are read, in some order, and nothing else happens than that runs link them. -/
structure ReadsAll (files : List TextFile) (events : List Event) : Prop where
  each : ∀ event ∈ events, event.Reads files
  all : ∀ file ∈ files, .load file ∈ events

theorem toward_blank (distinct : (files.map Prod.fst).Nodup) (registry : Registry) :
    Toward naming (replay naming (blank registry) (files.map .load)) (blank registry) where
  inStep := inStep_blank registry
  languages uri := ((content?_loadAll distinct fun _ _ => rfl).1 uri).symm
  contents held := nomatch held

section Gathering

variable (gathered : Gathered naming files whole) (ignores : naming.IgnoresReferences)
  (toward : Toward naming whole set)
include gathered

section Verdicts

variable (unambiguous : Unambiguous naming whole)
include ignores toward unambiguous

/-- What fits a reference is what fits it in the whole, as far as it is there. -/
theorem fitting_of_toward (held : set.content? uri = some content)
    (waits : pending ∈ content.pending) :
    fitting (globalScope naming) set uri pending = [] ∨
      fitting (globalScope naming) set uri pending =
        fitting (globalScope naming) whole uri pending := by
  obtain ⟨name, named⟩ := toward.name_of_waits held waits
  obtain ⟨start, first, underway⟩ := toward.contents held
  have waited : pending ∈ start.pending :=
    ((underway.mem_pending_iff (gathered.fresh first) (toward.inStep.sound held)).mp waits).1
  exact toward.part.fitting_eq ignores toward.inStep.speaks.once gathered.inStep.speaks.once held
    named (unambiguous (uri, pending) (ResourceSet.mem_agenda first waited))

/-- Whenever a reference is visited, it gets the verdict that it has in the whole, or is left to
wait. -/
theorem verdict_of_toward (held : set.content? uri = some content)
    (waits : pending ∈ content.pending) :
    verdict (globalScope naming) set uri pending = verdict (globalScope naming) whole uri pending ∨
      ∃ error, verdict (globalScope naming) set uri pending = .kept error := by
  rcases fitting_of_toward gathered ignores toward unambiguous held waits with nothing | same
  · right
    obtain ⟨site, feature, _, judged⟩ := verdict_of_ready (globalScope_ignoresReferences ignores)
      (ready_of_inStep toward.inStep) held waits
    rw [judged, nothing]
    exact ⟨_, rfl⟩
  · left
    obtain ⟨name, named⟩ := toward.name_of_waits held waits
    exact verdict_of_fitting ignores (toward.part.shape held) named same

theorem arrived_of_loaded
    (loaded : ∀ {uri}, whole.isLoaded uri = true → set.isLoaded uri = true) :
    Arrived naming whole set where
  toToward := toward
  loaded := loaded
  verdicts {uri content} held pending waits := by
    obtain ⟨name, named⟩ := toward.name_of_waits held waits
    refine verdict_of_fitting ignores (toward.part.shape held) named ?_
    rcases fitting_of_toward gathered ignores toward unambiguous held waits with nothing | same
    · -- the whole has no more to offer, as it is loaded
      have back : Part whole set := by
        intro uri start first
        rw [toward.alike loaded uri, first, Option.map_some]
      obtain ⟨start, first, _⟩ := toward.contents held
      have none_more := back.fitting_subperm ignores gathered.inStep.speaks.once
        toward.inStep.speaks.once first named
      rw [nothing] at none_more
      rw [nothing, List.subperm_nil.mp none_more]
    · exact same

theorem toward_apply (reads : event.Reads files) : Toward naming whole (event.apply naming set) := by
  cases event with
  | load file => exact toward.load gathered reads
  | unload uri => exact reads.elim
  | link stop =>
    refine toward.link gathered ignores (fun held pending waits => ?_) stop
    exact verdict_of_toward gathered ignores toward unambiguous held waits

end Verdicts

/-- What is loaded stays loaded, and so does what is read. -/
theorem isLoaded_apply (ignores : naming.IgnoresReferences) (toward : Toward naming whole set)
    (reads : event.Reads files) (first : whole.isLoaded uri = true)
    (now : set.isLoaded uri = true ∨ ∃ text, event = .load (uri, text)) :
    (event.apply naming set).isLoaded uri = true := by
  cases event with
  | unload uri => exact reads.elim
  | link stop =>
    have loaded := now.resolve_right nofun
    have twins := ResourceSet.twins_of_shape (shape_link ignores toward.inStep stop)
    exact (twins.isLoaded uri).trans loaded
  | load file =>
    obtain ⟨home, text⟩ := file
    obtain ⟨start, first⟩ := ResourceSet.isLoaded_iff.mp first
    rw [ResourceSet.isLoaded_iff]
    by_cases here : uri = home
    · subst here
      rcases toward.own_load gathered reads with ⟨loaded, same⟩ | same
      · exact same ▸ ResourceSet.isLoaded_iff.mp loaded
      · exact ⟨start, same.trans first⟩
    · have loaded : set.isLoaded uri = true := by
        refine now.resolve_right ?_
        rintro ⟨_, read⟩
        cases read
        exact here rfl
      obtain ⟨content, held⟩ := ResourceSet.isLoaded_iff.mp loaded
      have kept := toward.inStep.others_load text here
      rw [held] at kept
      exact ⟨_, kept⟩

theorem toward_read (ignores : naming.IgnoresReferences) (unambiguous : Unambiguous naming whole)
    (reads : ∀ event ∈ events, event.Reads files) (toward : Toward naming whole set) :
    Toward naming whole (replay naming set events) ∧
      ∀ {uri}, whole.isLoaded uri = true →
        (set.isLoaded uri = true ∨ ∃ text, .load (uri, text) ∈ events) →
          (replay naming set events).isLoaded uri = true := by
  induction events generalizing set with
  | nil => exact ⟨toward, fun _ now => now.resolve_right nofun⟩
  | cons event rest ih =>
    have own := reads event List.mem_cons_self
    have next := toward_apply gathered ignores toward unambiguous own
    obtain ⟨later, loaded⟩ := ih (fun event member => reads event (List.mem_cons_of_mem _ member)) next
    refine ⟨later, fun {uri} first now => loaded first ?_⟩
    have apply := isLoaded_apply gathered ignores toward own first
    rcases now with held | ⟨text, read⟩
    · exact .inl (apply (.inl held))
    · rcases List.mem_cons.mp read with rfl | read
      · exact .inl (apply (.inr ⟨text, rfl⟩))
      · exact .inr ⟨text, read⟩

theorem arrived_of_reads (ignores : naming.IgnoresReferences)
    (unambiguous : Unambiguous naming whole) (reads : ReadsAll files events)
    (toward : Toward naming whole set) : Arrived naming whole (replay naming set events) := by
  obtain ⟨later, loaded⟩ := toward_read gathered ignores unambiguous reads.each toward
  refine arrived_of_loaded gathered ignores later unambiguous fun {uri} first => loaded first (.inr ?_)
  obtain ⟨start, held⟩ := ResourceSet.isLoaded_iff.mp first
  obtain ⟨text, listed⟩ := gathered.only held
  exact ⟨text, reads.all _ listed⟩

end Gathering

/-- Files in which no name has two nodes to choose from may be read in any order, and linked
whenever one likes: a run that is not stopped leaves the same in all of them. The policy of names
is the same in all runs, and does not look at references. -/
theorem link_in_any_order (ignores : naming.IgnoresReferences) (registry : Registry)
    (distinct : (files.map Prod.fst).Nodup)
    (unambiguous : Unambiguous naming (replay naming (blank registry) (files.map .load)))
    {first second : List Event} (reads : ReadsAll files first) (reads' : ReadsAll files second)
    (uri : ResourceUri) :
    Option.Rel Content.Agrees
      ((replay naming (blank registry) (first ++ [.linkAll])).content? uri)
      ((replay naming (blank registry) (second ++ [.linkAll])).content? uri) := by
  have gathered := @gathered naming files distinct registry
  have toward := @toward_blank naming files distinct registry
  have arrived := arrived_of_reads gathered ignores unambiguous reads toward
  have arrived' := arrived_of_reads gathered ignores unambiguous reads' toward
  rw [replay_append, replay_append]
  exact arrived.agrees gathered ignores arrived' uri

/-! ### Two files -/

def pairedFiles : List TextFile :=
  [(firstUri, "type A extends B implements C"), (secondUri, "package p { type D } type B")]

def pairedWhole : ResourceSet := replay .simple (blank {}) (pairedFiles.map .load)

def early : List Event :=
  [.load (firstUri, "type A extends B implements C"), .linkAll,
    .load (secondUri, "package p { type D } type B")]

def late : List Event :=
  [.load (secondUri, "package p { type D } type B"),
    .load (firstUri, "type A extends B implements C"), .link fun _ => true]

theorem unambiguous_pairedWhole : Unambiguous .simple pairedWhole := by
  have checked : (pairedWhole.agenda.all fun entry =>
      decide ((fitting (globalScope .simple) pairedWhole entry.1 entry.2).length ≤ 1)) = true := by
    cbv
  intro entry member
  exact of_decide_eq_true (List.all_eq_true.mp checked entry member)

theorem readsAll_early : ReadsAll pairedFiles early :=
  ⟨by simp [early, pairedFiles, Event.Reads, Event.linkAll], by simp [early, pairedFiles]⟩

theorem readsAll_late : ReadsAll pairedFiles late :=
  ⟨by simp [late, pairedFiles, Event.Reads], by simp [late, pairedFiles]⟩

/-- In both orders the type extends the one of the other file. -/
theorem link_in_both_orders : ∃ before after,
    (replay .simple (blank {}) (early ++ [.linkAll])).content? firstUri = some before ∧
    (replay .simple (blank {}) (late ++ [.linkAll])).content? firstUri = some after ∧
    before.Agrees after ∧
    after.tree.referenceAt? ⟨1, 1, none⟩ =
      some (.bound ⟨secondUri, .ofSteps [⟨"elements", some 1⟩]⟩) ∧
    after.pending = [⟨⟨1, 2, some 0⟩, .name ⟨["C"]⟩⟩] := by
  have agree := link_in_any_order Naming.simple_ignoresReferences {} (by decide)
    unambiguous_pairedWhole readsAll_early readsAll_late firstUri
  have seen : ((replay .simple (blank {}) (early ++ [.linkAll])).content? firstUri).map
      (fun content => (content.pending, content.tree.referenceAt? ⟨1, 1, none⟩)) =
        some ([⟨⟨1, 2, some 0⟩, .name ⟨["C"]⟩⟩],
          some (.bound ⟨secondUri, .ofSteps [⟨"elements", some 1⟩]⟩)) := by
    cbv
  obtain ⟨before, held, fields⟩ := Option.map_eq_some_iff.mp seen
  obtain ⟨pending, bound⟩ := Prod.mk.inj fields
  rw [held] at agree
  obtain ⟨after, held', agrees⟩ := Content.exists_agreeing agree
  exact ⟨before, after, held, held', agrees, by rw [agrees.tree, bound], agrees.pending.trans pending⟩

/-! ### Names that linking changes -/

def relabelled : TextFile := (firstUri, "package p { type B } type A extends B type C extends p.B")

def relabelledTwice : ResourceSet :=
  replay .loosened (blank {}) ([.load relabelled, .linkAll] ++ [.linkAll])

def relabelledOnce : ResourceSet := replay .loosened (blank {}) ([.load relabelled] ++ [.linkAll])

/-- No written name ever has two nodes to choose from, and still a run in between makes a
difference: the last one finds the names that it left. -/
theorem link_relabelled_early :
    Unambiguous .loosened (replay .loosened (blank {}) [.load relabelled]) ∧
    Unambiguous .loosened relabelledOnce ∧
    ReadsAll [relabelled] [.load relabelled] ∧ ReadsAll [relabelled] [.load relabelled, .linkAll] ∧
    (relabelledOnce.content? firstUri).bind (·.tree.referenceAt? ⟨3, 1, none⟩) =
      some (.unresolved (.name ⟨["B"]⟩)) ∧
    (relabelledTwice.content? firstUri).bind (·.tree.referenceAt? ⟨3, 1, none⟩) =
      some (.bound innerType) := by
  have seen : ([replay .loosened (blank {}) [.load relabelled], relabelledOnce].all
        (fun set => set.agenda.all fun entry =>
          decide ((fitting (globalScope .loosened) set entry.1 entry.2).length ≤ 1)),
      (relabelledOnce.content? firstUri).bind (·.tree.referenceAt? ⟨3, 1, none⟩),
      (relabelledTwice.content? firstUri).bind (·.tree.referenceAt? ⟨3, 1, none⟩)) =
    (true, some (.unresolved (.name ⟨["B"]⟩)), some (.bound innerType)) := by
    cbv
  obtain ⟨checked, values⟩ := Prod.mk.inj seen
  have few : ∀ set ∈ [replay .loosened (blank {}) [.load relabelled], relabelledOnce],
      Unambiguous .loosened set := fun set member entry waits =>
    of_decide_eq_true (List.all_eq_true.mp (List.all_eq_true.mp checked set member) entry waits)
  refine ⟨few _ (by simp), few _ (by simp), ⟨?_, by simp⟩, ⟨?_, by simp⟩, Prod.mk.inj values⟩
  · simp [Event.Reads]
  · simp [Event.Reads, Event.linkAll]

end Linking

end Crosslink
