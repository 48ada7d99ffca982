import Crosslink.Proofs.Linking.Histories

/-! Reading files again.

When a linked file is unloaded or read again, references into it and out of it wait for their names
once more. As soon as all files are back, in their old places, a run binds what was bound, to what
it was bound to, also where a name has several candidates.
-/

set_option autoImplicit false

namespace Crosslink.Linking

variable {naming : Naming} {files : List TextFile} {whole set : ResourceSet} {uri : ResourceUri}
  {text : String} {events : List Event}

def Event.Reloads (files : List TextFile) : Event → Prop
  | .load file => file ∈ files
  | .unload _ => True
  | .link _ => False

section Reload

variable (gathered : Gathered naming files whole)
include gathered

-- A file of which the whole has no member cannot be read.
theorem uris_reload (toward : Toward naming whole set) (members : set.uris = whole.uris)
    (listed : (uri, text) ∈ files) : (set.load uri text).1.uris = set.uris := by
  cases present : set.contains uri with
  | true =>
    unfold ResourceSet.load
    rw [if_pos present, ResourceSet.uris_loadMember]
    split
    · exact ResourceSet.uris_demoteInto
    · rfl
  | false =>
    have absent : whole.get? uri = none := by
      rw [ResourceSet.get?_eq_none_iff, ← members, ← ResourceSet.contains_iff_mem, present]
      exact Bool.false_ne_true
    have unread : whole.reading? uri text = none := by
      rw [← gathered.read _ listed, ResourceSet.content?, absent, Option.bind_none]
    have unknown : set.language? uri = none := by
      rw [toward.languages uri]
      exact Option.map_eq_none_iff.mp unread
    have closed : set.isLoaded uri = false := by
      rw [Bool.eq_false_iff]
      intro loaded
      rw [ResourceSet.contains_of_isLoaded loaded] at present
      cases present
    have outcome := ResourceSet.load_of_closed closed text
    rw [unknown] at outcome
    obtain ⟨_, failed⟩ := outcome
    rw [failed]

/-- All files keep their places. -/
theorem toward_reloaded (reloads : ∀ event ∈ events, event.Reloads files)
    (toward : Toward naming whole set) (members : set.uris = whole.uris) :
    Toward naming whole (replay naming set events) ∧ (replay naming set events).uris = whole.uris := by
  induction events generalizing set with
  | nil => exact ⟨toward, members⟩
  | cons event rest ih =>
    have later := fun event member => reloads event (List.mem_cons_of_mem _ member)
    have own := reloads event List.mem_cons_self
    cases event with
    | load file =>
      exact ih later (toward.load gathered own)
        ((uris_reload gathered toward members own).trans members)
    | unload uri =>
      exact ih later (toward.unload gathered uri) (ResourceSet.uris_unload.trans members)
    | link stop => exact own.elim

theorem arrived_of_members (ignores : naming.IgnoresReferences) (toward : Toward naming whole set)
    (members : set.uris = whole.uris)
    (loaded : ∀ {uri}, whole.isLoaded uri = true → set.isLoaded uri = true) :
    Arrived naming whole set where
  toToward := toward
  loaded := loaded
  verdicts {uri content} held pending waits := by
    obtain ⟨name, named⟩ := toward.name_of_waits held waits
    exact verdict_of_alike ignores gathered.inStep.speaks.once members (toward.alike loaded) named

end Reload

/-- Files are read and linked. However they are read again and unloaded, when all of them are back,
another run with the same policy of names leaves what the first one left. It is enough that the
policy does not look at references. -/
theorem link_reloaded (ignores : naming.IgnoresReferences) (registry : Registry)
    (distinct : (files.map Prod.fst).Nodup) (reloads : ∀ event ∈ events, event.Reloads files) :
    let linked := replay naming (blank registry) (files.map .load ++ [.linkAll])
    let reloaded := replay naming linked events
    let again := replay naming reloaded [.linkAll]
    (∀ uri, linked.isLoaded uri = true → reloaded.isLoaded uri = true) →
      again.uris = linked.uris ∧
        ∀ uri, Option.Rel Content.Agrees (linked.content? uri) (again.content? uri) := by
  intro linked reloaded again loaded
  have gathered := @gathered naming files distinct registry
  have ran : linked = Event.linkAll.apply naming (replay naming (blank registry) (files.map .load)) :=
    replay_append _ _ _
  generalize replay naming (blank registry) (files.map .load) = whole at gathered ran
  have shape := shape_link ignores gathered.inStep fun _ => false
  rw [show (link (globalScope naming) (fun _ => false) whole).1 = linked from ran.symm] at shape
  have members := ResourceSet.uris_of_shape shape
  obtain ⟨toward, kept⟩ := toward_reloaded gathered reloads
    (ran ▸ gathered.arrived.linked gathered ignores) members
  have arrived := arrived_of_members gathered ignores toward kept fun held =>
    loaded _ (((ResourceSet.twins_of_shape shape).isLoaded _).trans held)
  refine ⟨?_, fun uri => ?_⟩
  · exact (ResourceSet.uris_of_shape (shape_link ignores arrived.inStep _)).trans
      (kept.trans members.symm)
  · rw [ran]
    exact gathered.arrived.agrees gathered ignores arrived uri

/-! ### A name with two candidates -/

def ambiguousFiles : List TextFile :=
  [(firstUri, "type A extends B implements C"), (secondUri, "type B type B")]

def ambiguousLinked : ResourceSet :=
  replay .simple (blank {}) (ambiguousFiles.map .load ++ [.linkAll])

def ambiguousReloads : List Event :=
  [.unload secondUri, .load (firstUri, "type A extends B implements C"),
    .load (secondUri, "type B type B")]

-- The files once linked, what is loaded after the reloads, and what linking gives the type.
theorem seen_ambiguous :
    (ambiguousLinked.uris, [firstUri, secondUri].map
        (replay .simple ambiguousLinked ambiguousReloads).isLoaded,
      (ambiguousLinked.content? firstUri).map fun content => (content.pending,
        content.tree.referenceAt? ⟨1, 1, none⟩)) =
    ([firstUri, secondUri], .replicate 2 true, some ([⟨⟨1, 2, some 0⟩, .name ⟨["C"]⟩⟩],
      some (.bound ⟨secondUri, .ofSteps [⟨"elements", some 0⟩]⟩))) := by
  cbv

theorem loaded_ambiguous (uri : ResourceUri) (held : ambiguousLinked.isLoaded uri = true) :
    (replay .simple ambiguousLinked ambiguousReloads).isLoaded uri = true := by
  have seen := seen_ambiguous
  simp only [Prod.mk.injEq] at seen
  obtain ⟨members, loaded, _⟩ := seen
  have listed := ResourceSet.contains_iff_mem.mp (ResourceSet.contains_of_isLoaded held)
  rw [members] at listed
  exact List.eq_of_mem_replicate (loaded ▸ List.mem_map_of_mem listed)

/-- The first candidate is found again, and the unknown name is still unknown. -/
theorem link_ambiguous_reloaded : ∃ before after,
    ambiguousLinked.content? firstUri = some before ∧
    (replay .simple (replay .simple ambiguousLinked ambiguousReloads) [.linkAll]).content? firstUri =
      some after ∧
    before.Agrees after ∧
    after.tree.referenceAt? ⟨1, 1, none⟩ =
      some (.bound ⟨secondUri, .ofSteps [⟨"elements", some 0⟩]⟩) ∧
    after.pending = [⟨⟨1, 2, some 0⟩, .name ⟨["C"]⟩⟩] := by
  have seen := seen_ambiguous
  simp only [Prod.mk.injEq] at seen
  obtain ⟨_, _, seen⟩ := seen
  obtain ⟨before, held, fields⟩ := Option.map_eq_some_iff.mp seen
  obtain ⟨pending, bound⟩ := Prod.mk.inj fields
  have agree : Option.Rel Content.Agrees (ambiguousLinked.content? firstUri)
      ((replay .simple (replay .simple ambiguousLinked ambiguousReloads) [.linkAll]).content?
        firstUri) :=
    (link_reloaded Naming.simple_ignoresReferences {} (by decide)
      (by simp [ambiguousReloads, ambiguousFiles, Event.Reloads]) loaded_ambiguous).2 firstUri
  rw [held] at agree
  obtain ⟨after, held', agrees⟩ := Content.exists_agreeing agree
  exact ⟨before, after, held, held', agrees, by rw [agrees.tree, bound], agrees.pending.trans pending⟩

/-! ### Names that linking changes -/

def namedAnewFiles : List TextFile :=
  [(firstUri, "package p { type B } type A extends B type C extends p.B"), (secondUri, "type D")]

def besideReload : List Event := [.unload secondUri, .load (secondUri, "type D")]

def namedAnewLinked : ResourceSet :=
  replay .loosened (blank {}) (namedAnewFiles.map .load ++ [.linkAll])

def namedAnewReloaded : ResourceSet := replay .loosened namedAnewLinked besideReload

/-- The first run binds a nested name, and leaves the own name open that the next one binds. -/
theorem link_namedAnew_reloaded :
    (namedAnewFiles.map Prod.fst).Nodup ∧
    (∀ event ∈ besideReload, event.Reloads namedAnewFiles) ∧
    namedAnewReloaded.isLoaded firstUri = true ∧ namedAnewReloaded.isLoaded secondUri = true ∧
    (namedAnewLinked.content? firstUri).bind (·.tree.referenceAt? ⟨3, 1, none⟩) =
      some (.unresolved (.name ⟨["B"]⟩)) ∧
    ((replay .loosened namedAnewReloaded [.linkAll]).content? firstUri).bind
      (·.tree.referenceAt? ⟨3, 1, none⟩) = some (.bound innerType) := by
  have seen : (namedAnewReloaded.isLoaded firstUri, namedAnewReloaded.isLoaded secondUri,
      (namedAnewLinked.content? firstUri).bind (·.tree.referenceAt? ⟨3, 1, none⟩),
      ((replay .loosened namedAnewReloaded [.linkAll]).content? firstUri).bind
        (·.tree.referenceAt? ⟨3, 1, none⟩)) =
    (true, true, some (.unresolved (.name ⟨["B"]⟩)), some (.bound innerType)) := by
    cbv
  simp only [Prod.mk.injEq] at seen
  exact ⟨by decide, by simp [besideReload, namedAnewFiles, Event.Reloads], seen⟩

end Crosslink.Linking
