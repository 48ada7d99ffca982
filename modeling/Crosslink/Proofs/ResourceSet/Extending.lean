import Crosslink.Proofs.ResourceSet.Loading

/-! Sets that grow by what their loader has.

What is loaded stays loaded and keeps its shape, and what comes in addition is
what the loader had for it from the start.
-/

set_option autoImplicit false

namespace Crosslink.ResourceSet

variable {set next last : ResourceSet} {uri : ResourceUri} {content : Content}

/-- The second set holds the trees of the first, and otherwise what could be loaded there. -/
structure Extends (set next : ResourceSet) : Prop where
  loader : next.loader = set.loader
  languages : ∀ uri, next.language? uri = set.language? uri
  kept : ∀ {uri content}, set.content? uri = some content →
    ∃ after, next.content? uri = some after ∧ after.tree.shape = content.tree.shape
  new : ∀ {uri after}, set.content? uri = none → next.content? uri = some after →
    ∃ content, set.supply? uri = some content ∧ after.tree.shape = content.tree.shape

def Origin (start : ResourceSet) (uri : ResourceUri) (content : Content) : Prop :=
  start.content? uri = some content ∨
    start.content? uri = none ∧ start.supply? uri = some content

theorem extends_of_twins (twins : set.Twins next) : set.Extends next where
  loader := twins.loader
  languages := twins.languages
  kept held := twins.alike.of_content held
  new {uri after} closed held := by
    obtain ⟨_, before, _⟩ := twins.alike.symm.of_content held
    rw [closed] at before
    cases before

theorem Extends.refl (set : ResourceSet) : set.Extends set := extends_of_twins (.refl set)

namespace Extends

variable (extended : set.Extends next)
include extended

theorem supply? (uri : ResourceUri) : next.supply? uri = set.supply? uri := by
  rw [ResourceSet.supply?, ResourceSet.supply?, extended.loader,
    reading?_of_languages extended.languages]

theorem closed (closed : next.content? uri = none) : set.content? uri = none := by
  cases held : set.content? uri with
  | none => rfl
  | some content =>
    obtain ⟨after, held', _⟩ := extended.kept held
    rw [closed] at held'
    cases held'

theorem trans (further : next.Extends last) : set.Extends last where
  loader := further.loader.trans extended.loader
  languages uri := (further.languages uri).trans (extended.languages uri)
  kept held := by
    obtain ⟨after, held', same⟩ := extended.kept held
    obtain ⟨latest, held'', same'⟩ := further.kept held'
    exact ⟨latest, held'', same'.trans same⟩
  new {uri latest} closed held := by
    cases between : next.content? uri with
    | none =>
      rw [← extended.supply?]
      exact further.new between held
    | some after =>
      obtain ⟨content, had, same⟩ := extended.new closed between
      obtain ⟨_, held', same'⟩ := further.kept between
      cases held.symm.trans held'
      exact ⟨content, had, same'.trans same⟩

theorem isLoaded (loaded : set.isLoaded uri = true) : next.isLoaded uri = true := by
  obtain ⟨content, held⟩ := isLoaded_iff.mp loaded
  obtain ⟨after, held', _⟩ := extended.kept held
  exact isLoaded_iff.mpr ⟨after, held'⟩

theorem steady (steady : set.Steady uri) : next.Steady uri := by
  rcases steady with loaded | missing
  · exact .inl (extended.isLoaded loaded)
  · exact .inr ((extended.supply? uri).trans missing)

/-- In a resource that is loaded, or that cannot be had, nothing new is found. -/
theorem same (steady : set.Steady uri) : (next.content? uri).map (·.tree.shape) =
    (set.content? uri).map (·.tree.shape) := by
  cases held : set.content? uri with
  | some content =>
    obtain ⟨after, held', shapes⟩ := extended.kept held
    rw [held', Option.map_some, Option.map_some, shapes]
  | none =>
    cases held' : next.content? uri with
    | none => rfl
    | some after =>
      obtain ⟨content, had, _⟩ := extended.new held held'
      rcases steady with loaded | missing
      · obtain ⟨content, found⟩ := isLoaded_iff.mp loaded
        rw [held] at found
        cases found
      · rw [missing] at had
        cases had

theorem origin_of_new {after : Content} (closed : next.content? uri = none)
    (had : next.supply? uri = some after) : set.Origin uri after :=
  .inr ⟨extended.closed closed, (extended.supply? uri).symm.trans had⟩

theorem shape_of_origin {after : Content} (origin : set.Origin uri content)
    (held : next.content? uri = some after) : after.tree.shape = content.tree.shape := by
  rcases origin with before | ⟨closed, had⟩
  · obtain ⟨_, held', same⟩ := extended.kept before
    cases held.symm.trans held'
    exact same
  · obtain ⟨_, had', same⟩ := extended.new closed held
    cases had.symm.trans had'
    exact same

end Extends

/-! ### Loading on demand -/

theorem extends_ensureLoaded (set : ResourceSet) (uri : ResourceUri) :
    set.Extends (set.ensureLoaded uri).1 := by
  cases loaded : set.isLoaded uri with
  | true =>
    rw [ensureLoaded_of_loaded loaded]
    exact .refl set
  | false =>
    have fills := fills_ensureLoaded loaded
    refine ⟨fills.loader, fills.languages, fun held => ?_, fun closed held => ?_⟩
    · exact ⟨_, content?_ensureLoaded held, rfl⟩
    · next other after =>
      by_cases here : other = uri
      · subst here
        rw [fills.own] at held
        exact ⟨after, held, rfl⟩
      · rw [fills.others other here, closed] at held
        cases held

theorem steady_ensureLoaded (set : ResourceSet) (uri : ResourceUri) :
    (set.ensureLoaded uri).1.Steady uri := by
  cases loaded : set.isLoaded uri with
  | true =>
    rw [ensureLoaded_of_loaded loaded]
    exact .inl loaded
  | false =>
    have fills := fills_ensureLoaded loaded
    cases had : set.supply? uri with
    | none => exact .inr (((extends_ensureLoaded set uri).supply? uri).trans had)
    | some content => exact .inl (isLoaded_iff.mpr ⟨content, fills.own.trans had⟩)

theorem nodup_load (once : set.uris.Nodup) (uri : ResourceUri) (text : String) :
    (set.load uri text).1.uris.Nodup := by
  refine load_induction (motive := fun set => set.uris.Nodup) (fun uri once => ?_)
    (fun once made => ?_) (fun uri text once => ?_) once uri text
  · rwa [uris_demoteInto]
  · obtain ⟨fresh, language, _, rfl⟩ := create_ok made
    exact nodup_uris_append once fresh
  · rwa [uris_loadMember]

theorem nodup_ensureLoaded (once : set.uris.Nodup) (uri : ResourceUri) :
    (set.ensureLoaded uri).1.uris.Nodup :=
  ensureLoaded_induction (motive := fun set => set.uris.Nodup) (fun _ once => once)
    (fun uri text once => nodup_load once uri text) once uri

end Crosslink.ResourceSet
