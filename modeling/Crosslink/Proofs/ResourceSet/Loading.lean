import Crosslink.Proofs.ResourceSet.Alike
import Crosslink.Proofs.ResourceSet.Steps

/-! Filling a resource that is not loaded.

What it holds afterwards depends on its language and on the text alone, and no
other member changes. Sets with one loader and alike members are filled alike.
-/

set_option autoImplicit false

namespace Crosslink.ResourceSet

variable {set shadow next last : ResourceSet} {uri other : ResourceUri} {text : String}

/-- The language of a member, or the one that it would have if it was made. -/
def language? (set : ResourceSet) (uri : ResourceUri) : Option Language :=
  ((set.get? uri).map (·.language)).getD (set.languages.for? uri)

def reading? (set : ResourceSet) (uri : ResourceUri) (text : String) : Option Content :=
  (set.language? uri).map fun language =>
    .ofParsed (language.parse text) (some (.ofText text))

theorem reading?_of_languages (same : ∀ uri, next.language? uri = set.language? uri) :
    next.reading? = set.reading? := by
  funext uri text
  rw [reading?, reading?, same]

def supply? (set : ResourceSet) (uri : ResourceUri) : Option Content :=
  set.loader.bind fun loader => (loader uri).toOption.bind (set.reading? uri)

theorem language?_modify {change : Resource → Resource}
    (keeps : ∀ resource : Resource, resource.uri = uri →
      (change resource).uri = uri ∧ (change resource).language = resource.language)
    (other : ResourceUri) : (set.modify uri change).language? other = set.language? other := by
  unfold language?
  rw [get?_modify fun resource named => (keeps resource named).1]
  by_cases here : other = uri
  · rw [if_pos here]
    cases found : set.get? other with
    | none => rfl
    | some resource => exact (keeps resource ((uri_of_get? found).trans here)).2
  · rw [if_neg here]
    rfl

/-- A member takes another form. -/
theorem language?_replaced {resource changed : Resource} (found : set.get? uri = some resource)
    (named : changed.uri = resource.uri) (own : changed.language = resource.language)
    (other : ResourceUri) :
    (set.modify uri fun _ => changed).language? other = set.language? other := by
  unfold language?
  rw [get?_modify fun _ _ => named.trans (uri_of_get? found)]
  by_cases here : other = uri
  · rw [if_pos here, here, found, Option.map_some, Option.map_some, own]
    rfl
  · rw [if_neg here]
    rfl

theorem language?_demoteInto (other : ResourceUri) :
    (set.demoteInto uri).language? other = set.language? other := by
  unfold language?
  rw [get?_demoteInto]
  split
  · rfl
  · rw [Option.map_map]
    congr 2
    funext resource
    exact resource.language_update _

theorem language?_loadMember (other : ResourceUri) :
    (set.loadMember uri text).1.language? other = set.language? other := by
  unfold loadMember
  split
  · rfl
  · next resource found =>
    split
    · rfl
    · next loaded report done =>
      obtain ⟨language, _, rfl⟩ := Resource.load_ok done
      exact language?_replaced found (resource.uri_put _) (resource.language_put _) other

theorem language?_create (done : set.create uri = .ok next) (other : ResourceUri) :
    next.language? other = set.language? other := by
  unfold language?
  by_cases here : other = uri
  · subst here
    obtain ⟨fresh, language, known, rfl⟩ := create_ok done
    have missing : set.get? other = none := by simpa [contains] using fresh
    have missing' : set.resources.find? (·.uri = other) = none := missing
    rw [missing]
    simp [get?, List.find?_append, missing', known]
  · rw [get?_create done here]
    obtain ⟨_, _, _, rfl⟩ := create_ok done
    rfl

/-- What is read or unloaded tells nothing new about languages. -/
theorem language?_load (uri : ResourceUri) (text : String) (other : ResourceUri) :
    (set.load uri text).1.language? other = set.language? other := by
  unfold load
  split
  · rw [language?_loadMember]
    split
    · exact language?_demoteInto other
    · rfl
  · cases made : set.create uri with
    | error fault => rfl
    | ok next => exact (language?_loadMember other).trans (language?_create made other)

theorem language?_unload (uri other : ResourceUri) :
    (set.unload uri).1.language? other = set.language? other := by
  unfold unload
  split
  · refine (language?_demoteInto other).trans (language?_modify (fun resource named => ?_) other)
    exact ⟨resource.uri_unload.trans named, resource.language_unload⟩
  · rfl

/-! ### What does not change -/

structure Furnished (set next : ResourceSet) : Prop where
  registry : next.registry = set.registry
  languages : next.languages = set.languages
  loader : next.loader = set.loader

theorem Furnished.refl (set : ResourceSet) : set.Furnished set := ⟨rfl, rfl, rfl⟩

theorem Furnished.trans (first : set.Furnished next) (second : next.Furnished last) :
    set.Furnished last where
  registry := second.registry.trans first.registry
  languages := second.languages.trans first.languages
  loader := second.loader.trans first.loader

theorem furnished_create (made : set.create uri = .ok next) : set.Furnished next := by
  obtain ⟨_, _, _, rfl⟩ := create_ok made
  exact ⟨rfl, rfl, rfl⟩

theorem furnished_loadMember (set : ResourceSet) (uri : ResourceUri) (text : String) :
    set.Furnished (set.loadMember uri text).1 := by
  unfold loadMember
  split
  · exact ⟨rfl, rfl, rfl⟩
  · split <;> exact ⟨rfl, rfl, rfl⟩

theorem furnished_load (set : ResourceSet) (uri : ResourceUri) (text : String) :
    set.Furnished (set.load uri text).1 :=
  load_induction (motive := set.Furnished) (fun _ same => same.trans ⟨rfl, rfl, rfl⟩)
    (fun same made => same.trans (furnished_create made))
    (fun uri text same => same.trans (furnished_loadMember _ uri text)) (.refl set) uri text

theorem furnished_ensureLoaded (set : ResourceSet) (uri : ResourceUri) :
    set.Furnished (set.ensureLoaded uri).1 :=
  ensureLoaded_induction (motive := set.Furnished) (fun _ same => same.trans ⟨rfl, rfl, rfl⟩)
    (fun uri text same => same.trans (furnished_load _ uri text)) (.refl set) uri

theorem furnished_remove (set : ResourceSet) (uri : ResourceUri) :
    set.Furnished (set.remove uri).1 := by
  unfold remove
  split <;> exact ⟨rfl, rfl, rfl⟩

/-! ### What is held -/

structure Fills (set : ResourceSet) (uri : ResourceUri) (content : Option Content)
    (next : ResourceSet) : Prop where
  own : next.content? uri = content
  others : ∀ other ≠ uri, next.content? other = set.content? other
  loader : next.loader = set.loader
  languages : ∀ other, next.language? other = set.language? other

theorem content?_of_closed (closed : set.isLoaded uri = false) : set.content? uri = none := by
  rw [← Option.not_isSome_iff_eq_none]
  intro held
  rw [isLoaded_iff.mpr (Option.isSome_iff_exists.mp held)] at closed
  cases closed

theorem content?_loadMember_self (present : set.contains uri = true) :
    (set.loadMember uri text).1.content? uri = (set.reading? uri text).or (set.content? uri) := by
  obtain ⟨resource, found⟩ := Option.isSome_iff_exists.mp present
  have named := uri_of_get? found
  unfold loadMember Resource.load reading? language?
  rw [found, Option.map_some, Option.getD_some]
  dsimp only
  cases spoken : resource.language with
  | none => rfl
  | some language =>
    have keeps : ∀ other : Resource, other.uri = uri →
        (resource.install (language.parse text) (some (.ofText text))).1.uri = uri :=
      fun _ _ => named
    dsimp only
    rw [content?, get?_modify keeps, if_pos rfl, found]
    rfl

theorem fills_loadMember (present : set.contains uri = true) (closed : set.isLoaded uri = false) :
    set.Fills uri (set.reading? uri text) (set.loadMember uri text).1 where
  own := by rw [content?_loadMember_self present, content?_of_closed closed, Option.or_none]
  others other apart := by rw [content?, get?_loadMember apart, content?]
  loader := (furnished_loadMember set uri text).loader
  languages := language?_loadMember

theorem fills_load (closed : set.isLoaded uri = false) (text : String) :
    set.Fills uri (set.reading? uri text) (set.load uri text).1 := by
  unfold load
  split
  · next present =>
    rw [closed]
    exact fills_loadMember present closed
  · next absent =>
    have missing : set.get? uri = none := by simpa [contains] using absent
    cases made : set.create uri with
    | error fault =>
      have unknown : set.reading? uri text = none := by
        unfold create at made
        rw [if_neg absent] at made
        unfold reading? language?
        rw [missing]
        cases known : set.languages.for? uri with
        | none => rfl
        | some language =>
          have fresh : ({ set with serial := set.serial + 1 } : ResourceSet).contains uri = false :=
            Bool.eq_false_iff.mpr absent
          simp [known, make, add, fresh] at made
      rw [unknown]
      exact ⟨content?_of_closed closed, fun _ _ => rfl, rfl, fun _ => rfl⟩
    | ok next =>
      have languages := language?_create made
      have contents : ∀ other, next.content? other = set.content? other :=
        fun other => content?_create made
      have present : next.contains uri = true := by
        obtain ⟨_, language, _, rfl⟩ := create_ok made
        have missing' : set.resources.find? (·.uri = uri) = none := missing
        simp [contains, get?, List.find?_append, missing']
      have closed' : next.isLoaded uri = false := by
        rw [Bool.eq_false_iff]
        intro loaded
        obtain ⟨content, held⟩ := isLoaded_iff.mp loaded
        rw [contents, content?_of_closed closed] at held
        cases held
      have same : next.reading? uri text = set.reading? uri text := by
        unfold reading?
        rw [languages]
      have fills := @fills_loadMember next uri text present closed'
      rw [same] at fills
      refine ⟨fills.own, fun other apart => ?_, fills.loader.trans ?_, fun other => ?_⟩
      · rw [fills.others other apart, contents]
      · obtain ⟨_, _, _, rfl⟩ := create_ok made
        rfl
      · rw [fills.languages, languages]

/-- What a text is read into is held afterwards, and else what was held. -/
theorem content?_load_self (text : String) :
    (set.load uri text).1.content? uri = (set.reading? uri text).or (set.content? uri) := by
  cases loaded : set.isLoaded uri with
  | false => rw [(fills_load loaded text).own, content?_of_closed loaded, Option.or_none]
  | true =>
    have present : (set.demoteInto uri).contains uri = true := by
      rw [contains, get?_demoteInto, if_pos rfl]
      exact contains_of_isLoaded loaded
    have same : (set.demoteInto uri).content? uri = set.content? uri := by
      rw [content?, get?_demoteInto, if_pos rfl, content?]
    unfold load
    rw [if_pos (contains_of_isLoaded loaded), if_pos loaded, content?_loadMember_self present, same,
      reading?_of_languages language?_demoteInto]

theorem supply?_of_request {result : Except Error String}
    (asked : set.request uri = (next, result)) :
    set.supply? uri = result.toOption.bind (set.reading? uri) := by
  unfold request at asked
  unfold supply?
  split at asked
  · next bare =>
    cases asked
    rw [bare]
    rfl
  · next loader known =>
    cases asked
    rw [known]
    rfl

theorem fills_ensureLoaded (closed : set.isLoaded uri = false) :
    set.Fills uri (set.supply? uri) (set.ensureLoaded uri).1 := by
  unfold ensureLoaded
  rw [if_neg (Bool.eq_false_iff.mp closed)]
  cases asked : set.request uri with
  | mk after result =>
    rw [supply?_of_request asked]
    obtain ⟨requests, rfl⟩ := request_eq asked
    cases result with
    | error fault => exact ⟨content?_of_closed closed, fun _ _ => rfl, rfl, fun _ => rfl⟩
    | ok text =>
      have closed' : ({ set with requests } : ResourceSet).isLoaded uri = false := closed
      have fills := fills_load closed' text
      exact ⟨fills.own, fills.others, fills.loader, fills.languages⟩

/-- Whatever is loaded on demand, a member that is loaded stays as it is. -/
theorem content?_ensureLoaded {content : Content} (held : set.content? other = some content) :
    (set.ensureLoaded uri).1.content? other = some content := by
  cases closed : set.isLoaded uri with
  | true =>
    unfold ensureLoaded
    rwa [if_pos closed]
  | false =>
    rw [(fills_ensureLoaded closed).others other ?_]
    · exact held
    · rintro rfl
      rw [content?_of_closed closed] at held
      cases held

theorem language?_of_get? {resource : Resource} (found : set.get? uri = some resource) :
    set.language? uri = resource.language := by
  unfold language?
  rw [found]
  rfl

theorem language?_of_absent (absent : set.get? uri = none) :
    set.language? uri = set.languages.for? uri := by
  unfold language?
  rw [absent]
  rfl

/-- A text is read into a resource that is not loaded exactly if its language is known; otherwise
nothing changes. -/
theorem load_of_closed (closed : set.isLoaded uri = false) (text : String) :
    match set.language? uri with
    | none => ∃ fault, set.load uri text = (set, .error fault)
    | some _ => ∃ report, (set.load uri text).2 = .ok report := by
  unfold load
  cases found : set.get? uri with
  | some resource =>
    have present : set.contains uri = true := by
      rw [contains, found]
      rfl
    rw [if_pos present, closed, if_neg Bool.false_ne_true, language?_of_get? found]
    unfold loadMember Resource.load
    rw [found]
    dsimp only
    cases resource.language with
    | none => exact ⟨_, rfl⟩
    | some language => exact ⟨_, rfl⟩
  | none =>
    have absent : set.contains uri = false := by
      rw [contains, found]
      rfl
    rw [absent, if_neg Bool.false_ne_true, language?_of_absent found]
    unfold create
    rw [absent, if_neg Bool.false_ne_true]
    cases known : set.languages.for? uri with
    | none => exact ⟨_, rfl⟩
    | some language =>
      have fresh : ({ set with serial := set.serial + 1 } : ResourceSet).contains uri = false := absent
      have missing : set.resources.find? (·.uri = uri) = none := found
      simp only [make, add, fresh, Bool.false_eq_true, if_false, loadMember, get?,
        List.find?_append, missing, Option.none_or, List.find?_singleton, decide_true, if_true,
        Resource.load]
      exact ⟨_, rfl⟩

-- A member that is loaded has been opened to before its language is asked for.
theorem load_of_loaded (loaded : set.isLoaded uri = true) (text : String) :
    match set.language? uri with
    | none => set.load uri text = (set.demoteInto uri, .error (.noLanguage uri))
    | some _ => ∃ report, (set.load uri text).2 = .ok report := by
  obtain ⟨content, held⟩ := isLoaded_iff.mp loaded
  obtain ⟨resource, found, _⟩ := Option.bind_eq_some_iff.mp held
  have present : set.contains uri = true := by
    rw [contains, found]
    rfl
  have found' : (set.demoteInto uri).get? uri = some resource := by
    rw [get?_demoteInto, if_pos rfl, found]
  unfold load loadMember Resource.load
  rw [if_pos present, if_pos loaded, language?_of_get? found, found']
  dsimp only
  cases resource.language with
  | none => rw [uri_of_get? found]
  | some language => exact ⟨_, rfl⟩

theorem isOk_load (text : String) : (set.load uri text).2.isOk = (set.language? uri).isSome := by
  cases loaded : set.isLoaded uri with
  | false =>
    have outcome := load_of_closed loaded text
    cases known : set.language? uri with
    | none =>
      rw [known] at outcome
      obtain ⟨fault, failed⟩ := outcome
      rw [failed]
      rfl
    | some language =>
      rw [known] at outcome
      obtain ⟨report, done⟩ := outcome
      rw [done]
      rfl
  | true =>
    have outcome := load_of_loaded loaded text
    cases known : set.language? uri with
    | none =>
      rw [known] at outcome
      rw [outcome]
      rfl
    | some language =>
      rw [known] at outcome
      obtain ⟨report, done⟩ := outcome
      rw [done]
      rfl

theorem ensureLoaded_of_loaded (loaded : set.isLoaded uri = true) :
    set.ensureLoaded uri = (set, .ok ()) := by
  unfold ensureLoaded
  rw [if_pos loaded]

/-- What cannot be had is asked for in vain. -/
theorem ensureLoaded_of_missing (closed : set.isLoaded uri = false)
    (missing : set.supply? uri = none) :
    ∃ requests fault, set.ensureLoaded uri = ({ set with requests }, .error fault) := by
  unfold ensureLoaded
  rw [closed, if_neg Bool.false_ne_true]
  cases asked : set.request uri with
  | mk after result =>
    have read := supply?_of_request asked
    obtain ⟨requests, rfl⟩ := request_eq asked
    cases result with
    | error fault => exact ⟨requests, fault, rfl⟩
    | ok text =>
      rw [missing] at read
      have unknown : ({ set with requests } : ResourceSet).language? uri = none :=
        Option.map_eq_none_iff.mp read.symm
      have outcome := @load_of_closed { set with requests } uri closed text
      rw [unknown] at outcome
      obtain ⟨fault, failed⟩ := outcome
      dsimp only
      rw [failed]
      exact ⟨requests, fault, rfl⟩

/-- What the loader has is loaded. -/
theorem isOk_ensureLoaded {content : Content} (closed : set.isLoaded uri = false)
    (had : set.supply? uri = some content) : (set.ensureLoaded uri).2.isOk = true := by
  unfold ensureLoaded
  rw [closed, if_neg Bool.false_ne_true]
  cases asked : set.request uri with
  | mk after result =>
    have read := supply?_of_request asked
    obtain ⟨requests, rfl⟩ := request_eq asked
    rw [had] at read
    cases result with
    | error fault => cases read
    | ok text =>
      obtain ⟨language, known, _⟩ := Option.map_eq_some_iff.mp read.symm
      have known' : ({ set with requests } : ResourceSet).language? uri = some language := known
      have outcome := @load_of_closed { set with requests } uri closed text
      rw [known'] at outcome
      obtain ⟨report, done⟩ := outcome
      dsimp only
      rw [done]
      rfl

/-- To load a resource on demand, no other member is touched. -/
theorem get?_ensureLoaded (apart : other ≠ uri) :
    (set.ensureLoaded uri).1.get? other = set.get? other := by
  unfold ensureLoaded
  split
  · rfl
  · next closed =>
    cases asked : set.request uri with
    | mk after result =>
      obtain ⟨requests, rfl⟩ := request_eq asked
      cases result with
      | error fault => rfl
      | ok text =>
        have closed : ¬ ({ set with requests } : ResourceSet).isLoaded uri = true := closed
        dsimp only
        unfold load
        rw [if_neg closed]
        split
        · exact get?_loadMember apart
        · cases made : ({ set with requests } : ResourceSet).create uri with
          | error fault => rfl
          | ok next =>
            have joined : next.get? other = set.get? other :=
              @get?_create { set with requests } next uri other made apart
            exact (get?_loadMember apart).trans joined

/-- What is held is kept, and else there is what the loader has. -/
theorem content?_ensureLoaded_self :
    (set.ensureLoaded uri).1.content? uri = (set.content? uri).or (set.supply? uri) := by
  cases closed : set.isLoaded uri with
  | true =>
    obtain ⟨content, held⟩ := isLoaded_iff.mp closed
    rw [ensureLoaded_of_loaded closed, held, Option.some_or]
  | false => rw [(fills_ensureLoaded closed).own, content?_of_closed closed, Option.none_or]

theorem isOk_ensureLoaded_eq :
    (set.ensureLoaded uri).2.isOk = (set.isLoaded uri || (set.supply? uri).isSome) := by
  cases closed : set.isLoaded uri with
  | true =>
    rw [ensureLoaded_of_loaded closed]
    rfl
  | false =>
    cases had : set.supply? uri with
    | some content => exact isOk_ensureLoaded closed had
    | none =>
      obtain ⟨requests, fault, asked⟩ := ensureLoaded_of_missing closed had
      rw [asked]
      rfl

/-- The resource is loaded, or it cannot be had. -/
def Steady (set : ResourceSet) (uri : ResourceUri) : Prop :=
  set.isLoaded uri = true ∨ set.supply? uri = none

/-- Asking for such a resource changes no member and loads nothing. -/
theorem Steady.ensureLoaded (steady : set.Steady uri) :
    ∃ requests result, set.ensureLoaded uri = ({ set with requests }, result) ∧
      (!set.isLoaded uri && result.isOk) = false := by
  cases loaded : set.isLoaded uri with
  | true => exact ⟨set.requests, .ok (), ensureLoaded_of_loaded loaded, rfl⟩
  | false =>
    have missing : set.supply? uri = none := steady.resolve_left (by simp [loaded])
    obtain ⟨requests, fault, asked⟩ := ensureLoaded_of_missing loaded missing
    exact ⟨requests, .error fault, asked, rfl⟩

theorem steady_of_bare (bare : set.loader = none) (uri : ResourceUri) : set.Steady uri := by
  right
  unfold supply?
  rw [bare]
  rfl

theorem uris_demoteInto : (set.demoteInto uri).uris = set.uris := by
  apply uris_map
  intro resource _
  split
  · rfl
  · exact resource.uri_update _

theorem uris_loadMember : (set.loadMember uri text).1.uris = set.uris := by
  unfold loadMember
  split
  · rfl
  · next resource found =>
    split
    · rfl
    · next loaded report done =>
      obtain ⟨language, _, rfl⟩ := Resource.load_ok done
      exact uris_modify fun _ _ => (uri_of_get? found :)

theorem uris_unload : (set.unload uri).1.uris = set.uris := by
  unfold unload
  split
  · exact uris_demoteInto.trans
      (uris_modify fun resource named => resource.uri_unload.trans named)
  · rfl

/-! ### Twins -/

/-- Sets that differ in the references that their members hold, but not in what can be loaded. -/
structure Twins (set next : ResourceSet) : Prop where
  alike : set.Alike next
  loader : next.loader = set.loader
  languages : ∀ uri, next.language? uri = set.language? uri

theorem Twins.refl (set : ResourceSet) : set.Twins set := ⟨.refl set, rfl, fun _ => rfl⟩

theorem Twins.trans (first : set.Twins next) (second : next.Twins last) : set.Twins last where
  alike := first.alike.trans second.alike
  loader := second.loader.trans first.loader
  languages uri := (second.languages uri).trans (first.languages uri)

theorem twins_modify {change : Resource → Resource}
    (keeps : ∀ resource : Resource, resource.uri = uri →
      (change resource).uri = uri ∧ (change resource).language = resource.language)
    (alike : set.Alike (set.modify uri change)) : set.Twins (set.modify uri change) :=
  ⟨alike, rfl, language?_modify keeps⟩

theorem twins_update {change? : Content → Option Content}
    (keeps : ∀ content after, set.content? uri = some content → change? content = some after →
      after.tree.shape = content.tree.shape) : set.Twins (set.modify uri (·.update change?)) :=
  twins_modify
    (fun resource named => ⟨(resource.uri_update _).trans named, resource.language_update _⟩)
    (alike_modify_update keeps)

namespace Twins

variable (twins : set.Twins next)
include twins

theorem isLoaded (uri : ResourceUri) : next.isLoaded uri = set.isLoaded uri := by
  have same := congrArg Option.isSome (twins.alike uri)
  rw [Option.isSome_map, Option.isSome_map] at same
  rw [Bool.eq_iff_iff, isLoaded_iff, isLoaded_iff, ← Option.isSome_iff_exists,
    ← Option.isSome_iff_exists, same]

theorem supply? (uri : ResourceUri) : next.supply? uri = set.supply? uri := by
  rw [ResourceSet.supply?, ResourceSet.supply?, twins.loader, reading?_of_languages twins.languages]

theorem steady (uri : ResourceUri) : next.Steady uri ↔ set.Steady uri := by
  unfold Steady
  rw [twins.isLoaded, twins.supply?]

/-- Twins stay twins when both load a resource. -/
theorem ensureLoaded (uri : ResourceUri) :
    (set.ensureLoaded uri).1.Twins (next.ensureLoaded uri).1 := by
  cases closed : set.isLoaded uri with
  | true =>
    unfold ResourceSet.ensureLoaded
    rw [if_pos closed, if_pos ((twins.isLoaded uri).trans closed)]
    exact twins
  | false =>
    have fills := fills_ensureLoaded closed
    have fills' := fills_ensureLoaded ((twins.isLoaded uri).trans closed)
    refine ⟨fun other => ?_, ?_, fun other => ?_⟩
    · by_cases here : other = uri
      · rw [here, fills.own, fills'.own, twins.supply?]
      · rw [fills.others other here, fills'.others other here]
        exact twins.alike other
    · rw [fills.loader, fills'.loader, twins.loader]
    · rw [fills.languages, fills'.languages, twins.languages]

end Twins

end Crosslink.ResourceSet
