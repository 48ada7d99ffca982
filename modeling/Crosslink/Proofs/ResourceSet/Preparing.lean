import Crosslink.Proofs.Linking.Reachable
import Crosslink.Proofs.Registry
import Crosslink.Proofs.ResourceSet.Languages
import Crosslink.Proofs.ResourceSet.Withdrawing

/-! What becomes of the resources that a set is prepared with.

Whether there is a language for a resource, and what the loader has for it, does
not depend on the resources that are prepared before it. So the lot of each is
known from the start. Members that are loaded keep their trees, in which only
references into resources that had to be removed are opened.
-/

set_option autoImplicit false

namespace Crosslink

inductive Lot where
  | loaded
  | unsupported
  | removed
  deriving DecidableEq

def Preparation.lot : Preparation → Lot
  | .loaded => .loaded
  | .unsupported => .unsupported
  | .removed _ => .removed

namespace ResourceSet

variable {set mid next : ResourceSet} {fallback : Option LanguageSource} {uri other : ResourceUri}
  {uris more : List ResourceUri}

/-- What is read from the text that the loader has for a resource: in the language of the member,
and else in the one that there is for it. -/
def offer? (set : ResourceSet) (fallback : Option LanguageSource) (uri : ResourceUri) :
    Option Content :=
  set.loader.bind fun loader => (loader uri).toOption.bind fun text =>
    (((set.get? uri).map (·.language)).getD (set.languageFor? fallback uri)).map fun language =>
      .ofParsed (language.parse text) (some (.ofText text))

/-- What becomes of a resource: without a language it is left alone, and it has to go if it is not
loaded and the loader has nothing for it. -/
def lot (set : ResourceSet) (fallback : Option LanguageSource) (uri : ResourceUri) : Lot :=
  match set.languageFor? fallback uri with
  | none => .unsupported
  | some _ => if set.isLoaded uri || (set.offer? fallback uri).isSome then .loaded else .removed

/-- What a resource holds when some have been prepared: what it held, or else, if it is one of these
and can be loaded, what the loader has for it. -/
def Brings (set : ResourceSet) (fallback : Option LanguageSource) (uris : List ResourceUri)
    (home : ResourceUri) (content : Content) : Prop :=
  set.content? home = some content ∨ set.content? home = none ∧ home ∈ uris ∧
    set.lot fallback home = .loaded ∧ set.offer? fallback home = some content

/-- The resource is not loaded, another one comes before it, and its text is read into what leads
there. -/
def Returns (set : ResourceSet) (fallback : Option LanguageSource) (uris : List ResourceUri)
    (uri home : ResourceUri) (slot : SlotKey) (target : Uri) : Prop :=
  set.isLoaded home = false ∧ home ∈ uris ∧ uris.idxOf uri < uris.idxOf home ∧
    ∃ origin, set.offer? fallback home = some origin ∧ origin.LeadsInto uri slot target

structure Prepared (fallback : Option LanguageSource) (set : ResourceSet) (uris : List ResourceUri)
    (next : ResourceSet) : Prop where
  grown : next.Grown
  registry : next.registry = set.registry
  loader : next.loader = set.loader
  languages : next.languageFor? fallback = set.languageFor? fallback
  /-- Others stay members, in their languages, and no others join. -/
  others : ∀ uri ∉ uris, (next.get? uri).map (·.language) = (set.get? uri).map (·.language)
  removed : ∀ uri ∈ uris, set.lot fallback uri = .removed → next.get? uri = none
  loaded : ∀ home, next.isLoaded home = true ↔
    set.isLoaded home = true ∨ home ∈ uris ∧ set.lot fallback home = .loaded
  origin : ∀ {home content}, next.content? home = some content →
    ∃ origin, set.Brings fallback uris home origin ∧ Content.Loosens uris origin content
  /-- What is there when a member goes opens its references into it. -/
  leads : ∀ uri ∈ uris, set.lot fallback uri = .removed → set.contains uri = true →
    ∀ home content, next.content? home = some content → ∀ slot target,
      content.LeadsInto uri slot target ↔ set.Returns fallback uris uri home slot target

theorem lot_of_known {language : Language} (known : set.languageFor? fallback uri = some language) :
    set.lot fallback uri =
      if set.isLoaded uri || (set.offer? fallback uri).isSome then .loaded else .removed := by
  rw [lot, known]

theorem lot_eq_loaded (loads : set.lot fallback uri = .loaded) :
    set.isLoaded uri = true ∨ ∃ content, set.offer? fallback uri = some content := by
  unfold lot at loads
  split at loads
  · cases loads
  · split at loads
    · next either => simpa [Option.isSome_iff_exists] using either
    · cases loads

theorem lot_eq_removed (gone : set.lot fallback uri = .removed) :
    set.isLoaded uri = false ∧ set.offer? fallback uri = none := by
  unfold lot at gone
  split at gone
  · cases gone
  · split at gone
    · cases gone
    · next neither => simpa using neither

namespace Prepared

theorem refl (grown : set.Grown) : set.Prepared fallback [] set where
  grown := grown
  registry := rfl
  loader := rfl
  languages := rfl
  others _ _ := rfl
  removed _ member := nomatch member
  loaded home := by simp
  origin held := ⟨_, .inl held, .refl _ _⟩
  leads _ member := nomatch member

section Fresh

variable (prepared : Prepared fallback set uris mid) (fresh : uri ∉ uris)
include prepared fresh

theorem contains : mid.contains uri = set.contains uri := by
  have same := congrArg Option.isSome (prepared.others uri fresh)
  rwa [Option.isSome_map, Option.isSome_map] at same

theorem isLoaded : mid.isLoaded uri = set.isLoaded uri := by
  rw [Bool.eq_iff_iff, prepared.loaded]
  simp [fresh]

theorem offer? : mid.offer? fallback uri = set.offer? fallback uri := by
  unfold ResourceSet.offer?
  rw [prepared.others uri fresh, prepared.loader, prepared.languages]

/-- What becomes of a resource does not depend on what is prepared before it. -/
theorem lot : mid.lot fallback uri = set.lot fallback uri := by
  unfold ResourceSet.lot
  rw [prepared.languages, prepared.isLoaded fresh, prepared.offer? fresh]

end Fresh

section Returns

variable {home : ResourceUri} {slot : SlotKey} {target : Uri}
  (first : Prepared fallback set uris mid)

/-- Whether a resource that was prepared with the first ones returns is settled by then. -/
theorem returns_of_early (early : uri ∈ uris) (listed : set.isLoaded home = false → home ∈ uris) :
    set.Returns fallback (uris ++ more) uri home slot target ↔
      set.Returns fallback uris uri home slot target := by
  refine and_congr_right fun closed => ?_
  rw [List.idxOf_append_of_mem early, List.idxOf_append_of_mem (listed closed)]
  simp [listed closed]

include first

/-- A text that is read later leads where it likes, also to what has gone before. -/
theorem returns_of_read {origin : Content} (early : uri ∈ uris) (fresh : home ∉ uris)
    (later : home ∈ more) (closed : mid.isLoaded home = false)
    (offered : mid.offer? fallback home = some origin) :
    set.Returns fallback (uris ++ more) uri home slot target ↔ origin.LeadsInto uri slot target := by
  have order : (uris ++ more).idxOf uri < (uris ++ more).idxOf home := by
    rw [List.idxOf_append_of_mem early, List.idxOf_append_of_notMem fresh]
    exact Nat.lt_add_right _ (List.idxOf_lt_length_iff.mpr early)
  simp [Returns, (first.isLoaded fresh).symm.trans closed, later, order,
    (first.offer? fresh).symm.trans offered]

/-- A resource that goes late can only return with the texts that are read after it. -/
theorem returns_of_late (fresh : uri ∉ uris) (apart : uris.Disjoint more) :
    set.Returns fallback (uris ++ more) uri home slot target ↔
      mid.Returns fallback more uri home slot target := by
  unfold Returns
  rw [List.idxOf_append_of_notMem fresh]
  by_cases earlier : home ∈ uris
  · have order : ¬ uris.length + more.idxOf uri < (uris ++ more).idxOf home := by
      have inside := List.idxOf_lt_length_iff.mpr earlier
      rw [List.idxOf_append_of_mem earlier]
      omega
    have listed : home ∉ more := apart earlier
    simp [order, listed]
  · rw [first.isLoaded earlier, first.offer? earlier, List.idxOf_append_of_notMem earlier]
    simp [earlier]

end Returns

/-- Resources are prepared, and then others. -/
theorem append (first : Prepared fallback set uris mid) (second : Prepared fallback mid more next)
    (apart : uris.Disjoint more) : Prepared fallback set (uris ++ more) next where
  grown := second.grown
  registry := second.registry.trans first.registry
  loader := second.loader.trans first.loader
  languages := second.languages.trans first.languages
  others uri absent := by
    rw [List.mem_append, not_or] at absent
    obtain ⟨early, late⟩ := absent
    exact (second.others uri late).trans (first.others uri early)
  removed uri member gone := by
    rcases List.mem_append.mp member with early | late
    · have kept := second.others uri (apart early)
      rwa [first.removed uri early gone, Option.map_none, Option.map_eq_none_iff] at kept
    · exact second.removed uri late ((first.lot (fun early => apart early late)).trans gone)
  loaded home := by
    rw [second.loaded, first.loaded, List.mem_append, or_assoc]
    refine or_congr_right ?_
    by_cases early : home ∈ uris
    · have late : home ∉ more := apart early
      simp [early, late]
    · simp [early, first.lot early]
  origin {home content} held := by
    obtain ⟨between, brought, loosened⟩ := second.origin held
    rcases brought with held' | ⟨closed, late, lot, offered⟩
    · obtain ⟨origin, earlier, loosened'⟩ := first.origin held'
      refine ⟨origin, earlier.imp_right fun ⟨closed, early, rest⟩ => ?_, loosened'.trans loosened⟩
      exact ⟨closed, List.mem_append_left _ early, rest⟩
    · have fresh : home ∉ uris := fun early => apart early late
      have before := (first.isLoaded fresh).symm.trans (isLoaded_eq_false_iff.mpr closed)
      exact ⟨between, .inr ⟨isLoaded_eq_false_iff.mp before, List.mem_append_right _ late,
        (first.lot fresh).symm.trans lot, (first.offer? fresh).symm.trans offered⟩,
        loosened.mono (List.subset_append_right uris more)⟩
  leads uri member gone present home content held slot target := by
    rcases List.mem_append.mp member with early | late
    · -- what has been opened stays open, and what is read later is not asked to open anything
      obtain ⟨between, brought, loosened⟩ := second.origin held
      rw [loosened.leads_iff (apart early)]
      rcases brought with held' | ⟨closed, later, _, offered⟩
      · rw [first.leads uri early gone present home between held' slot target]
        have stood := (first.loaded home).mp (isLoaded_iff.mpr ⟨between, held'⟩)
        exact (returns_of_early early fun closed => (stood.resolve_left (by simp [closed])).1).symm
      · have fresh : home ∉ uris := fun earlier => apart earlier later
        exact (first.returns_of_read early fresh later (isLoaded_eq_false_iff.mpr closed) offered).symm
    · have fresh : uri ∉ uris := fun early => apart early late
      rw [second.leads uri late ((first.lot fresh).trans gone) ((first.contains fresh).trans present)
        home content held slot target, first.returns_of_late fresh apart]

variable {home : ResourceUri} {content : Content} (prepared : Prepared fallback set uris next)
include prepared

/-- What is loaded stays loaded, with the same containment and attributes. -/
theorem kept (held : set.content? home = some content) :
    ∃ after, next.content? home = some after ∧ after.tree.shape = content.tree.shape := by
  have still := (prepared.loaded home).mpr (.inl (isLoaded_iff.mpr ⟨content, held⟩))
  obtain ⟨after, held'⟩ := isLoaded_iff.mp still
  obtain ⟨origin, brought, loosened⟩ := prepared.origin held'
  rcases brought with before | ⟨closed, _⟩
  · cases held.symm.trans before
    exact ⟨after, held', loosened.shape⟩
  · rw [held] at closed
    cases closed

end Prepared

/-! ### Preparing one resource -/

theorem lot_of_mem_singleton {lot : Lot} (own : set.lot fallback uri = lot) (listed : other ∈ [uri]) :
    set.lot fallback other = lot := by
  rw [List.mem_singleton.mp listed, own]

theorem Furnished.languageFor? (furnished : set.Furnished next) :
    next.languageFor? fallback = set.languageFor? fallback := by
  funext other
  rw [ResourceSet.languageFor?, furnished.languages]
  rfl

section Step

variable (grown : set.Grown)
include grown

/-- What the loader was asked for makes no difference, and neither does a language for an extension
if it is the one that the fallback has. -/
theorem prepared_provide {languages : Languages} {requests : List ResourceUri}
    (grows : ∀ uri language, set.languageFor? fallback uri = some language → language.Grows)
    (same : ({ set with languages } : ResourceSet).languageFor? fallback =
      set.languageFor? fallback) : Prepared fallback set [] { set with languages, requests } where
  grown := by
    refine ⟨grown.once, grown.members, fun uri language known => grows uri language ?_⟩
    have known : languages.for? uri = some language := known
    rw [← same, languageFor?, known, Option.some_or]
  registry := rfl
  loader := rfl
  languages := same
  others _ _ := rfl
  removed _ member := nomatch member
  loaded home := (or_iff_left fun listed => nomatch listed.1).symm
  origin held := ⟨_, .inl held, .refl _ _⟩
  leads _ member := nomatch member

theorem prepared_of_unsupported (without : set.lot fallback uri = .unsupported) :
    Prepared fallback set [uri] set where
  grown := grown
  registry := rfl
  loader := rfl
  languages := rfl
  others _ _ := rfl
  removed other listed gone := nomatch (lot_of_mem_singleton without listed).symm.trans gone
  loaded home := by
    refine (or_iff_left ?_).symm
    rintro ⟨listed, loads⟩
    exact nomatch (lot_of_mem_singleton without listed).symm.trans loads
  origin held := ⟨_, .inl held, .refl _ _⟩
  leads other listed gone := nomatch (lot_of_mem_singleton without listed).symm.trans gone

theorem prepared_ensureLoaded (loads : set.lot fallback uri = .loaded)
    (had : set.supply? uri = set.offer? fallback uri) :
    Prepared fallback set [uri] (set.ensureLoaded uri).1 := by
  have furnished := furnished_ensureLoaded set uri
  have own := @content?_ensureLoaded_self set uri
  have others : ∀ other ∉ [uri], (set.ensureLoaded uri).1.get? other = set.get? other :=
    fun other apart => get?_ensureLoaded fun here => apart (List.mem_singleton.mpr here)
  rw [had] at own
  exact
    { grown := grown_iff.mpr ((grown_iff.mp grown).ensureLoaded (fun uri fine => fine.demoted uri) uri)
      registry := furnished.registry
      loader := furnished.loader
      languages := furnished.languageFor?
      others := fun other apart => by rw [others other apart]
      removed := fun other listed gone =>
        nomatch (lot_of_mem_singleton loads listed).symm.trans gone
      loaded := by
        intro home
        by_cases here : home = uri
        · subst here
          refine iff_of_true ?_ (.inr ⟨List.mem_singleton_self _, loads⟩)
          rw [isLoaded_iff, own]
          rcases lot_eq_loaded loads with loaded | ⟨content, offered⟩
          · obtain ⟨content, held⟩ := isLoaded_iff.mp loaded
            exact ⟨content, by rw [held, Option.some_or]⟩
          · rw [offered]
            cases set.content? home with
            | none => exact ⟨content, rfl⟩
            | some held => exact ⟨held, rfl⟩
        · have apart : home ∉ [uri] := by simpa using here
          simp [isLoaded, others home apart, here]
      origin := by
        intro home content held
        refine ⟨content, ?_, .refl _ content⟩
        by_cases here : home = uri
        · subst here
          rw [own] at held
          cases before : set.content? home with
          | none =>
            rw [before, Option.none_or] at held
            exact .inr ⟨before, List.mem_singleton_self _, loads, held⟩
          | some earlier =>
            rw [before, Option.some_or] at held
            exact .inl (before.trans held)
        · have apart : home ∉ [uri] := by simpa using here
          exact .inl (by rwa [content?, ← others home apart])
      leads := fun other listed gone =>
        nomatch (lot_of_mem_singleton loads listed).symm.trans gone }

/-- Other members keep what they hold, but for references into the resource. -/
theorem content?_remove_of_ne {content : Content} (apart : other ≠ uri)
    (held : (set.remove uri).1.content? other = some content) :
    ∃ before, set.content? other = some before ∧ Content.Loosens [uri] before content ∧
      (set.contains uri = true → ∀ slot target, ¬ content.LeadsInto uri slot target) := by
  cases present : set.contains uri with
  | true =>
    rw [content?_remove present, if_neg apart] at held
    obtain ⟨before, held', rfl⟩ := Option.map_eq_some_iff.mp held
    have consistent := (grown.wellFormed held').consistent
    exact ⟨before, held', Content.loosens_demote consistent uri,
      fun _ _ _ => Content.not_leadsInto_demote consistent⟩
  | false =>
    rw [remove_of_absent present] at held
    exact ⟨content, held, .refl _ content, nofun⟩

theorem prepared_remove (gone : set.lot fallback uri = .removed) :
    Prepared fallback set [uri] (set.remove uri).1 := by
  have furnished := furnished_remove set uri
  have closed := (lot_eq_removed gone).1
  exact
    { grown := grown_iff.mpr ((grown_iff.mp grown).remove (fun uri fine => fine.demoted uri) uri)
      registry := furnished.registry
      loader := furnished.loader
      languages := furnished.languageFor?
      others := fun other apart => language_remove_of_ne (by simpa using apart)
      removed := by
        intro other listed _
        rw [List.mem_singleton.mp listed, get?_remove_self]
      loaded := by
        intro home
        by_cases here : home = uri
        · subst here
          have left : (set.remove home).1.isLoaded home = false := by
            rw [isLoaded, get?_remove_self]
            rfl
          simp [left, closed, gone]
        · simp [here, isLoaded_remove_of_ne here]
      origin := by
        intro home content held
        have apart : home ≠ uri := by
          rintro rfl
          simp [content?, get?_remove_self] at held
        obtain ⟨before, held', loosened, _⟩ := content?_remove_of_ne grown apart held
        exact ⟨before, .inl held', loosened⟩
      leads := by
        intro other listed _ present home content held slot target
        obtain rfl := List.mem_singleton.mp listed
        have apart : home ≠ other := by
          rintro rfl
          simp [content?, get?_remove_self] at held
        obtain ⟨_, _, _, free⟩ := content?_remove_of_ne grown apart held
        exact iff_of_false (free present slot target)
          fun returns => apart (List.mem_singleton.mp returns.2.1) }

/-- A resource is prepared as its lot is. -/
theorem prepared_prepareOne
    (grows : ∀ uri language, set.languageFor? fallback uri = some language → language.Grows)
    (uri : ResourceUri) : Prepared fallback set [uri] (set.prepareOne fallback uri).1 ∧
      (set.prepareOne fallback uri).2.lot = set.lot fallback uri := by
  have found := ensureLanguage_of_languageFor? set fallback uri
  unfold prepareOne
  cases known : set.languageFor? fallback uri with
  | none =>
    rw [known] at found
    have without : set.lot fallback uri = .unsupported := by
      rw [lot, known]
    rw [found]
    exact ⟨prepared_of_unsupported grown without, without.symm⟩
  | some language =>
    rw [known] at found
    obtain ⟨languages, ensured, spoken, same⟩ := found
    have ready : Prepared fallback set [] { set with languages } :=
      prepared_provide grown grows same
    have had : ({ set with languages } : ResourceSet).supply? uri =
        ({ set with languages } : ResourceSet).offer? fallback uri := by
      unfold supply? offer? reading? language?
      rw [same, known, spoken]
    have grows' : ∀ uri language, ({ set with languages } : ResourceSet).languageFor? fallback uri =
        some language → language.Grows := by
      rw [same]
      exact grows
    have kept := ready.lot (@List.not_mem_nil _ uri)
    have lot := kept.symm.trans (lot_of_known ((congrFun same uri).trans known))
    rw [← had, ← isOk_ensureLoaded_eq] at lot
    rw [ensured]
    dsimp only
    cases asked : ({ set with languages } : ResourceSet).ensureLoaded uri with
    | mk after result =>
      rw [asked] at lot
      cases result with
      | ok _ =>
        have loaded := prepared_ensureLoaded ready.grown (kept.trans lot) had
        rw [asked] at loaded
        exact ⟨ready.append loaded (List.disjoint_nil_left _), lot.symm⟩
      | error fault =>
        obtain ⟨closed, missing⟩ := lot_eq_removed (kept.trans lot)
        obtain ⟨requests, fault, failed⟩ := ensureLoaded_of_missing closed (had.trans missing)
        cases asked.symm.trans failed
        have tried : Prepared fallback { set with languages } [] { set with languages, requests } :=
          prepared_provide ready.grown grows' rfl
        have left := prepared_remove tried.grown ((tried.lot List.not_mem_nil).trans (kept.trans lot))
        exact ⟨ready.append (tried.append left (List.disjoint_nil_left _)) (List.disjoint_nil_left _),
          lot.symm⟩

end Step

end ResourceSet

/-! ### Preparing them all -/

structure PreparationReport.Enters (lot : ResourceUri → Lot) (uris : List ResourceUri)
    (before after : PreparationReport) : Prop where
  loaded : after.loaded = before.loaded ++ uris.filter (lot · = .loaded)
  unsupported : after.unsupported = before.unsupported ++ uris.filter (lot · = .unsupported)
  removed : after.removed.map (·.1) = before.removed.map (·.1) ++ uris.filter (lot · = .removed)

namespace PreparationReport.Enters

variable {lot : ResourceUri → Lot} {uris : List ResourceUri} {before after : PreparationReport}

theorem nil : before.Enters lot [] before := ⟨by simp, by simp, by simp⟩

theorem cons {uri : ResourceUri} {preparation : Preparation} (own : preparation.lot = lot uri)
    (rest : (before.enter uri preparation).Enters lot uris after) :
    before.Enters lot (uri :: uris) after := by
  obtain ⟨loaded, unsupported, removed⟩ := rest
  cases preparation with
  | loaded =>
    have own : lot uri = .loaded := own.symm
    constructor <;> simp [own, loaded, unsupported, removed, enter]
  | unsupported =>
    have own : lot uri = .unsupported := own.symm
    constructor <;> simp [own, loaded, unsupported, removed, enter]
  | removed error =>
    have own : lot uri = .removed := own.symm
    constructor <;> simp [own, loaded, unsupported, removed, enter]

theorem congr {other : ResourceUri → Lot} (enters : before.Enters lot uris after)
    (same : ∀ uri ∈ uris, lot uri = other uri) : before.Enters other uris after := by
  have filtered : ∀ kind, uris.filter (lot · = kind) = uris.filter (other · = kind) :=
    fun kind => List.filter_congr fun uri member => by rw [same uri member]
  exact ⟨filtered _ ▸ enters.loaded, filtered _ ▸ enters.unsupported, filtered _ ▸ enters.removed⟩

end PreparationReport.Enters

namespace ResourceSet

variable {set : ResourceSet} {fallback : Option LanguageSource} {uris : List ResourceUri}

theorem prepared_prepareAll (grown : set.Grown)
    (grows : ∀ uri language, set.languageFor? fallback uri = some language → language.Grows)
    (distinct : uris.Nodup) (report : PreparationReport) :
    Prepared fallback set uris (prepareAll fallback uris set report).1 ∧
      report.Enters (set.lot fallback) uris (prepareAll fallback uris set report).2 := by
  induction uris generalizing set report with
  | nil => exact ⟨.refl grown, .nil⟩
  | cons uri rest ih =>
    obtain ⟨fresh, distinct⟩ := List.nodup_cons.mp distinct
    have step := prepared_prepareOne grown grows uri
    rw [prepareAll]
    cases made : set.prepareOne fallback uri with
    | mk mid preparation =>
      rw [made] at step
      obtain ⟨first, own⟩ := step
      have apart : [uri].Disjoint rest := List.singleton_disjoint.mpr fresh
      have same : ∀ other ∈ rest, mid.lot fallback other = set.lot fallback other :=
        fun other later => first.lot fun here => apart here later
      obtain ⟨others, enters⟩ := ih first.grown (by rw [first.languages]; exact grows) distinct
        (report.enter uri preparation)
      exact ⟨first.append others apart, .cons own (enters.congr same)⟩

theorem package_mem_packagesInUse {resource : Resource} {language : Language}
    (member : resource ∈ set.resources) (loaded : resource.isLoaded = true)
    (spoken : resource.language = some language) : language.package ∈ set.packagesInUse :=
  List.mem_filterMap.mpr ⟨resource, List.mem_filter.mpr ⟨member, loaded⟩, by rw [spoken]; rfl⟩

theorem prepare_eq : set.prepare fallback uris =
    let (mid, report) := prepareAll fallback uris set {}
    let registered := mid.registry.registerAll mid.packagesInUse
    ({ mid with registry := registered.1 }, { report with packages := registered.2 }) := rfl

/-- A set is prepared with resources, each named once. Of each, its lot is known from the start, and
is told in the order of the resources: the first are in the set and loaded, the last are not in it.
All that was loaded stays loaded, with the same containment and attributes. A reference that can be
reached leads into a member that had to be removed just if a text that was read later has it so: what
is there when the member goes is opened. The packages of all languages in use are registered, those that
were there stay in place, and the others are counted. -/
theorem prepare_exact (grown : set.Grown)
    (grows : ∀ uri language, set.languageFor? fallback uri = some language → language.Grows)
    (distinct : uris.Nodup) :
    let next := (set.prepare fallback uris).1
    let report := (set.prepare fallback uris).2
    let gone := report.removed.map (·.1)
    (report.loaded = uris.filter (set.lot fallback · = .loaded) ∧
      report.unsupported = uris.filter (set.lot fallback · = .unsupported) ∧
      gone = uris.filter (set.lot fallback · = .removed)) ∧
    (∀ uri ∈ report.loaded, next.contains uri = true ∧ next.isLoaded uri = true) ∧
    (∀ uri ∈ gone, next.contains uri = false) ∧
    (∀ home content, set.content? home = some content →
      ∃ after, next.content? home = some after ∧ after.tree.shape = content.tree.shape) ∧
    (∀ uri ∈ gone, set.contains uri = true → ∀ home content, next.content? home = some content →
      ∀ slot target,
        content.LeadsInto uri slot target ↔ set.Returns fallback uris uri home slot target) ∧
    (∀ resource ∈ next.resources, resource.isLoaded = true → ∀ language,
      resource.language = some language → next.registry.contains language.package.nsUri = true) ∧
    set.registry.GrowsTo next.registry ∧
    next.registry.packages.size = set.registry.packages.size + report.packages := by
  obtain ⟨prepared, enters⟩ := prepared_prepareAll grown grows distinct {}
  rw [prepare_eq]
  generalize prepareAll fallback uris set {} = run at prepared enters ⊢
  obtain ⟨mid, told⟩ := run
  have loaded : told.loaded = uris.filter (set.lot fallback · = .loaded) := enters.loaded
  have removed : told.removed.map (·.1) = uris.filter (set.lot fallback · = .removed) :=
    enters.removed
  have same : mid.registry = set.registry := prepared.registry
  have grows := Registry.growsTo_registerAll mid.registry mid.packagesInUse
  have size := Registry.size_registerAll mid.registry mid.packagesInUse
  nth_rewrite 1 [same] at grows
  nth_rewrite 2 [same] at size
  refine ⟨⟨loaded, enters.unsupported, removed⟩, fun uri listed => ?_, fun uri listed => ?_,
    fun home content held => prepared.kept held, fun uri listed present home content held => ?_,
    fun resource member held language spoken => ?_, grows, size⟩
  · rw [loaded, List.mem_filter, decide_eq_true_eq] at listed
    have stands : mid.isLoaded uri = true := (prepared.loaded uri).mpr (.inr listed)
    exact ⟨contains_of_isLoaded stands, stands⟩
  · rw [removed, List.mem_filter, decide_eq_true_eq] at listed
    have missing : mid.get? uri = none := prepared.removed uri listed.1 listed.2
    exact Option.isSome_eq_false_iff.mpr (Option.isNone_iff_eq_none.mpr missing)
  · rw [removed, List.mem_filter, decide_eq_true_eq] at listed
    exact prepared.leads uri listed.1 listed.2 present home content held
  · exact Registry.contains_registerAll (package_mem_packagesInUse member held spoken)

/-! ### A member that cannot be loaded any more -/

def lateUri : ResourceUri := ⟨"late.types"⟩

def farUri : ResourceUri := ⟨"far.tps"⟩

def unknownUri : ResourceUri := ⟨"unknown"⟩

def lostUri : ResourceUri := ⟨"lost.types"⟩

def wanted : List ResourceUri := [userUri, lateUri, oneUri, unknownUri, farUri, lostUri]

def forsaken : ResourceSet :=
  let types : ResourceSet := { languages := ({} : Languages).register Types.language }
  let bound := (((types.load userUri "type A").1.load oneUri "").1.unload oneUri).1.edit userUri
    fun tree => (tree.run [.setReference 1 "extends" (.bound oneUri.rootUri)], ())
  { bound.1 with
    languages := ({} : Languages).register Types.language
    loader := some fun uri =>
      if uri = lateUri then .ok "type E" else if uri = farUri then .ok "type F"
      else .error (.resourceNotFound uri) }

def typesFallback : LanguageSource := fun extension =>
  if extension = "tps" then some Types.language else none

theorem forsaken_language {uri : ResourceUri} {language : Language}
    (known : forsaken.languageFor? (some typesFallback) uri = some language) :
    language = Types.language := by
  unfold languageFor? at known
  rw [Option.or_eq_some_iff, Option.bind_some] at known
  rcases known with own | ⟨_, supplied⟩
  · exact (Types.speaks_empty {}).known own
  · obtain ⟨extension, _, found⟩ := Option.bind_eq_some_iff.mp supplied
    rw [typesFallback] at found
    split at found
    · exact (Option.some.inj found).symm
    · cases found

theorem forsaken_reachable : forsaken.Reachable := by
  refine .provide (.edit (.unload (.load (.load .types userUri _) oneUri _) oneUri) userUri _)
    _ _ _ fun uri language known => ?_
  cases (Types.speaks_empty {}).known known
  exact Types.language_grows

/-- What the loader has is loaded, and what was bound to the text that is lost waits again. -/
theorem prepare_forsaken : forsaken.Grown ∧ wanted.Nodup ∧
    let next := (forsaken.prepare (some typesFallback) wanted).1
    let report := (forsaken.prepare (some typesFallback) wanted).2
    report.loaded = [userUri, lateUri, farUri] ∧ report.unsupported = [unknownUri] ∧
      report.removed.map (·.1) = [oneUri, lostUri] ∧
      (forsaken.content? userUri).map (·.boundInto oneUri) =
        some [(⟨1, 1, none⟩, oneUri.rootUri)] ∧
      ∀ home ∈ [userUri, farUri], ∃ content, next.content? home = some content ∧
        ∀ slot target, ¬ content.LeadsInto oneUri slot target := by
  have grows : ∀ uri language, forsaken.languageFor? (some typesFallback) uri = some language →
      language.Grows := by
    intro uri language known
    cases forsaken_language known
    exact Types.language_grows
  have distinct : wanted.Nodup := by decide
  obtain ⟨⟨loaded, unsupported, removed⟩, stands, _, _, leads_iff, _⟩ :=
    prepare_exact forsaken_reachable.grown grows distinct
  -- what is asked of the set before it is prepared, in one evaluation
  have seen : (wanted.filter (forsaken.lot (some typesFallback) · = .loaded),
      wanted.filter (forsaken.lot (some typesFallback) · = .unsupported),
      wanted.filter (forsaken.lot (some typesFallback) · = .removed),
      (forsaken.content? userUri).map (·.boundInto oneUri), forsaken.contains oneUri,
      forsaken.isLoaded userUri) =
    ([userUri, lateUri, farUri], [unknownUri], [oneUri, lostUri],
      some [(⟨1, 1, none⟩, oneUri.rootUri)], true, true) := by
    cbv
  simp only [Prod.mk.injEq] at seen
  obtain ⟨ready, strange, lost, bound, known, stood⟩ := seen
  have gone := removed.trans lost
  refine ⟨forsaken_reachable.grown, distinct, loaded.trans ready, unsupported.trans strange, gone,
    bound, fun home listed => ?_⟩
  have member : home ∈ (forsaken.prepare (some typesFallback) wanted).2.loaded := by
    rw [loaded, ready]
    exact List.subset_def.mp (by simp) listed
  obtain ⟨content, held⟩ := isLoaded_iff.mp (stands home member).2
  refine ⟨content, held, fun slot target leads => ?_⟩
  obtain ⟨closed, _, _, origin, found, leads⟩ :=
    (leads_iff oneUri (by simp [gone]) known home content held slot target).mp leads
  rcases List.mem_pair.mp listed with rfl | rfl
  · rw [stood] at closed
    cases closed
  · have offered : forsaken.offer? (some typesFallback) farUri =
        some (.ofParsed (Types.parse "type F") (some (.ofText "type F"))) := by cbv
    obtain rfl := Option.some.inj (offered.symm.trans found)
    exact Content.not_leadsInto_of_parse leads

/-! ### A text that leads back -/

def vanishedUri : ResourceUri := ⟨"vanished.xt"⟩

def freshUri : ResourceUri := ⟨"fresh.xt"⟩

def bindingTypes : Language :=
  { Types.language with
    extensions := ["xt"]
    parse := fun text => { Types.parse text with
      tree := (Types.parse text).tree.run
        [.setReference 1 "extends" (.bound vanishedUri.rootUri)] } }

def bindingLanguages : Languages := ({} : Languages).register bindingTypes

theorem bindingTypes_grows {uri : ResourceUri} {language : Language}
    (known : bindingLanguages.for? uri = some language) : language.Grows := by
  have entered := @Languages.for?_registerExtension {} bindingTypes freshUri "xt" (by decide) uri
  have known := entered.symm.trans known
  split at known
  · cases known
    exact fun text => (Types.language_grows text).run _
  · obtain ⟨_, _, found⟩ := Option.bind_eq_some_iff.mp known
    cases found

def recalled : ResourceSet :=
  let start : ResourceSet := { languages := bindingLanguages }
  { ((start.load vanishedUri "").1.unload vanishedUri).1 with
    languages := bindingLanguages
    loader := some fun uri =>
      if uri = freshUri then .ok "type A" else .error (.resourceNotFound uri) }

theorem recalled_reachable : recalled.Reachable :=
  .provide (.unload (.load (.provide .start {} bindingLanguages none fun _ _ => bindingTypes_grows)
    vanishedUri _) vanishedUri) {} bindingLanguages _ fun _ _ => bindingTypes_grows

def recalledPrepared : ResourceSet × PreparationReport :=
  recalled.prepare none [vanishedUri, freshUri]

/-- What goes first is led into by what is read next. -/
theorem prepare_recalled : recalled.Reachable ∧ recalled.contains vanishedUri = true ∧
    recalledPrepared.2.loaded = [freshUri] ∧
    recalledPrepared.2.removed.map (·.1) = [vanishedUri] ∧
    ∃ content, recalledPrepared.1.content? freshUri = some content ∧
      content.LeadsInto vanishedUri ⟨1, 1, none⟩ vanishedUri.rootUri := by
  have seen : (recalled.contains vanishedUri, recalledPrepared.2.loaded,
      recalledPrepared.2.removed.map (·.1),
      (recalledPrepared.1.content? freshUri).map fun content =>
        (content.tree.root, content.tree.contents 0, content.tree.referenceAt? ⟨1, 1, none⟩,
          (content.tree.feature? 1 1).map (·.isMany))) =
    (true, [freshUri], [vanishedUri],
      some (some 0, [1], some (.bound vanishedUri.rootUri), some false)) := by
    cbv
  simp only [Prod.mk.injEq] at seen
  obtain ⟨present, loaded, removed, seen⟩ := seen
  obtain ⟨content, held, fields⟩ := Option.map_eq_some_iff.mp seen
  simp only [Prod.mk.injEq] at fields
  obtain ⟨rooted, below, bound, single⟩ := fields
  obtain ⟨feature, declared, one⟩ := Option.map_eq_some_iff.mp single
  have reached : content.tree.Reaches 1 := .child (.root rooted) (by simp [below])
  exact ⟨recalled_reachable, present, loaded, removed, content, held,
    reached, ⟨feature, declared, one.symm⟩, bound, rfl⟩

end ResourceSet

end Crosslink
