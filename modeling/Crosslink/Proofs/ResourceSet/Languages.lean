import Crosslink.Preparation
import Crosslink.Proofs.OrderedMap
import Crosslink.Proofs.Text.Splitting
import Mathlib.Data.List.TakeWhile

/-! The languages that there are for resources.

A language that a fallback has is registered for an extension where there was
none. Every other resource has the language that it had, or would have had.
-/

set_option autoImplicit false

namespace Crosslink

theorem ResourceUri.not_mem_extension? {uri : ResourceUri} {extension : String}
    (named : uri.extension? = some extension) : '.' ∉ extension.toList := by
  unfold extension? at named
  split at named
  · next cut =>
    split at named
    · cases named
    · cases named
      rw [String.toList_ofList]
      exact Text.not_mem_of_splitLast cut
  · cases named

theorem Languages.for?_registerExtension {languages : Languages} {language : Language}
    {uri : ResourceUri} {extension : String} (named : uri.extension? = some extension)
    (other : ResourceUri) : (languages.registerExtension extension language).for? other =
      if other.extension? = some extension then some language else languages.for? other := by
  have whole : extension.toList.dropWhile (· = '.') = extension.toList := by
    rw [List.dropWhile_eq_self_iff]
    intro long first
    exact ResourceUri.not_mem_extension? named (of_decide_eq_true first ▸ List.getElem_mem long)
  unfold for? registerExtension
  rw [whole, String.ofList_toList]
  cases other.extension? with
  | none => rfl
  | some key => simp [forExtension?, OrderedMap.get?_insert]

namespace ResourceSet

def languageFor? (set : ResourceSet) (fallback : Option LanguageSource) (uri : ResourceUri) :
    Option Language :=
  (set.languages.for? uri).or (fallback.bind fun source => uri.extension?.bind source)

/-- The language of a resource is found where there is one, and that of all others is what it was. -/
theorem ensureLanguage_of_languageFor? (set : ResourceSet) (fallback : Option LanguageSource)
    (uri : ResourceUri) : match set.languageFor? fallback uri with
      | none => set.ensureLanguage fallback uri = (set, false)
      | some language => ∃ languages,
          set.ensureLanguage fallback uri = ({ set with languages }, true) ∧
          languages.for? uri = some language ∧
          ({ set with languages } : ResourceSet).languageFor? fallback = set.languageFor? fallback := by
  unfold ensureLanguage Languages.supports
  cases known : set.languages.for? uri with
  | some language =>
    have own : set.languageFor? fallback uri = some language := by
      rw [languageFor?, known, Option.some_or]
    rw [own]
    exact ⟨set.languages, rfl, known, rfl⟩
  | none =>
    have own : set.languageFor? fallback uri =
        fallback.bind fun source => uri.extension?.bind source := by
      rw [languageFor?, known, Option.none_or]
    rw [own]
    cases fallback with
    | none => rfl
    | some source =>
      cases named : uri.extension? with
      | none => rfl
      | some extension =>
        cases found : source extension with
        | none => simp [found]
        | some language =>
          have learned := @Languages.for?_registerExtension set.languages language uri extension named
          simp only [Option.bind_some, found, Option.map_some]
          refine ⟨_, rfl, by rw [learned, if_pos named], ?_⟩
          funext other
          unfold languageFor?
          dsimp only
          rw [learned]
          split
          · next same =>
            -- a resource of the same extension had no language either, but the fallback had it
            have unknown : set.languages.for? other = none := by
              unfold Languages.for? at known ⊢
              rw [same, ← named, known]
            simp [unknown, same, found]
          · rfl

end ResourceSet

end Crosslink
