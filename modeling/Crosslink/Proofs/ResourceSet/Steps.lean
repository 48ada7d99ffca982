import Crosslink.Proofs.ResourceSet.Members

/-! The steps that operations of a set consist of.

A text is read into a member, which is made or whose references are opened before. A member that
goes away is emptied or left out, and the references into it are opened. What these steps keep is
kept by the operations.
-/

set_option autoImplicit false

namespace Crosslink.ResourceSet

variable {motive : ResourceSet → Prop} {set : ResourceSet}

theorem ensureLoaded_induction
    (asks : ∀ {set : ResourceSet} requests, motive set → motive { set with requests })
    (loads : ∀ {set : ResourceSet} uri text, motive set → motive (set.load uri text).1)
    (start : motive set) (uri : ResourceUri) : motive (set.ensureLoaded uri).1 := by
  unfold ensureLoaded
  split
  · exact start
  · cases asked : set.request uri with
    | mk after result =>
      obtain ⟨requests, rfl⟩ := request_eq asked
      cases result with
      | error fault => exact asks requests start
      | ok text => exact loads uri text (asks requests start)

/-- Following an address changes a set as loading its resource does. -/
theorem fst_fetch (set : ResourceSet) (target : Uri) :
    (set.fetch target).1 = (set.ensureLoaded target.resource).1 := by
  unfold fetch
  split
  · next loaded _ done => rw [done]
  · next loaded done => rw [done]

section Opening

variable (opens : ∀ {set : ResourceSet} uri, motive set → motive (set.demoteInto uri))
include opens

theorem load_induction
    (creates : ∀ {set next : ResourceSet} {uri}, motive set → set.create uri = .ok next → motive next)
    (reads : ∀ {set : ResourceSet} uri text, motive set → motive (set.loadMember uri text).1)
    (start : motive set) (uri : ResourceUri) (text : String) : motive (set.load uri text).1 := by
  unfold load
  split
  · split
    · exact reads uri text (opens uri start)
    · exact reads uri text start
  · cases made : set.create uri with
    | error fault => exact start
    | ok next => exact reads uri text (creates start made)

theorem unload_induction
    (empties : ∀ {set : ResourceSet} uri, motive set → motive (set.modify uri Resource.unload))
    (start : motive set) (uri : ResourceUri) : motive (set.unload uri).1 := by
  unfold unload
  split
  · exact opens uri (empties uri start)
  · exact start

theorem remove_induction
    (drops : ∀ {set : ResourceSet} uri, motive set →
      motive { set with resources := set.resources.filter (·.uri ≠ uri) })
    (start : motive set) (uri : ResourceUri) : motive (set.remove uri).1 := by
  unfold remove
  split
  · exact start
  · exact opens uri (drops uri start)

end Opening

end Crosslink.ResourceSet
