import Crosslink.Proofs.Linking.Simultaneous

/-! Runs that are stopped and taken up again.

The second run begins with the first resource again. It visits what the first
one left open, which changes nothing, and then all that the first one did not
come to. Together they do what one run does.
-/

set_option autoImplicit false

namespace Crosslink

open Linking

namespace ResourceSet

variable {set : ResourceSet} {judge : ResourceUri → Pending → Verdict}
  {entries : List (ResourceUri × Pending)}

/-- What was left open stays as it is when it is settled once more. -/
theorem settleAll_again (once : set.uris.Nodup) :
    (set.settleAll judge entries).settleAll judge
        (entries.filter fun entry => !set.closedIn judge entries entry) =
      set.settleAll judge entries := by
  rw [settleAll_eq, @settleAll_eq set]
  dsimp only
  rw [List.map_map]
  congr 1
  apply List.map_congr_left
  intro resource member
  have held := content?_of_mem once member
  rw [Function.comp_apply, Resource.uri_settleAll]
  cases filled : resource.content with
  | none => rw [Resource.settleAll_of_closed filled, Resource.settleAll_of_closed filled]
  | some content =>
    rw [filled] at held
    have same : judged judge resource.uri
        (entries.filter fun entry => !set.closedIn judge entries entry) =
          (content.left (judged judge resource.uri entries)).map
            fun pending => (pending, judge resource.uri pending) := by
      unfold Content.left
      have listed : (judged judge resource.uri entries).map (·.1) =
          (entries.filter (·.1 = resource.uri)).map (·.2) := by
        unfold judged
        rw [List.map_map]
        rfl
      rw [listed, List.filter_map, List.map_map, judged, List.filter_filter, List.filter_filter]
      congr 1
      apply List.filter_congr
      rintro ⟨uri, pending⟩ _
      by_cases here : uri = resource.uri
      · simp [closedIn, here, held]
      · simp [here]
    rw [same]
    apply Resource.settleAll_again
    · rw [Resource.content_settleAll, filled]
      rfl
    · intro entry settled _
      obtain ⟨before, _, rfl⟩ := List.mem_map.mp settled
      exact .inl rfl

/-- No two references that wait have one slot. -/
theorem nodup_agenda (once : set.uris.Nodup)
    (distinct : ∀ resource ∈ set.resources, (resource.pending.map (·.slot)).Nodup) :
    (set.agenda.map fun entry => (entry.1, entry.2.slot)).Nodup := by
  have keys : (set.agenda.map fun entry => (entry.1, entry.2.slot)) =
      set.resources.flatMap fun resource =>
        resource.pending.map fun pending => (resource.uri, pending.slot) := by
    unfold agenda Resource.agenda
    simp only [List.map_flatMap, List.map_map]
    rfl
  rw [keys, List.nodup_flatMap]
  constructor
  · intro resource member
    have slots := distinct resource member
    exact List.pairwise_map.mpr ((List.pairwise_map.mp slots).imp
      fun apart same => apart (Prod.mk.inj same).2)
  · apply (List.pairwise_map.mp once).imp
    intro first second apart
    simp only [Function.onFun, List.disjoint_left, List.mem_map]
    rintro _ ⟨pending, _, rfl⟩ ⟨other, _, same⟩
    exact apart (Prod.mk.inj same).1.symm

end ResourceSet

namespace Linking

variable {scope : Scope} {set : ResourceSet} {count : Nat}

/-- What was left open by the verdicts of a set is not closed by them. -/
theorem countP_closing_left (entries : List (ResourceUri × Pending)) :
    (entries.filter fun entry => !set.closedIn (verdict scope set) entries entry).countP
      (closing scope set) = 0 := by
  rw [List.countP_eq_zero]
  intro entry member closes
  obtain ⟨earlier, isOpen⟩ := List.mem_filter.mp member
  rw [Bool.not_eq_true', ResourceSet.closedIn] at isOpen
  unfold closing at closes
  cases held : set.content? entry.1 with
  | none =>
    rw [held] at closes
    cases closes
  | some content =>
    rw [held] at closes isOpen
    have listed : (entry.2, verdict scope set entry.1 entry.2) ∈
        ResourceSet.judged (verdict scope set) entry.1 entries :=
      List.mem_map.mpr ⟨entry, List.mem_filter.mpr ⟨earlier, decide_eq_true rfl⟩, rfl⟩
    have idle := List.any_eq_false.mp isOpen _ listed
    have closes : content.closes entry.2 (verdict scope set entry.1 entry.2) = true := closes
    simp [closes] at idle

section Cut

variable {first rest : List (ResourceUri × Pending)} {after : ResourceSet}
  (once : set.uris.Nodup)
  (distinct : ∀ resource ∈ set.resources, (resource.pending.map (·.slot)).Nodup)
  (cut : set.agenda = first ++ rest) (yields : Yields scope set first after)

include once distinct cut in
/-- What was not visited has slots of its own. -/
theorem slots_apart (judge : ResourceUri → Pending → Verdict) {entry : ResourceUri × Pending}
    (later : entry ∈ rest) :
    ∀ judged ∈ ResourceSet.judged judge entry.1 first, judged.1.slot ≠ entry.2.slot := by
  intro judged member same
  obtain ⟨other, among, rfl⟩ := List.mem_map.mp member
  obtain ⟨earlier, here⟩ := List.mem_filter.mp among
  have keys := ResourceSet.nodup_agenda once distinct
  rw [cut, List.map_append, List.nodup_append] at keys
  exact keys.2.2 _ (List.mem_map_of_mem earlier) _ (List.mem_map_of_mem later)
    (Prod.ext (of_decide_eq_true here) same)

include once distinct cut yields

/-- What was not visited waits on, and nothing new is noted of it. -/
theorem untouched {entry : ResourceUri × Pending} (later : entry ∈ rest) :
    ∃ content content', set.content? entry.1 = some content ∧
      after.content? entry.1 = some content' ∧ entry.2 ∈ content'.pending ∧
      ∀ diagnostic, (entry.2.slot, diagnostic) ∈ content'.linkDiagnostics.entries ↔
        (entry.2.slot, diagnostic) ∈ content.linkDiagnostics.entries := by
  obtain ⟨content, held, waits⟩ :=
    ResourceSet.content_of_agenda once (show entry ∈ set.agenda by simp [cut, later])
  have settled := yields.content? entry.1
  rw [held] at settled
  have apart := slots_apart once distinct cut (verdict scope set) later
  refine ⟨content, _, held, settled, ?_, fun diagnostic => Content.noted_settleAll_of_ne apart⟩
  rw [Content.pending_settleAll]
  refine List.mem_filter.mpr ⟨waits, ?_⟩
  rw [Bool.not_eq_true']
  apply List.any_eq_false.mpr
  intro judged member
  simp [apart judged member]

end Cut

end Linking

end Crosslink
