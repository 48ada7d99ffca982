import Crosslink.Proofs.Linking.Supplying

/-! Bound references under linking.

Linking goes by what waits, and not by what stands in the tree. A bound
reference is therefore kept where nothing waits for its place. What still waits
for a place that has been filled by other means is linked all the same.
-/

set_option autoImplicit false

namespace Crosslink

namespace Linking

variable {scope : Scope} {set : ResourceSet} {home other : ResourceUri} {pending : Pending}
  {slot : SlotKey} {target : Uri} {content : Content}

-- Binding an open reference changes the value of its own place only.
theorem referenceAt?_bind (warning : Option Diagnostic) :
    ((content.bind? pending target warning).getD content).tree.referenceAt? slot =
      if slot.place = pending.slot.place then
        (content.tree.referenceAt? pending.slot).map fun _ => .bound target
      else content.tree.referenceAt? slot := by
  cases done : content.bind? pending target warning with
  | none =>
    have absent : content.tree.referenceAt? pending.slot = none := by
      rw [← Option.not_isSome_iff_eq_none]
      intro present
      have filled : (content.bind? pending target warning).isSome = true :=
        Content.isSome_bind? present
      simp [done] at filled
    rw [Option.getD_none, absent, Option.map_none]
    split
    · next same => rw [Tree.referenceAt?_of_place same, absent]
    · rfl
  | some after =>
    obtain ⟨_, replaced, _, _⟩ := Content.bind?_eq_some done
    rw [Option.getD_some, replaced, Tree.referenceAt?_replaceReference]

theorem pending_bind (warning : Option Diagnostic) :
    ((content.bind? pending target warning).getD content).pending ⊆ content.pending := by
  cases done : content.bind? pending target warning with
  | none => exact fun _ member => member
  | some after =>
    obtain ⟨_, _, filtered, _⟩ := Content.bind?_eq_some done
    rw [Option.getD_some, filtered]
    exact List.filter_subset_self _

/-- If the visit means the place, it finds no node but the target. -/
def Harmless (scope : Scope) (set : ResourceSet) (home : ResourceUri) (pending : Pending)
    (slot : SlotKey) (target : Uri) : Prop :=
  pending.slot.place = slot.place → ∀ {site feature found uris candidate},
    context? set home pending = some (site, feature) →
    candidates scope set home site feature pending.proxy = (found, uris) →
    candidate ∈ uris → conforms found.set feature candidate = true → candidate = target

-- A visit does not look at what stands in the place. A bound reference is safe from it only if the
-- visit is harmless.
theorem kept_by_resolve (held : set.content? home = some content)
    (bound : content.tree.referenceAt? slot = some (.bound target))
    (harmless : other = home → Harmless scope set home pending slot target) :
    ∃ after, (resolve scope set other pending).set.content? home = some after ∧
      after.tree.referenceAt? slot = some (.bound target) ∧ after.pending ⊆ content.pending := by
  by_cases here : home = other
  · subst here
    have outcome := resolves scope set home pending
    generalize (resolve scope set home pending).set = after at outcome ⊢
    cases outcome with
    | passed lost => exact ⟨content, held, bound, fun _ member => member⟩
    | reported here asked fruitless =>
      obtain ⟨names, kept⟩ := content?_candidates asked held
      rw [content?_reportAt, if_pos rfl, kept]
      exact ⟨_, rfl, bound, fun _ member => member⟩
    | @bound site feature found uris candidate warning here asked member fits warns =>
      obtain ⟨names, kept⟩ := content?_candidates asked held
      rw [content?_bindAt, if_pos rfl, kept]
      refine ⟨_, rfl, ?_, pending_bind warning⟩
      rw [referenceAt?_bind]
      split
      · next same =>
        cases harmless rfl same.symm here asked member fits
        rw [← Tree.referenceAt?_of_place same]
        exact congrArg (Option.map _) bound
      · exact bound
  · refine ⟨content, ?_, bound, fun _ member => member⟩
    rw [content?_resolve_of_ne here]
    exact content?_supplied held

def Settled (home : ResourceUri) (slot : SlotKey) (target : Uri) (set : ResourceSet) : Prop :=
  ∃ content, set.content? home = some content ∧
    content.tree.referenceAt? slot = some (.bound target) ∧
    ∀ pending ∈ content.pending, pending.slot.place ≠ slot.place

theorem settled_of_resolve (apart : other = home → pending.slot.place ≠ slot.place)
    (settled : Settled home slot target set) :
    Settled home slot target (resolve scope set other pending).set := by
  obtain ⟨content, held, bound, free⟩ := settled
  obtain ⟨after, kept, bound', fewer⟩ := kept_by_resolve held bound
    fun here same => absurd same (apart here)
  exact ⟨after, kept, bound', fun pending member => free pending (fewer member)⟩

/-- Linking keeps a place bound for which nothing waits, wherever it stops. -/
theorem settled_of_link (stop : Progress → Bool) (turns : Nat)
    (settled : Settled home slot target set) :
    Settled home slot target (linkWithin scope stop turns set) := by
  -- what waits when the turn of a resource comes is all that its turn visits
  refine @linkWithin_induction scope set (Settled home slot target)
    (fun other _ entries => ∀ pending ∈ entries, other = home → pending.slot.place ≠ slot.place)
    stop ?_ ?_ turns settled
  · rintro set other ⟨content, held, _, free⟩ pending member rfl
    exact free pending (waiting_eq held ▸ member)
  · intro set other pending rest settled apart
    exact ⟨settled_of_resolve (apart pending List.mem_cons_self) settled,
      fun later member => apart later (List.mem_cons_of_mem _ member)⟩

end Linking

end Crosslink
