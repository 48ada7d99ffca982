import Crosslink.Proofs.OrderedMap
import Crosslink.Proofs.Tree.References
import Crosslink.Resource.Relocation

/-! All that a resource holds about one slot.

The value, the written name, what waits and what is wrong are kept in four
places. They are looked at together here, slot by slot: each change of a
resource is a change of the views of some slots, and the shape of its tree stays.
-/

set_option autoImplicit false

namespace Crosslink

/-- What is known about one slot. -/
structure SlotView where
  value : Option Reference
  written : Option (QualifiedName × Uri)
  waits : Proxy → Prop
  wrong : Diagnostic → Prop

namespace SlotView

def reopened (view : SlotView) (target : Uri) : Proxy :=
  match view.written with
  | some (name, led) => if led = target then .name name else .uri target
  | none => .uri target

def reopen (view : SlotView) (target : Uri) : SlotView where
  value := some (.unresolved (view.reopened target))
  written := none
  waits proxy := view.waits proxy ∨ proxy = view.reopened target
  wrong _ := False

def redirect (view : SlotView) : Reference → SlotView
  | .bound target =>
    { view with value := some (.bound target), written := view.written.map fun (name, _) => (name, target) }
  | .unresolved proxy =>
    { view with
      value := some (.unresolved proxy)
      waits := fun other => other = proxy ∧ ∃ before, view.waits before }

end SlotView

namespace Content

variable {content : Content} {slot other : SlotKey}

def view (content : Content) (slot : SlotKey) : SlotView where
  value := content.tree.referenceAt? slot
  written := content.writtenNames.get? slot
  waits proxy := ⟨slot, proxy⟩ ∈ content.pending
  wrong diagnostic := (slot, diagnostic) ∈ content.linkDiagnostics.entries

/-- A change of the slots in a list, each by its own entry. -/
structure SlotChange (α : Type) where
  change : Content → SlotKey × α → Content
  effect : α → SlotView → SlotView
  shape : ∀ content entry, (change content entry).tree.shape = content.tree.shape
  apart : ∀ content entry slot, entry.1.place ≠ slot.place →
    (change content entry).view slot = content.view slot
  own : ∀ content slot detail, (content.view slot).value.isSome →
    (change content (slot, detail)).view slot = effect detail (content.view slot)

namespace SlotChange

variable {α : Type} (step : SlotChange α)

/-- What each change leaves as it is, all of them leave. -/
theorem keeps_foldl {β : Type} (read : Content → β)
    (keeps : ∀ content entry, read (step.change content entry) = read content)
    (entries : List (SlotKey × α)) (content : Content) :
    read (entries.foldl step.change content) = read content := by
  induction entries generalizing content with
  | nil => rfl
  | cons entry rest ih => exact (ih _).trans (keeps content entry)

theorem shape_foldl (entries : List (SlotKey × α)) (content : Content) :
    (entries.foldl step.change content).tree.shape = content.tree.shape :=
  step.keeps_foldl (fun content => content.tree.shape) step.shape entries content

theorem view_foldl_of_apart {entries : List (SlotKey × α)}
    (apart : ∀ entry ∈ entries, entry.1.place ≠ slot.place) (content : Content) :
    (entries.foldl step.change content).view slot = content.view slot := by
  induction entries generalizing content with
  | nil => rfl
  | cons entry rest ih =>
    rw [List.foldl_cons, ih fun later member => apart later (List.mem_cons_of_mem _ member)]
    exact step.apart content entry slot (apart entry List.mem_cons_self)

-- The induction is on the entries: the one of the slot comes first, and then no other means its
-- place, or it comes later, and the first one has left the view as it was.
theorem view_foldl_of_mem {entries : List (SlotKey × α)} {detail : α}
    (distinct : (entries.map (·.1.place)).Nodup) (member : (slot, detail) ∈ entries)
    (content : Content) (present : (content.view slot).value.isSome) :
    (entries.foldl step.change content).view slot = step.effect detail (content.view slot) := by
  induction entries generalizing content with
  | nil => cases member
  | cons entry rest ih =>
    obtain ⟨fresh, distinct⟩ := List.nodup_cons.mp distinct
    rw [List.foldl_cons]
    rcases List.mem_cons.mp member with rfl | later
    · rw [step.view_foldl_of_apart, step.own content slot detail present]
      intro later listed same
      exact fresh (List.mem_map.mpr ⟨later, listed, same⟩)
    · have apart : entry.1.place ≠ slot.place := by
        intro same
        exact fresh (List.mem_map.mpr ⟨_, later, same.symm⟩)
      have unchanged := step.apart content entry slot apart
      rw [ih distinct later _ (by rwa [unchanged]), unchanged]

end SlotChange

/-! ### Opening references again -/

theorem slot_ne_of_place {slot other : SlotKey} (apart : slot.place ≠ other.place) : other ≠ slot :=
  fun same => apart (same ▸ rfl)

theorem reopened_view (target : Uri) :
    content.reopened slot target = (content.view slot).reopened target := by
  unfold reopened SlotView.reopened view
  cases content.writtenNames.get? slot <;> rfl

def reopening : SlotChange Uri where
  change content entry := content.reopen entry.1 entry.2
  effect target view := view.reopen target
  shape content entry := Tree.shape_replaceReference
  apart content entry slot apart := by
    have differs := slot_ne_of_place apart
    unfold view reopen
    simp only [SlotView.mk.injEq]
    refine ⟨?_, ?_, ?_, ?_⟩
    · rw [Tree.referenceAt?_replaceReference, if_neg apart.symm]
    · rw [OrderedMap.get?_erase, if_neg differs]
    · funext proxy
      simp [differs]
    · funext diagnostic
      simp [OrderedMap.mem_erase, differs]
  own content slot target present := by
    obtain ⟨value, held⟩ := Option.isSome_iff_exists.mp present
    unfold SlotView.reopen
    rw [← reopened_view]
    unfold view reopen
    simp only [SlotView.mk.injEq]
    refine ⟨?_, ?_, ?_, ?_⟩
    · rw [Tree.referenceAt?_replaceReference, if_pos rfl]
      exact congrArg (Option.map _) held
    · rw [OrderedMap.get?_erase, if_pos rfl]
    · funext proxy
      simp
    · funext diagnostic
      simp [OrderedMap.mem_erase]

/-! ### Following targets -/

-- What waits in a slot takes another proxy.
theorem mem_map_proxy {pending : List Pending} {proxy asked : Proxy} :
    (⟨other, asked⟩ : Pending) ∈ (pending.map fun pending =>
      if pending.slot = slot then { pending with proxy } else pending) ↔
        if other = slot then asked = proxy ∧ ∃ before, ⟨slot, before⟩ ∈ pending
        else ⟨other, asked⟩ ∈ pending := by
  rw [List.mem_map]
  constructor
  · rintro ⟨entry, member, changed⟩
    split at changed
    · next here =>
      subst here
      cases changed
      rw [if_pos rfl]
      exact ⟨rfl, entry.proxy, member⟩
    · next apart =>
      subst changed
      rwa [if_neg apart]
  · split
    · next here =>
      rintro ⟨rfl, before, member⟩
      exact ⟨_, member, by rw [if_pos rfl, here]⟩
    · next apart => exact fun member => ⟨_, member, by rw [if_neg apart]⟩

def redirecting : SlotChange Reference where
  change content entry := content.redirect entry.1 entry.2
  effect value view := view.redirect value
  shape content entry := by
    unfold redirect
    cases entry.2 <;> exact Tree.shape_replaceReference
  apart content entry slot apart := by
    have differs := slot_ne_of_place apart
    unfold view redirect
    cases entry.2 with
    | bound target =>
      simp only [SlotView.mk.injEq, and_true]
      constructor
      · rw [Tree.referenceAt?_replaceReference, if_neg apart.symm]
      · rw [OrderedMap.get?_modify, if_neg differs]
    | unresolved proxy =>
      simp only [SlotView.mk.injEq, and_true, true_and]
      constructor
      · rw [Tree.referenceAt?_replaceReference, if_neg apart.symm]
      · funext asked
        rw [eq_iff_iff, mem_map_proxy, if_neg differs]
  own content slot value present := by
    obtain ⟨before, held⟩ := Option.isSome_iff_exists.mp present
    have replaced : (content.tree.replaceReference slot value).referenceAt? slot = some value := by
      rw [Tree.referenceAt?_replaceReference, if_pos rfl]
      exact congrArg (Option.map _) held
    unfold SlotView.redirect view redirect
    cases value with
    | bound target =>
      simp only [SlotView.mk.injEq, and_true]
      exact ⟨replaced, by rw [OrderedMap.get?_modify, if_pos rfl]⟩
    | unresolved proxy =>
      simp only [SlotView.mk.injEq, and_true, true_and]
      refine ⟨replaced, ?_⟩
      funext asked
      rw [eq_iff_iff, mem_map_proxy, if_pos rfl]

/-! ### Changing the references that a test picks -/

section Picked

variable {α : Type} {value : Reference}

/-- The slots whose values a test picks, with what it makes of them. -/
def picked (tree : Tree) (pick : Reference → Option α) : List (SlotKey × α) :=
  tree.referenceValues.filterMap fun (slot, value) => (pick value).map fun detail => (slot, detail)

theorem mem_picked {tree : Tree} {pick : Reference → Option α} {detail : α} :
    (slot, detail) ∈ picked tree pick ↔
      ∃ value, (slot, value) ∈ tree.referenceValues ∧ pick value = some detail := by
  rw [picked, List.mem_filterMap]
  constructor
  · rintro ⟨⟨other, value⟩, member, chosen⟩
    obtain ⟨found, picks, same⟩ := Option.map_eq_some_iff.mp chosen
    cases same
    exact ⟨value, member, picks⟩
  · rintro ⟨value, member, picks⟩
    exact ⟨(slot, value), member, by simp [picks]⟩

theorem places_apart {tree : Tree} (consistent : tree.Consistent) :
    tree.referenceValues.Pairwise fun first second => first.1.place ≠ second.1.place := by
  apply (List.pairwise_map.mp consistent.nodup_slots).imp_of_mem
  rintro ⟨slot, value⟩ ⟨slot', value'⟩ left right apart same
  have spells := (consistent.mem_referenceValues.mp left).2.1
  have spells' := (consistent.mem_referenceValues.mp right).2.1
  exact apart (Tree.eq_of_place spells spells' same)

theorem nodup_picked {tree : Tree} (consistent : tree.Consistent) (pick : Reference → Option α) :
    ((picked tree pick).map (·.1.place)).Nodup := by
  refine List.pairwise_map.mpr (List.pairwise_filterMap.mpr ((places_apart consistent).imp ?_))
  rintro ⟨slot, value⟩ ⟨slot', value'⟩ apart first left second right
  obtain ⟨_, _, rfl⟩ := Option.map_eq_some_iff.mp left
  obtain ⟨_, _, rfl⟩ := Option.map_eq_some_iff.mp right
  exact apart

-- The values of a tree are listed once, so each has the change that was picked for it, and those
-- that were not picked are left alone.
theorem view_foldl_picked (step : SlotChange α) {tree : Tree} (consistent : tree.Consistent)
    (pick : Reference → Option α) (member : (slot, value) ∈ tree.referenceValues)
    (content : Content) (present : (content.view slot).value.isSome) :
    ((picked tree pick).foldl step.change content).view slot =
      match pick value with
      | some detail => step.effect detail (content.view slot)
      | none => content.view slot := by
  obtain ⟨_, spells, held⟩ := consistent.mem_referenceValues.mp member
  cases picks : pick value with
  | some detail =>
    exact step.view_foldl_of_mem (nodup_picked consistent pick)
      (mem_picked.mpr ⟨value, member, picks⟩) content present
  | none =>
    refine step.view_foldl_of_apart ?_ content
    rintro ⟨other, detail⟩ listed same
    obtain ⟨value', member', picks'⟩ := mem_picked.mp listed
    obtain ⟨_, spells', held'⟩ := consistent.mem_referenceValues.mp member'
    cases Tree.eq_of_place spells' spells same
    cases held.symm.trans held'
    rw [picks] at picks'
    cases picks'

end Picked

/-! ### Opening all that lead somewhere -/

theorem view_reopenAll (slots : List (SlotKey × Uri)) :
    (content.reopenAll slots).view slot = (slots.foldl reopening.change content).view slot := by
  cases slots with
  | nil => rfl
  | cons entry rest =>
    unfold reopenAll view inDocumentOrder
    rw [SlotView.mk.injEq]
    refine ⟨rfl, rfl, ?_, rfl⟩
    funext proxy
    rw [List.mem_mergeSort]
    rfl

/-- What opening a slot leaves as it is, opening them all does, unless it is the order in which
references wait. -/
theorem keeps_reopenAll {β : Type} (read : Content → β)
    (opens : ∀ content slot target, read (reopen content slot target) = read content)
    (waits : ∀ content pending, read { content with pending } = read content)
    (slots : List (SlotKey × Uri)) : read (content.reopenAll slots) = read content := by
  cases slots with
  | nil => rfl
  | cons entry rest =>
    exact (waits _ _).trans
      (reopening.keeps_foldl read (fun content entry => opens content entry.1 entry.2) _ content)

theorem shape_reopenAll (slots : List (SlotKey × Uri)) :
    (content.reopenAll slots).tree.shape = content.tree.shape :=
  keeps_reopenAll (fun content => content.tree.shape)
    (fun content slot target => reopening.shape content (slot, target)) (fun _ _ => rfl) slots

theorem slots_foldl_reopen (slots : List (SlotKey × Uri)) :
    (slots.foldl reopening.change content).pending.map (·.slot) =
      content.pending.map (·.slot) ++ slots.map (·.1) := by
  induction slots generalizing content with
  | nil => simp
  | cons entry rest ih =>
    rw [List.foldl_cons, ih, List.map_cons, List.append_cons]
    simp [reopening, reopen]

def boundIn? (resource : ResourceUri) : Reference → Option Uri
  | .bound target => if target.isIn resource then some target else none
  | .unresolved _ => none

theorem boundInto_eq (resource : ResourceUri) :
    content.boundInto resource = picked content.tree (boundIn? resource) := by
  unfold boundInto picked
  congr 1
  funext entry
  obtain ⟨slot, value⟩ := entry
  cases value with
  | bound target => by_cases here : target.isIn resource = true <;> simp [boundIn?, here]
  | unresolved proxy => rfl

theorem demote?_eq (resource : ResourceUri) : (content.demote? resource).getD content =
    content.reopenAll (picked content.tree (boundIn? resource)) := by
  unfold demote?
  rw [boundInto_eq]
  cases picked content.tree (boundIn? resource) <;> rfl

theorem relocate?_eq (relocation : Relocation) : (content.relocate? relocation).getD content =
    ((picked content.tree relocation.follow?).foldl redirecting.change content).reopenAll
      (picked content.tree relocation.lost?) := by
  have split : content.relocate? relocation =
      if (picked content.tree relocation.follow?).isEmpty &&
        (picked content.tree relocation.lost?).isEmpty then none
      else some (((picked content.tree relocation.follow?).foldl redirecting.change content).reopenAll
        (picked content.tree relocation.lost?)) := rfl
  rw [split]
  cases picked content.tree relocation.follow? with
  | cons entry rest => rfl
  | nil => cases picked content.tree relocation.lost? <;> rfl

theorem lost?_of_follow? {relocation : Relocation} {value moved : Reference}
    (follows : relocation.follow? value = some moved) : relocation.lost? value = none := by
  cases value with
  | bound target =>
    by_cases gone : target ∈ relocation.detached
    · simp [Relocation.follow?, gone] at follows
    · simp [Relocation.lost?, gone]
  | unresolved proxy => rfl

/-- What is unresolved may come to wait for another address, but nothing binds it. -/
theorem unresolved_of_follow? {relocation : Relocation} {proxy : Proxy} {moved : Reference}
    (follows : relocation.follow? (.unresolved proxy) = some moved) :
    ∃ waiting, moved = .unresolved waiting := by
  cases proxy with
  | name name => cases follows
  | uri target =>
    obtain ⟨new, _, rfl⟩ := Option.map_eq_some_iff.mp follows
    exact ⟨.uri new, rfl⟩

/-- How one reference fares when nodes have moved. -/
theorem view_relocate (consistent : content.tree.Consistent) (relocation : Relocation)
    {value : Reference} (member : (slot, value) ∈ content.tree.referenceValues) :
    ((content.relocate? relocation).getD content).view slot =
      match relocation.follow? value, relocation.lost? value with
      | some moved, _ => (content.view slot).redirect moved
      | none, some target => (content.view slot).reopen target
      | none, none => content.view slot := by
  have present : (content.view slot).value = some value :=
    (consistent.mem_referenceValues.mp member).2.2
  have there : ∀ {view : SlotView} {value : Reference}, view.value = some value →
      view.value.isSome = true := fun held => by rw [held]; rfl
  -- first the moves, then the losses; a slot that is among the moves is not among the losses
  rw [relocate?_eq, view_reopenAll]
  have moved := view_foldl_picked redirecting consistent relocation.follow? member content (there present)
  have stays : (((picked content.tree relocation.follow?).foldl redirecting.change content).view
      slot).value.isSome = true := by
    rw [moved]
    cases followed : relocation.follow? value with
    | none => exact there present
    | some value' => cases value' <;> rfl
  rw [view_foldl_picked reopening consistent relocation.lost? member _ stays, moved]
  cases followed : relocation.follow? value with
  | none => cases relocation.lost? value <;> rfl
  | some value' =>
    rw [lost?_of_follow? followed]
    rfl

theorem shape_relocate (relocation : Relocation) :
    ((content.relocate? relocation).getD content).tree.shape = content.tree.shape := by
  rw [relocate?_eq, shape_reopenAll, redirecting.shape_foldl]

theorem shape_demote (resource : ResourceUri) :
    ((content.demote? resource).getD content).tree.shape = content.tree.shape := by
  rw [demote?_eq, shape_reopenAll]

theorem view_demote (consistent : content.tree.Consistent) (resource : ResourceUri)
    {value : Reference} (member : (slot, value) ∈ content.tree.referenceValues) :
    ((content.demote? resource).getD content).view slot =
      match boundIn? resource value with
      | some target => (content.view slot).reopen target
      | none => content.view slot := by
  have present : (content.view slot).value = some value :=
    (consistent.mem_referenceValues.mp member).2.2
  rw [demote?_eq, view_reopenAll, view_foldl_picked reopening consistent _ member _ (by rw [present]; rfl)]
  cases boundIn? resource value <;> rfl

/-! ### Binding -/

section Binding

variable {after : Content} {pending : Pending} {target : Uri} {warning : Option Diagnostic}

theorem bind?_eq_some (done : content.bind? pending target warning = some after) :
    (content.tree.referenceAt? pending.slot).isSome = true ∧
      after.tree = content.tree.replaceReference pending.slot (.bound target) ∧
      after.pending = content.pending.filter (·.slot ≠ pending.slot) ∧
      after.textDiagnostics = content.textDiagnostics := by
  obtain ⟨tree, replaced, rfl⟩ := Option.map_eq_some_iff.mp done
  obtain ⟨present, rfl⟩ := Tree.replaceReference?_eq_some_iff.mp replaced
  exact ⟨present, rfl, rfl, rfl⟩

theorem isSome_bind? (present : (content.tree.referenceAt? pending.slot).isSome = true) :
    (content.bind? pending target warning).isSome = true := by
  have replaced := Tree.replaceReference?_eq_some_iff.mpr
    ⟨present, (rfl : content.tree.replaceReference pending.slot (.bound target) = _)⟩
  simp [bind?, replaced]

theorem get?_written_bind? {name : QualifiedName} (asked : pending.proxy = .name name)
    (done : content.bind? pending target warning = some after) (slot : SlotKey) :
    after.writtenNames.get? slot =
      if slot = pending.slot then some (name, target) else content.writtenNames.get? slot := by
  obtain ⟨tree, _, rfl⟩ := Option.map_eq_some_iff.mp done
  simp only [asked]
  exact OrderedMap.get?_insert ..

theorem mem_notes_bind? {diagnostic : Diagnostic}
    (done : content.bind? pending target warning = some after) :
    (slot, diagnostic) ∈ after.linkDiagnostics.entries →
      slot = pending.slot ∧ warning = some diagnostic ∨
        slot ≠ pending.slot ∧ (slot, diagnostic) ∈ content.linkDiagnostics.entries := by
  obtain ⟨tree, _, rfl⟩ := Option.map_eq_some_iff.mp done
  cases warning with
  | none => exact fun noted => .inr (OrderedMap.mem_erase.mp noted)
  | some warning =>
    intro noted
    rcases OrderedMap.mem_insert noted with ⟨rfl, rfl⟩ | earlier
    · exact .inl ⟨rfl, rfl⟩
    · exact .inr earlier

theorem importName?_eq_some {name : QualifiedName} (done : content.importName? name = some after) :
    after = { content with importedNames := content.importedNames ++ [name] } := by
  unfold importName? at done
  split at done
  · cases done
  · cases done
    rfl

end Binding

/-! ### Forgetting -/

-- Of a slot that can be reached, only a written name is forgotten, if it led elsewhere. What
-- waits in it stays, also where its value is not open any more.
theorem view_forgetStale (once : content.writtenNames.keys.Nodup)
    {reachable : Relocation.Addresses} (reached : (reachable.lookup slot.source).isSome = true) :
    (content.forgetStale reachable).view slot =
      { content.view slot with
        written := (content.view slot).written.filter fun (_, led) =>
          content.tree.referenceAt? slot = some (.bound led) } := by
  unfold forgetStale view
  rw [SlotView.mk.injEq]
  refine ⟨rfl, ?_, ?_, ?_⟩
  · rw [OrderedMap.get?_filter _ _ _ once]
  · funext proxy
    simp [reached]
  · funext diagnostic
    simp [OrderedMap.filter, reached]

end Content

end Crosslink
