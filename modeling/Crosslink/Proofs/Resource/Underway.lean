import Crosslink.Proofs.Linking.Settling
import Crosslink.Proofs.Resource.Soundness

/-! Contents on the way to one goal.

A text is read into a content in which every reference waits. What its references
are to be bound to is given from outside, one verdict for each. Until all of them
are settled, each still waits as it did after reading, or is settled by its
verdict. Opening references again and settling them keeps that, and when all are
settled nothing is left that could differ.
-/

set_option autoImplicit false

namespace Crosslink

open Linking

namespace Content

structure Fresh (start : Content) : Prop where
  sound : start.Sound
  unwritten : ∀ slot, start.writtenNames.get? slot = none
  unnamed : start.importedNames = []

theorem fresh_of_parse (text : String) (lines : Option LineIndex) :
    (ofParsed (Types.parse text) lines).Fresh :=
  ⟨(sound_of_parse text lines).1, fun _ => rfl, rfl⟩

/-- What is kept of a content that was read, whatever happens to its references. -/
structure Develops (start content : Content) : Prop where
  shape : content.tree.shape = start.tree.shape
  /-- Places for which nothing waited have their values. -/
  others : ∀ slot, (∀ pending ∈ start.pending, pending.slot.place ≠ slot.place) →
    content.tree.referenceAt? slot = start.tree.referenceAt? slot
  /-- Only written names are looked up. -/
  imported : ∀ name ∈ content.importedNames, ∃ pending ∈ start.pending, pending.proxy = .name name

def Waits (start content : Content) (pending : Pending) : Prop :=
  ∃ wrong, content.view pending.slot = { start.view pending.slot with wrong }

structure Decided (start : Content) (judge : Pending → Verdict) (content : Content)
    (pending : Pending) : Prop where
  view : content.view pending.slot =
    (start.view pending.slot).settle pending.proxy (judge pending)
  noted : ∀ name ∈ pending.proxy.name?, name ∈ content.importedNames

/-- Each reference of the start waits, or is bound by its verdict. -/
structure Underway (start : Content) (judge : Pending → Verdict) (content : Content) : Prop
    extends Develops start content where
  slots : ∀ pending ∈ start.pending, Waits start content pending ∨
    (judge pending).isBound = true ∧ Decided start judge content pending

structure Finished (start : Content) (judge : Pending → Verdict) (content : Content) : Prop
    extends Develops start content where
  slots : ∀ pending ∈ start.pending, Decided start judge content pending

variable {start content : Content} {judge : Pending → Verdict} {pending other : Pending}
  {slot : SlotKey}

/-! ### The start -/

namespace Fresh

variable (fresh : start.Fresh)
include fresh

/-- Every reference waits. -/
theorem exists_pending (listed : start.tree.Lists slot) :
    ∃ pending ∈ start.pending, pending.slot = slot := by
  obtain ⟨value, member⟩ := listed
  cases value with
  | unresolved proxy => exact ⟨⟨slot, proxy⟩, fresh.sound.waits_iff.mpr member, rfl⟩
  | bound target =>
    obtain ⟨name, written⟩ := fresh.sound.written member
    rw [fresh.unwritten] at written
    cases written

theorem view_eq (waits : pending ∈ start.pending) : start.view pending.slot =
    { value := some (.unresolved pending.proxy)
      written := none
      waits := fun proxy => proxy = pending.proxy
      wrong := (start.view pending.slot).wrong } := by
  have member := fresh.sound.waits_iff.mp waits
  obtain ⟨held, view⟩ := fresh.sound.view_of_mem member
  have alone := ((SlotView.sound_of_unresolved held).mp view).2.1
  rw [SlotView.mk.injEq]
  exact ⟨held, fresh.unwritten _, funext fun proxy => propext (alone proxy), rfl⟩

theorem develops : Develops start start where
  shape := rfl
  others _ _ := rfl
  imported name member := by
    rw [fresh.unnamed] at member
    cases member

theorem underway (judge : Pending → Verdict) : Underway start judge start where
  toDevelops := fresh.develops
  slots pending _ := .inl ⟨(start.view pending.slot).wrong, rfl⟩

end Fresh

theorem Develops.lists_iff (develops : Develops start content) (fresh : start.Fresh) :
    content.tree.Lists slot ↔ ∃ pending ∈ start.pending, pending.slot = slot := by
  rw [Tree.lists_of_shape develops.shape fresh.sound.consistent]
  constructor
  · exact fresh.exists_pending
  · rintro ⟨pending, waits, rfl⟩
    exact fresh.sound.waits waits

theorem eq_of_place (fresh : start.Fresh) (first : pending ∈ start.pending)
    (second : other ∈ start.pending) (same : other.slot.place = pending.slot.place) :
    other = pending :=
  List.inj_on_of_nodup_map fresh.sound.placed.distinct second first same

/-! ### Opening references again -/

theorem importedNames_demote (resource : ResourceUri) :
    ((content.demote? resource).getD content).importedNames = content.importedNames := by
  rw [demote?_eq]
  exact keeps_reopenAll importedNames (fun _ _ _ => rfl) (fun _ _ => rfl) _

-- Only references that are listed are opened, and all that are listed waited at the start.
theorem Develops.demoted (develops : Develops start content) (fresh : start.Fresh)
    (resource : ResourceUri) : Develops start ((content.demote? resource).getD content) where
  shape := (shape_demote resource).trans develops.shape
  others slot apart := by
    rw [← develops.others slot apart]
    have view : ((content.demote? resource).getD content).view slot = content.view slot := by
      rw [demote?_eq, view_reopenAll]
      refine reopening.view_foldl_of_apart ?_ content
      rintro ⟨opened, target⟩ member
      obtain ⟨value, listed, _⟩ := mem_picked.mp member
      obtain ⟨pending, waits, rfl⟩ := (develops.lists_iff fresh).mp ⟨value, listed⟩
      exact apart pending waits
    exact congrArg SlotView.value view
  imported name member := by
    rw [importedNames_demote] at member
    exact develops.imported name member

theorem view_settle_bound {view : SlotView} {proxy : Proxy} {target : Uri}
    {warning : Option Diagnostic} {name : QualifiedName} (named : proxy = .name name) :
    (view.settle proxy (.bound target warning)).reopen target =
      { value := some (.unresolved proxy)
        written := none
        waits := fun other => other = proxy
        wrong := fun _ => False } := by
  subst named
  simp [SlotView.settle, SlotView.reopen, SlotView.reopened]

/-- Opening references into a resource lets them wait as they did at the start. -/
theorem Underway.demoted (underway : Underway start judge content) (fresh : start.Fresh)
    (resource : ResourceUri) : Underway start judge ((content.demote? resource).getD content) where
  toDevelops := underway.toDevelops.demoted fresh resource
  slots pending waits := by
    have consistent := Tree.consistent_of_shape underway.shape fresh.sound.consistent
    obtain ⟨value, member⟩ := (underway.lists_iff fresh).mpr ⟨pending, waits, rfl⟩
    have held : (content.view pending.slot).value = some value :=
      (consistent.mem_referenceValues.mp member).2.2
    have view := view_demote consistent resource member
    rcases underway.slots pending waits with ⟨wrong, still⟩ | ⟨bound, decided⟩
    · -- what waits is not opened
      left
      rw [still, fresh.view_eq waits] at held
      cases held
      exact ⟨wrong, view.trans still⟩
    · cases judged : judge pending with
      | passed => simp [judged, Verdict.isBound] at bound
      | kept error => simp [judged, Verdict.isBound] at bound
      | bound target warning =>
        have seen := decided.view
        rw [judged] at seen
        rw [seen] at held
        cases held
        cases picks : boundIn? resource (.bound target) with
        | none =>
          right
          rw [picks] at view
          refine ⟨rfl, view.trans decided.view, ?_⟩
          rw [importedNames_demote]
          exact decided.noted
        | some led =>
          left
          obtain ⟨same, _⟩ := boundIn?_eq_some picks
          cases same
          obtain ⟨name, named⟩ := fresh.sound.name_of_waits waits
          rw [picks, seen] at view
          have opened := view.trans (view_settle_bound named)
          exact ⟨_, by rw [opened, fresh.view_eq waits]⟩

/-! ### Settling references -/

section Settling

variable {entries : List (Pending × Verdict)}

/-- What waits are the references of the start that have not been bound. -/
theorem Underway.mem_pending_iff (underway : Underway start judge content) (fresh : start.Fresh)
    (sound : content.Sound) :
    pending ∈ content.pending ↔ pending ∈ start.pending ∧ Waits start content pending := by
  constructor
  · intro waits
    obtain ⟨origin, first, same⟩ := (underway.lists_iff fresh).mp (sound.waits waits)
    have still : (content.view origin.slot).waits pending.proxy := by
      rw [same]
      exact waits
    rcases underway.slots origin first with ⟨wrong, seen⟩ | ⟨bound, decided⟩
    · have alike : pending.proxy = origin.proxy := by
        rw [seen, fresh.view_eq first] at still
        exact still
      have here : pending = origin := by
        obtain ⟨slot, proxy⟩ := pending
        cases show origin.slot = slot from same
        cases alike
        rfl
      rw [here]
      exact ⟨first, wrong, seen⟩
    · cases judged : judge origin with
      | passed => simp [judged, Verdict.isBound] at bound
      | kept error => simp [judged, Verdict.isBound] at bound
      | bound target warning =>
        rw [decided.view, judged] at still
        exact absurd still id
  · rintro ⟨first, wrong, seen⟩
    have still : (content.view pending.slot).waits pending.proxy := by
      rw [seen, fresh.view_eq first]
    exact still

theorem Develops.settled (develops : Develops start content)
    (among : ∀ entry ∈ entries, entry.1 ∈ start.pending) :
    Develops start (content.settleAll entries) where
  shape := (shape_settleAll entries).trans develops.shape
  others slot apart := by
    rw [← develops.others slot apart]
    exact congrArg SlotView.value
      (view_settleAll_of_apart fun entry member => apart entry.1 (among entry member))
  imported name member := by
    rw [importedNames_settleAll, mem_noteNames, List.mem_filterMap] at member
    rcases member with earlier | ⟨⟨pending, verdict⟩, settled, looked⟩
    · exact develops.imported name earlier
    · refine ⟨pending, among _ settled, ?_⟩
      cases waits : pending.proxy with
      | uri target => cases verdict <;> simp [Verdict.lookup?, Proxy.name?, waits] at looked
      | name written => cases verdict <;> simp_all [Verdict.lookup?, Proxy.name?]

theorem Decided.settled (decided : Decided start judge content pending)
    (apart : ∀ entry ∈ entries, entry.1.slot.place ≠ pending.slot.place) :
    Decided start judge (content.settleAll entries) pending where
  view := (view_settleAll_of_apart apart).trans decided.view
  noted name written := by
    rw [importedNames_settleAll, mem_noteNames]
    exact .inl (decided.noted name written)

theorem view_settle_of_wrong {view : SlotView} {proxy : Proxy} {verdict : Verdict}
    (told : verdict ≠ .passed) (wrong : Diagnostic → Prop) :
    ({ view with wrong } : SlotView).settle proxy verdict = view.settle proxy verdict := by
  cases verdict with
  | passed => exact absurd rfl told
  | kept error => rfl
  | bound target warning => rfl

-- A reference that waits and is settled by its verdict is decided, also when its name had been
-- looked up before.
theorem decided_of_settled (fresh : start.Fresh) (develops : Develops start content)
    (distinct : (entries.map (·.1.slot.place)).Nodup) (first : pending ∈ start.pending)
    (waits : Waits start content pending) (member : (pending, judge pending) ∈ entries)
    (told : judge pending ≠ .passed) :
    Decided start judge (content.settleAll entries) pending where
  view := by
    obtain ⟨wrong, seen⟩ := waits
    have present : (content.tree.referenceAt? pending.slot).isSome = true := by
      rw [Tree.isSome_referenceAt?_of_shape develops.shape, fresh.sound.holds_of_waits first]
      rfl
    rw [view_settleAll_of_mem distinct member present, seen, view_settle_of_wrong told]
  noted name written := by
    rw [importedNames_settleAll, mem_noteNames, List.mem_filterMap]
    refine .inr ⟨_, member, ?_⟩
    cases judged : judge pending with
    | passed => exact absurd judged told
    | kept error => exact written
    | bound target warning => exact written

/-- Settling some of what waits, by its verdict or by reporting that nothing was found, leaves the
rest as it is. -/
theorem Underway.settled (underway : Underway start judge content) (fresh : start.Fresh)
    (sound : content.Sound) (distinct : (entries.map (·.1.slot.place)).Nodup)
    (among : ∀ entry ∈ entries, entry.1 ∈ content.pending ∧
      (entry.2 = judge entry.1 ∨ ∃ error, entry.2 = .kept error)) :
    Underway start judge (content.settleAll entries) where
  toDevelops := underway.toDevelops.settled fun entry member =>
    ((underway.mem_pending_iff fresh sound).mp (among entry member).1).1
  slots pending first := by
    by_cases apart : ∀ entry ∈ entries, entry.1.slot.place ≠ pending.slot.place
    · rcases underway.slots pending first with ⟨wrong, seen⟩ | ⟨bound, decided⟩
      · exact .inl ⟨wrong, (view_settleAll_of_apart apart).trans seen⟩
      · exact .inr ⟨bound, decided.settled apart⟩
    · -- the entry that means the place is that of the reference, which waits
      simp only [not_forall, not_not] at apart
      obtain ⟨⟨other, verdict⟩, member, same⟩ := apart
      obtain ⟨listed, agrees⟩ := among _ member
      obtain ⟨first', waits⟩ := (underway.mem_pending_iff fresh sound).mp listed
      cases eq_of_place fresh first first' same
      have present : (content.tree.referenceAt? other.slot).isSome = true := by
        rw [sound.holds_of_waits listed]
        rfl
      have view := view_settleAll_of_mem distinct member present
      obtain ⟨wrong, seen⟩ := waits
      rw [seen] at view
      cases verdict with
      | passed => exact .inl ⟨wrong, view⟩
      | kept error => exact .inl ⟨_, view⟩
      | bound target warning =>
        have judged : judge other = .bound target warning :=
          (by simpa using agrees : Verdict.bound target warning = judge other).symm
        have told : judge other ≠ .passed := by simp [judged]
        refine .inr ⟨by rw [judged]; rfl, ?_⟩
        rw [← judged] at member
        exact decided_of_settled fresh underway.toDevelops distinct first ⟨wrong, seen⟩ member told

/-- When all that waits is settled by its verdict, everything is. -/
theorem Underway.finished (underway : Underway start judge content) (fresh : start.Fresh)
    (sound : content.Sound) (told : ∀ pending ∈ start.pending, judge pending ≠ .passed) :
    Finished start judge
      (content.settleAll (content.pending.map fun pending => (pending, judge pending))) := by
  have distinct : ((content.pending.map fun pending => (pending, judge pending)).map
      (·.1.slot.place)).Nodup := by
    rw [List.map_map]
    exact sound.placed.distinct
  have among : ∀ entry ∈ content.pending.map fun pending => (pending, judge pending),
      entry.1 ∈ content.pending := by
    intro entry member
    obtain ⟨pending, waits, rfl⟩ := List.mem_map.mp member
    exact waits
  refine ⟨underway.toDevelops.settled fun entry member =>
    ((underway.mem_pending_iff fresh sound).mp (among entry member)).1, ?_⟩
  intro pending first
  rcases underway.slots pending first with waits | ⟨bound, decided⟩
  · have listed := (underway.mem_pending_iff fresh sound).mpr ⟨first, waits⟩
    exact decided_of_settled fresh underway.toDevelops distinct first waits
      (List.mem_map.mpr ⟨pending, listed, rfl⟩) (told pending first)
  · refine decided.settled fun entry member same => ?_
    obtain ⟨first', wrong, seen⟩ := (underway.mem_pending_iff fresh sound).mp (among entry member)
    cases eq_of_place fresh first first' same
    -- the reference is bound, so that it does not wait
    have still := congrFun (congrArg SlotView.waits seen) entry.1.proxy
    rw [decided.view, fresh.view_eq first'] at still
    cases judged : judge entry.1 with
    | passed => simp [judged, Verdict.isBound] at bound
    | kept error => simp [judged, Verdict.isBound] at bound
    | bound target warning => simp [judged, SlotView.settle] at still

end Settling

/-! ### The end -/

/-- Two contents that cannot be told apart, but for the order in which names were looked up and
diagnostics noted. -/
structure Agrees (first second : Content) : Prop where
  tree : second.tree = first.tree
  pending : second.pending = first.pending
  wrong : ∀ slot, second.linkDiagnostics.get? slot = first.linkDiagnostics.get? slot
  imported : ∀ name, name ∈ second.importedNames ↔ name ∈ first.importedNames

theorem exists_agreeing {found : Option Content} (agree : Option.Rel Agrees (some start) found) :
    ∃ after, found = some after ∧ start.Agrees after := by
  cases agree with
  | some agrees => exact ⟨_, rfl, agrees⟩

end Content

namespace OrderedMap

variable {κ α : Type} [DecidableEq κ]

/-- A key that has one value at most is read alike in maps that hold the same for it. -/
theorem get?_eq_of_mem_iff {first second : OrderedMap κ α} {key : κ}
    (same : ∀ value, (key, value) ∈ second.entries ↔ (key, value) ∈ first.entries)
    (alone : ∀ value other, (key, value) ∈ first.entries → (key, other) ∈ first.entries →
      other = value) : second.get? key = first.get? key := by
  cases found : first.get? key with
  | none =>
    cases found' : second.get? key with
    | none => rfl
    | some value =>
      have member := (same value).mp (mem_of_get? found')
      exact absurd (List.mem_map_of_mem (f := Prod.fst) member) (get?_eq_none_iff.mp found)
  | some value =>
    have member := mem_of_get? found
    cases found' : second.get? key with
    | none =>
      have member' := (same value).mpr member
      exact absurd (List.mem_map_of_mem (f := Prod.fst) member') (get?_eq_none_iff.mp found')
    | some other => rw [alone value other member ((same other).mp (mem_of_get? found'))]

end OrderedMap

namespace Content

variable {start first second : Content} {judge : Pending → Verdict}

theorem Finished.mem_imported (finished : Finished start judge first) {name : QualifiedName} :
    name ∈ first.importedNames ↔ ∃ pending ∈ start.pending, pending.proxy = .name name := by
  constructor
  · exact finished.imported name
  · rintro ⟨pending, waits, named⟩
    exact (finished.slots pending waits).noted name (by rw [named]; rfl)

/-- What is finished in one way is finished alike: every slot is known by the verdict of its
reference. -/
theorem Finished.agrees (finished : Finished start judge first)
    (finished' : Finished start judge second) (fresh : start.Fresh) (sound : first.Sound)
    (sound' : second.Sound) (told : ∀ pending ∈ start.pending, judge pending ≠ .passed) :
    Agrees first second := by
  have views : ∀ pending ∈ start.pending, second.view pending.slot = first.view pending.slot :=
    fun pending waits =>
      (finished'.slots pending waits).view.trans (finished.slots pending waits).view.symm
  have trees : second.tree = first.tree := by
    refine Tree.eq_of_shape (finished'.shape.trans finished.shape.symm) fun slot => ?_
    by_cases apart : ∀ pending ∈ start.pending, pending.slot.place ≠ slot.place
    · rw [finished'.others slot apart, finished.others slot apart]
    · simp only [not_forall, not_not] at apart
      obtain ⟨pending, waits, same⟩ := apart
      rw [← Tree.referenceAt?_of_place same, ← Tree.referenceAt?_of_place same]
      exact congrArg SlotView.value (views pending waits)
  refine ⟨trees, ?_, fun slot => ?_, fun name => ?_⟩
  · rw [sound'.pending_eq, sound.pending_eq, trees]
  · by_cases listed : ∃ pending ∈ start.pending, pending.slot = slot
    · obtain ⟨pending, waits, rfl⟩ := listed
      have wrong := congrArg SlotView.wrong (views pending waits)
      refine OrderedMap.get?_eq_of_mem_iff (fun value => iff_of_eq (congrFun wrong value)) ?_
      have seen := (finished.slots pending waits).view
      intro value other held held'
      have said : (first.view pending.slot).wrong value := held
      have said' : (first.view pending.slot).wrong other := held'
      rw [seen] at said said'
      cases judged : judge pending with
      | passed => exact absurd judged (told pending waits)
      | kept error =>
        rw [judged] at said said'
        exact said'.trans said.symm
      | bound target warning =>
        rw [judged] at said said'
        exact Option.some.inj (said'.symm.trans said)
    · have silent : ∀ {content : Content}, Develops start content → content.Sound →
          content.linkDiagnostics.get? slot = none := by
        intro content develops sound
        refine OrderedMap.get?_eq_none_iff.mpr fun noted => listed ?_
        obtain ⟨⟨_, diagnostic⟩, member, rfl⟩ := List.mem_map.mp noted
        exact (develops.lists_iff fresh).mp (sound.notes member)
      rw [silent finished'.toDevelops sound', silent finished.toDevelops sound]
  · rw [finished'.mem_imported, finished.mem_imported]

end Content

end Crosslink
