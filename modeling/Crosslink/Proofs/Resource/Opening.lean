import Crosslink.Proofs.Resource.Soundness
import Crosslink.Proofs.Tree.RoundTrip

/-! What is opened when a resource goes away, and all that stays.

The slots that can be reached and lead into the resource are opened, each once,
to the name that led there or else to the address. Nothing else of a content
changes, and one without such a slot is left alone.
-/

set_option autoImplicit false

namespace Crosslink

theorem OrderedMap.foldl_erase {κ α β : Type} [DecidableEq κ] (entries : List (κ × β))
    (m : OrderedMap κ α) : entries.foldl (fun m entry => m.erase entry.1) m =
      m.filter fun key _ => key ∉ entries.map (·.1) := by
  induction entries generalizing m with
  | nil => simp [filter]
  | cons entry rest ih =>
    rw [List.foldl_cons, ih, erase, filter, filter, filter, List.filter_filter]
    congr 1
    apply List.filter_congr
    intro held _
    rw [Bool.eq_iff_iff]
    simp [and_comm]

namespace Content

variable {content : Content} {resource : ResourceUri} {slot : SlotKey} {target : Uri}

structure LeadsInto (content : Content) (resource : ResourceUri) (slot : SlotKey)
    (target : Uri) : Prop where
  reached : content.tree.Reaches slot.source
  spells : content.tree.Spells slot
  bound : content.tree.referenceAt? slot = some (.bound target)
  inside : target.resource = resource

/-- What a slot that is bound to a target is opened to: the name that is noted for it with that
target, and else the target. -/
def OpensTo (content : Content) (slot : SlotKey) (target : Uri) : Proxy → Prop
  | .name name => content.writtenNames.get? slot = some (name, target)
  | .uri address => address = target ∧ ∀ name, content.writtenNames.get? slot ≠ some (name, target)

/-- The references into a resource have been opened, so that the entries in `gained` wait, and all
else is as it was. -/
structure Opened (resource : ResourceUri) (before after : Content) (gained : List Pending) : Prop where
  /-- Exactly what leads into the resource is opened, each slot once. -/
  gains : ∀ {entry : Pending}, entry ∈ gained ↔ ∃ target,
    before.LeadsInto resource entry.slot target ∧ before.OpensTo entry.slot target entry.proxy
  once : (gained.map (·.slot)).Nodup
  opened : ∀ entry ∈ gained, after.tree.referenceAt? entry.slot = some (.unresolved entry.proxy)
  /-- All other places keep their values, also those of nodes that cannot be reached. -/
  kept : ∀ {slot : SlotKey}, (∀ entry ∈ gained, entry.slot.place ≠ slot.place) →
    after.tree.referenceAt? slot = before.tree.referenceAt? slot
  /-- Containment, attributes and ranges are the same, and each slot holds as many values. -/
  shape : after.tree.shape = before.tree.shape
  pending : after.pending.Perm (before.pending ++ gained)
  linkDiagnostics : after.linkDiagnostics =
    before.linkDiagnostics.filter fun slot _ => slot ∉ gained.map (·.slot)
  writtenNames : after.writtenNames =
    before.writtenNames.filter fun slot _ => slot ∉ gained.map (·.slot)
  importedNames : after.importedNames = before.importedNames
  textDiagnostics : after.textDiagnostics = before.textDiagnostics
  lines : after.lines = before.lines

theorem leadsInto_iff (consistent : content.tree.Consistent) :
    content.LeadsInto resource slot target ↔
      (slot, target) ∈ picked content.tree (boundIn? resource) := by
  rw [mem_picked]
  constructor
  · rintro ⟨reached, spells, bound, inside⟩
    refine ⟨.bound target, consistent.mem_referenceValues.mpr
      ⟨consistent.reaches_iff.mp reached, spells, bound⟩, ?_⟩
    simp [boundIn?, Uri.isIn, inside]
  · rintro ⟨value, listed, picks⟩
    obtain ⟨rfl, inside⟩ := boundIn?_eq_some picks
    obtain ⟨reached, spells, bound⟩ := consistent.mem_referenceValues.mp listed
    exact ⟨consistent.reaches_iff.mpr reached, spells, bound, inside⟩

theorem opensTo_iff {proxy : Proxy} :
    content.OpensTo slot target proxy ↔ proxy = content.reopened slot target := by
  unfold OpensTo reopened
  cases content.writtenNames.get? slot with
  | none => cases proxy <;> simp
  | some noted =>
    obtain ⟨name, led⟩ := noted
    by_cases here : led = target
    · cases proxy <;> simp [here, eq_comm]
    · cases proxy <;> simp [here]

/-! ### Opening one slot after the other -/

theorem reopened_reopen {other : SlotKey} (apart : other ≠ slot) (led : Uri) :
    (content.reopen slot target).reopened other led = content.reopened other led := by
  unfold reopened reopen
  rw [OrderedMap.get?_erase, if_neg apart]

-- Opening a slot takes away no name but its own, so that each is opened as it would be alone.
theorem pending_foldl_reopen {slots : List (SlotKey × Uri)} (distinct : (slots.map (·.1)).Nodup) :
    (slots.foldl reopening.change content).pending = content.pending ++
      slots.map fun entry => ⟨entry.1, content.reopened entry.1 entry.2⟩ := by
  induction slots generalizing content with
  | nil => simp
  | cons entry rest ih =>
    obtain ⟨fresh, distinct⟩ := List.nodup_cons.mp distinct
    have alone : ∀ later ∈ rest, (content.reopen entry.1 entry.2).reopened later.1 later.2 =
        content.reopened later.1 later.2 := by
      intro later member
      apply reopened_reopen
      intro same
      exact fresh (List.mem_map.mpr ⟨later, member, same⟩)
    rw [List.foldl_cons, ih distinct, List.map_cons, List.append_cons]
    congr 1
    apply List.map_congr_left
    intro later member
    exact congrArg (Pending.mk later.1) (alone later member)

theorem linkDiagnostics_foldl_reopen (slots : List (SlotKey × Uri)) :
    (slots.foldl reopening.change content).linkDiagnostics =
      content.linkDiagnostics.filter fun slot _ => slot ∉ slots.map (·.1) := by
  rw [← OrderedMap.foldl_erase]
  exact (List.foldl_hom linkDiagnostics fun _ _ => rfl).symm

theorem writtenNames_foldl_reopen (slots : List (SlotKey × Uri)) :
    (slots.foldl reopening.change content).writtenNames =
      content.writtenNames.filter fun slot _ => slot ∉ slots.map (·.1) := by
  rw [← OrderedMap.foldl_erase]
  exact (List.foldl_hom writtenNames fun _ _ => rfl).symm

def gains (content : Content) (slots : List (SlotKey × Uri)) : List Pending :=
  slots.map fun entry => ⟨entry.1, content.reopened entry.1 entry.2⟩

theorem slots_gains (slots : List (SlotKey × Uri)) :
    (content.gains slots).map (·.slot) = slots.map (·.1) := by
  simp [gains]

theorem pending_reopenAll {slots : List (SlotKey × Uri)} (distinct : (slots.map (·.1)).Nodup) :
    (content.reopenAll slots).pending.Perm (content.pending ++ content.gains slots) := by
  cases slots with
  | nil => simp [reopenAll, gains]
  | cons entry rest =>
    rw [gains, ← pending_foldl_reopen distinct]
    exact List.mergeSort_perm _ _

/-- But for what waits, opening a list of slots is opening one after the other. -/
theorem reopenAll_eq (slots : List (SlotKey × Uri)) : content.reopenAll slots =
    { slots.foldl reopening.change content with pending := (content.reopenAll slots).pending } := by
  cases slots <;> rfl

theorem opened_reopenAll {slots : List (SlotKey × Uri)} (consistent : content.tree.Consistent)
    (chosen : slots = picked content.tree (boundIn? resource)) :
    Opened resource content (content.reopenAll slots) (content.gains slots) := by
  have leads : ∀ slot target, content.LeadsInto resource slot target ↔ (slot, target) ∈ slots :=
    fun slot target => chosen ▸ leadsInto_iff consistent
  have places : (slots.map (·.1.place)).Nodup := chosen ▸ nodup_picked consistent (boundIn? resource)
  have distinct : (slots.map (·.1)).Nodup := List.Nodup.of_map SlotKey.place (by rwa [List.map_map])
  have value : ∀ slot, (content.reopenAll slots).tree.referenceAt? slot =
      ((slots.foldl reopening.change content).view slot).value :=
    fun slot => congrArg SlotView.value (view_reopenAll slots)
  have written := @writtenNames_foldl_reopen content slots
  have noted := @linkDiagnostics_foldl_reopen content slots
  rw [← @slots_gains content] at written noted
  exact
    { gains := by
        intro entry
        simp only [leads, opensTo_iff, gains, List.mem_map]
        constructor
        · rintro ⟨⟨slot, target⟩, member, rfl⟩
          exact ⟨target, member, rfl⟩
        · rintro ⟨target, member, opens⟩
          exact ⟨(entry.slot, target), member, by rw [← opens]⟩
      once := by rwa [slots_gains]
      opened := by
        intro entry gained
        obtain ⟨⟨slot, target⟩, member, rfl⟩ := List.mem_map.mp gained
        have held := ((leads slot target).mpr member).bound
        rw [value, reopening.view_foldl_of_mem places member content (by rw [view, held]; rfl),
          reopened_view]
        rfl
      kept := by
        intro slot apart
        rw [value, reopening.view_foldl_of_apart]
        · rfl
        · intro entry member
          exact apart _ (List.mem_map_of_mem member)
      shape := shape_reopenAll slots
      pending := pending_reopenAll distinct
      linkDiagnostics := by rw [reopenAll_eq]; exact noted
      writtenNames := by rw [reopenAll_eq]; exact written
      importedNames := keeps_reopenAll importedNames (fun _ _ _ => rfl) (fun _ _ => rfl) slots
      textDiagnostics := keeps_reopenAll textDiagnostics (fun _ _ _ => rfl) (fun _ _ => rfl) slots
      lines := keeps_reopenAll lines (fun _ _ _ => rfl) (fun _ _ => rfl) slots }

section Leading

variable {after : Content} {gained : List Pending} (opened : Opened resource content after gained)
  (consistent : content.tree.Consistent)
include opened consistent

/-- What leads somewhere led there before, and has not been opened. -/
theorem Opened.leads {other : ResourceUri} (leads : after.LeadsInto other slot target) :
    content.LeadsInto other slot target ∧ ∀ entry ∈ gained, entry.slot.place ≠ slot.place := by
  obtain ⟨reached, spells, bound, inside⟩ := leads
  have here := Tree.consistent_of_shape opened.shape consistent
  rw [here.reaches_iff, Tree.allNodes_of_shape opened.shape, ← consistent.reaches_iff] at reached
  rw [Tree.spells_of_shape opened.shape] at spells
  have apart : ∀ entry ∈ gained, entry.slot.place ≠ slot.place := by
    intro entry gained same
    rw [← Tree.referenceAt?_of_place same, opened.opened entry gained] at bound
    cases bound
  exact ⟨⟨reached, spells, opened.kept apart ▸ bound, inside⟩, apart⟩

/-- Nothing that can be reached leads into the resource any more. -/
theorem Opened.free : ¬ after.LeadsInto resource slot target := by
  intro leads
  obtain ⟨before, apart⟩ := opened.leads consistent leads
  -- what led into the resource has been opened
  exact apart ⟨slot, content.reopened slot target⟩
    (opened.gains.mpr ⟨target, before, opensTo_iff.mpr rfl⟩) rfl

/-- What leads elsewhere is left alone. -/
theorem Opened.stays {other : ResourceUri} (apart : other ≠ resource)
    (leads : content.LeadsInto other slot target) : after.LeadsInto other slot target := by
  obtain ⟨reached, spells, bound, inside⟩ := leads
  have here := Tree.consistent_of_shape opened.shape consistent
  have away : ∀ entry ∈ gained, entry.slot.place ≠ slot.place := by
    intro entry gained same
    obtain ⟨led, leads, _⟩ := opened.gains.mp gained
    have value := leads.bound
    rw [Tree.referenceAt?_of_place same, bound] at value
    cases value
    exact apart (inside.symm.trans leads.inside)
  refine ⟨?_, (Tree.spells_of_shape opened.shape).mpr spells, (opened.kept away).trans bound, inside⟩
  rwa [here.reaches_iff, Tree.allNodes_of_shape opened.shape, ← consistent.reaches_iff]

end Leading

/-- What has been read as types leads nowhere yet. -/
theorem not_leadsInto_of_parse {text : String} {lines : Option LineIndex} :
    ¬ (ofParsed (Types.parse text) lines).LeadsInto resource slot target := by
  rintro ⟨reached, spells, bound, _⟩
  obtain ⟨sound, free⟩ := sound_of_parse text lines
  exact free slot target (sound.consistent.mem_referenceValues.mpr
    ⟨sound.consistent.reaches_iff.mp reached, spells, bound⟩)

/-! ### Opening time and again -/

variable {origin after : Content} {uris more : List ResourceUri}

/-- References into some resources may have been opened: the shape is the same, and what leads
somewhere led there. -/
structure Loosens (uris : List ResourceUri) (origin content : Content) : Prop where
  shape : content.tree.shape = origin.tree.shape
  leads : ∀ {resource slot target}, content.LeadsInto resource slot target →
    origin.LeadsInto resource slot target
  stays : ∀ {resource slot target}, resource ∉ uris → origin.LeadsInto resource slot target →
    content.LeadsInto resource slot target

namespace Loosens

theorem refl (uris : List ResourceUri) (content : Content) : Loosens uris content content :=
  ⟨rfl, id, fun _ => id⟩

theorem trans (first : Loosens uris origin content) (second : Loosens more content after) :
    Loosens (uris ++ more) origin after where
  shape := second.shape.trans first.shape
  leads leads := first.leads (second.leads leads)
  stays absent leads := by
    rw [List.mem_append, not_or] at absent
    exact second.stays absent.2 (first.stays absent.1 leads)

theorem mono (loosens : Loosens uris origin content) (subset : uris ⊆ more) :
    Loosens more origin content :=
  ⟨loosens.shape, loosens.leads, fun absent => loosens.stays fun listed => absent (subset listed)⟩

theorem leads_iff (loosens : Loosens uris origin content) (absent : resource ∉ uris) :
    content.LeadsInto resource slot target ↔ origin.LeadsInto resource slot target :=
  ⟨loosens.leads, loosens.stays absent⟩

end Loosens

section Demoted

variable (consistent : content.tree.Consistent)
include consistent

theorem opened_demote (resource : ResourceUri) : ∃ gained,
    content.Opened resource ((content.demote? resource).getD content) gained :=
  ⟨_, @demote?_eq content resource ▸ opened_reopenAll consistent rfl⟩

theorem loosens_demote (resource : ResourceUri) :
    Loosens [resource] content ((content.demote? resource).getD content) := by
  obtain ⟨gained, opened⟩ := opened_demote consistent resource
  refine ⟨opened.shape, fun leads => (opened.leads consistent leads).1, fun absent leads => ?_⟩
  exact opened.stays consistent (by simpa using absent) leads

theorem not_leadsInto_demote :
    ¬ ((content.demote? resource).getD content).LeadsInto resource slot target := by
  obtain ⟨gained, opened⟩ := opened_demote consistent resource
  exact opened.free consistent

end Demoted

end Content

end Crosslink
