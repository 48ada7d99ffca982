import Crosslink.Proofs.Resource.Views
import Crosslink.Proofs.Types.Drafts

/-! Contents in which all that is noted goes with the tree.

A slot of the tree waits exactly if it is open, and keeps a written name if it is
bound. A text is read into such a content, and opening references, binding them
and reporting them leave it so.
-/

set_option autoImplicit false

namespace Crosslink

def Tree.Lists (tree : Tree) (slot : SlotKey) : Prop := ∃ value, (slot, value) ∈ tree.referenceValues

theorem Tree.lists_iff {tree : Tree} (consistent : tree.Consistent) {slot : SlotKey} :
    tree.Lists slot ↔
      slot.source ∈ tree.allNodes ∧ tree.Spells slot ∧ (tree.referenceAt? slot).isSome = true := by
  simp only [Lists, consistent.mem_referenceValues, exists_and_left, Option.isSome_iff_exists]

theorem Tree.lists_of_shape {tree next : Tree} (same : next.shape = tree.shape)
    (consistent : tree.Consistent) {slot : SlotKey} : next.Lists slot ↔ tree.Lists slot := by
  rw [lists_iff consistent, lists_iff (consistent_of_shape same consistent), allNodes_of_shape same,
    spells_of_shape same, isSome_referenceAt?_of_shape same]

def SlotView.Sound (view : SlotView) : Prop :=
  match view.value with
  | some (.bound target) => (∃ name, view.written = some (name, target)) ∧
      (∀ proxy, ¬ view.waits proxy) ∧
      ∀ diagnostic, view.wrong diagnostic → diagnostic.code = some Diagnostic.ambiguousCode
  | some (.unresolved proxy) => (∃ name, proxy = .name name) ∧
      (∀ other, view.waits other ↔ other = proxy) ∧
      ∀ diagnostic, view.wrong diagnostic → diagnostic.code = some Diagnostic.unresolvedCode
  | none => False

section

variable {view : SlotView} {target : Uri} {proxy : Proxy}

theorem SlotView.sound_of_bound (held : view.value = some (.bound target)) :
    view.Sound ↔ (∃ name, view.written = some (name, target)) ∧ (∀ proxy, ¬ view.waits proxy) ∧
      ∀ diagnostic, view.wrong diagnostic → diagnostic.code = some Diagnostic.ambiguousCode := by
  unfold Sound
  rw [held]

theorem SlotView.sound_of_unresolved (held : view.value = some (.unresolved proxy)) :
    view.Sound ↔ (∃ name, proxy = .name name) ∧ (∀ other, view.waits other ↔ other = proxy) ∧
      ∀ diagnostic, view.wrong diagnostic → diagnostic.code = some Diagnostic.unresolvedCode := by
  unfold Sound
  rw [held]

theorem SlotView.sound_reopen (held : view.value = some (.bound target))
    (sound : view.Sound) : (view.reopen target).Sound := by
  obtain ⟨⟨name, written⟩, idle, _⟩ := (SlotView.sound_of_bound held).mp sound
  have opened : view.reopened target = .name name := by
    unfold SlotView.reopened
    rw [written]
    exact if_pos rfl
  refine (SlotView.sound_of_unresolved rfl).mpr ⟨⟨name, opened⟩, fun other => ?_, nofun⟩
  exact or_iff_right (idle other)

theorem SlotView.Sound.congr {next : SlotView} (sound : view.Sound) (value : next.value = view.value)
    (written : next.written = view.written) (waits : ∀ proxy, next.waits proxy ↔ view.waits proxy)
    (wrong : ∀ diagnostic, next.wrong diagnostic → view.wrong diagnostic) : next.Sound := by
  unfold SlotView.Sound at sound ⊢
  rw [value, written]
  cases held : view.value with
  | none =>
    rw [held] at sound
    exact sound
  | some reference =>
    rw [held] at sound
    cases reference with
    | bound target =>
      exact ⟨sound.1, fun proxy waiting => sound.2.1 proxy ((waits proxy).mp waiting),
        fun diagnostic noted => sound.2.2 diagnostic (wrong diagnostic noted)⟩
    | unresolved proxy =>
      exact ⟨sound.1, fun other => (waits other).trans (sound.2.1 other),
        fun diagnostic noted => sound.2.2 diagnostic (wrong diagnostic noted)⟩

end

namespace Content

/-- What waits has places of its own in the tree. -/
structure Placed (content : Content) : Prop where
  consistent : content.tree.Consistent
  distinct : (content.pending.map (·.slot.place)).Nodup
  present : ∀ pending ∈ content.pending,
    (content.tree.referenceAt? pending.slot).isSome = true

structure Sound (content : Content) : Prop where
  consistent : content.tree.Consistent
  named : content.tree.PathNamed
  views : ∀ {slot}, content.tree.Lists slot → (content.view slot).Sound
  waits : ∀ {pending}, pending ∈ content.pending → content.tree.Lists pending.slot
  notes : ∀ {slot diagnostic}, (slot, diagnostic) ∈ content.linkDiagnostics.entries →
    content.tree.Lists slot
  once : (content.pending.map (·.slot)).Nodup
  sorted : content.pending.Pairwise fun first second => Pending.notAfter
    (first.rank content.tree.allNodes) (second.rank content.tree.allNodes) = true
  texts : ∀ diagnostic ∈ content.textDiagnostics, diagnostic.code = some Diagnostic.syntaxCode

variable {content after : Content} {slot : SlotKey} {target : Uri} {name : QualifiedName}
  {pending : Pending} {warning : Option Diagnostic}

namespace Sound

variable (sound : content.Sound)
include sound

theorem view_of_mem {value : Reference} (member : (slot, value) ∈ content.tree.referenceValues) :
    (content.view slot).value = some value ∧ (content.view slot).Sound :=
  ⟨(sound.consistent.mem_referenceValues.mp member).2.2, sound.views ⟨value, member⟩⟩

theorem written (member : (slot, .bound target) ∈ content.tree.referenceValues) :
    ∃ name, content.writtenNames.get? slot = some (name, target) := by
  obtain ⟨held, view⟩ := sound.view_of_mem member
  exact ((SlotView.sound_of_bound held).mp view).1

theorem waits_iff {pending : Pending} : pending ∈ content.pending ↔
    (pending.slot, .unresolved pending.proxy) ∈ content.tree.referenceValues := by
  constructor
  · intro waits
    obtain ⟨value, member⟩ := sound.waits waits
    obtain ⟨held, view⟩ := sound.view_of_mem member
    cases value with
    | bound target =>
      exact absurd waits (((SlotView.sound_of_bound held).mp view).2.1 pending.proxy)
    | unresolved proxy =>
      have same := (((SlotView.sound_of_unresolved held).mp view).2.1 pending.proxy).mp waits
      rwa [same]
  · intro member
    obtain ⟨held, view⟩ := sound.view_of_mem member
    exact (((SlotView.sound_of_unresolved held).mp view).2.1 pending.proxy).mpr rfl

theorem name_of_waits {pending : Pending} (waits : pending ∈ content.pending) :
    ∃ name, pending.proxy = .name name := by
  obtain ⟨held, view⟩ := sound.view_of_mem (sound.waits_iff.mp waits)
  exact ((SlotView.sound_of_unresolved held).mp view).1

theorem holds_of_waits {pending : Pending} (waits : pending ∈ content.pending) :
    content.tree.referenceAt? pending.slot = some (.unresolved pending.proxy) :=
  (sound.consistent.mem_referenceValues.mp (sound.waits_iff.mp waits)).2.2

theorem placed : content.Placed where
  consistent := sound.consistent
  distinct := by
    have spells : ∀ pending ∈ content.pending, content.tree.Spells pending.slot :=
      fun pending waits => (sound.consistent.mem_referenceValues.mp (sound.waits_iff.mp waits)).2.1
    refine List.pairwise_map.mpr ((List.pairwise_map.mp sound.once).imp_of_mem ?_)
    intro first second left right apart same
    exact apart (Tree.eq_of_place (spells first left) (spells second right) same)
  present pending waits := by
    rw [sound.holds_of_waits waits]
    rfl

/-- What waits are the open references, in the order of the document. -/
theorem pending_eq : content.pending = content.tree.openReferences := by
  apply sound.consistent.eq_openReferences sound.sorted
  apply (List.perm_ext_iff_of_nodup sound.once.of_map sound.consistent.nodup_openSlots.of_map).mpr
  intro pending
  rw [sound.waits_iff, sound.consistent.mem_openReferences, sound.consistent.mem_referenceValues]

end Sound

/-! ### Reading a text -/

theorem sound_ofParsed {parsed : Parsed}
    (sound : (⟨parsed.tree, parsed.pending⟩ : Types.Draft).Sound)
    (texts : ∀ diagnostic ∈ parsed.diagnostics, diagnostic.code = some Diagnostic.syntaxCode)
    (lines : Option LineIndex) : (ofParsed parsed lines).Sound := by
  have listed : (ofParsed parsed lines).pending = parsed.tree.openReferences :=
    sound.consistent.eq_openReferences (Tree.pairwise_inDocumentOrder parsed.pending)
      ((List.mergeSort_perm _ _).trans sound.perm_openReferences)
  have waits : ∀ pending, pending ∈ (ofParsed parsed lines).pending ↔
      (pending.slot, .unresolved pending.proxy) ∈ parsed.tree.referenceValues := by
    intro pending
    rw [listed, sound.consistent.mem_openReferences, sound.consistent.mem_referenceValues]
  refine ⟨sound.consistent, Types.Typed.pathNamed sound.typed, ?_, ?_, nofun, ?_,
    Tree.pairwise_inDocumentOrder parsed.pending, texts⟩
  · rintro slot ⟨value, member⟩
    obtain ⟨reached, spells, held⟩ := sound.consistent.mem_referenceValues.mp member
    obtain ⟨name, rfl⟩ := sound.names held
    refine (SlotView.sound_of_unresolved held).mpr ⟨⟨name, rfl⟩, fun other => ?_, nofun⟩
    show ⟨slot, other⟩ ∈ (ofParsed parsed lines).pending ↔ _
    rw [waits, sound.consistent.mem_referenceValues, held]
    simp [reached, spells, eq_comm]
  · intro pending member
    exact ⟨_, (waits pending).mp member⟩
  · rw [listed]
    exact sound.consistent.nodup_openSlots

/-- A text of the types language is read into a sound content that binds nothing. -/
theorem sound_of_parse (text : String) (lines : Option LineIndex) :
    (ofParsed (Types.parse text) lines).Sound ∧
      ∀ slot target, (slot, .bound target) ∉
        (ofParsed (Types.parse text) lines).tree.referenceValues := by
  have draft := Types.sound_of_parse text
  refine ⟨sound_ofParsed draft Types.code_of_parse lines, fun slot target member => ?_⟩
  obtain ⟨_, _, held⟩ := draft.consistent.mem_referenceValues.mp member
  obtain ⟨name, same⟩ := draft.names held
  cases same

/-! ### Opening references again -/

-- A change that keeps the shape is looked at slot by slot. What waits and what is noted has to be
-- traced back to slots that are listed, since the lists may name others.
theorem Sound.of_views (sound : content.Sound) (same : after.tree.shape = content.tree.shape)
    (views : ∀ {slot value}, (slot, value) ∈ content.tree.referenceValues → (after.view slot).Sound)
    (waits : ∀ {pending}, pending ∈ after.pending → content.tree.Lists pending.slot)
    (notes : ∀ {slot diagnostic}, (slot, diagnostic) ∈ after.linkDiagnostics.entries →
      content.tree.Lists slot)
    (once : (after.pending.map (·.slot)).Nodup)
    (sorted : after.pending.Pairwise fun first second => Pending.notAfter
      (first.rank after.tree.allNodes) (second.rank after.tree.allNodes) = true)
    (texts : after.textDiagnostics = content.textDiagnostics) : after.Sound where
  consistent := Tree.consistent_of_shape same sound.consistent
  named := Tree.pathNamed_of_shape same sound.named
  views {slot} listed := by
    obtain ⟨value, member⟩ := (Tree.lists_of_shape same sound.consistent).mp listed
    exact views member
  waits {pending} member := (Tree.lists_of_shape same sound.consistent).mpr (waits member)
  notes {slot diagnostic} member := (Tree.lists_of_shape same sound.consistent).mpr (notes member)
  once := once
  sorted := sorted
  texts := texts ▸ sound.texts

theorem notes_foldl_reopen {slots : List (SlotKey × Uri)} {diagnostic : Diagnostic}
    (noted : (slot, diagnostic) ∈ (slots.foldl reopening.change content).linkDiagnostics.entries) :
    (slot, diagnostic) ∈ content.linkDiagnostics.entries := by
  induction slots generalizing content with
  | nil => exact noted
  | cons entry rest ih => exact (OrderedMap.mem_erase.mp (ih noted)).2

theorem boundIn?_eq_some {resource : ResourceUri} {value : Reference}
    (picks : boundIn? resource value = some target) :
    value = .bound target ∧ target.resource = resource := by
  cases value with
  | unresolved proxy => cases picks
  | bound led =>
    obtain ⟨here, rfl⟩ : led.resource = resource ∧ led = target := by
      simpa [boundIn?, Uri.isIn] using picks
    exact ⟨rfl, here⟩

-- A slot that is opened was bound, so that it did not wait before.
theorem Sound.nodup_foldl_reopen (sound : content.Sound) (resource : ResourceUri) :
    (((picked content.tree (boundIn? resource)).foldl reopening.change content).pending.map
      (·.slot)).Nodup := by
  rw [slots_foldl_reopen]
  have places := nodup_picked sound.consistent (boundIn? resource)
  refine List.nodup_append.mpr ⟨sound.once, ?_, ?_⟩
  · exact List.Nodup.of_map SlotKey.place (by rwa [List.map_map])
  · rintro slot waits _ opened rfl
    obtain ⟨pending, waiting, rfl⟩ := List.mem_map.mp waits
    obtain ⟨⟨_, target⟩, member, rfl⟩ := List.mem_map.mp opened
    obtain ⟨value, listed, picks⟩ := mem_picked.mp member
    obtain ⟨rfl, _⟩ := boundIn?_eq_some picks
    have bound := (sound.consistent.mem_referenceValues.mp listed).2.2
    have still := (sound.consistent.mem_referenceValues.mp (sound.waits_iff.mp waiting)).2.2
    cases bound.symm.trans still

theorem Sound.demoted (sound : content.Sound) (resource : ResourceUri) :
    ((content.demote? resource).getD content).Sound := by
  have views := fun {slot value} => @view_demote content slot sound.consistent resource value
  rw [demote?_eq] at *
  have nodup := sound.nodup_foldl_reopen resource
  have listed : ∀ entry ∈ picked content.tree (boundIn? resource), content.tree.Lists entry.1 := by
    rintro ⟨slot, target⟩ member
    obtain ⟨value, listed, _⟩ := mem_picked.mp member
    exact ⟨value, listed⟩
  cases slots : picked content.tree (boundIn? resource) with
  | nil => exact sound
  | cons entry rest =>
    rw [slots] at views nodup listed
    have perm : (content.reopenAll (entry :: rest)).pending.Perm
        ((entry :: rest).foldl reopening.change content).pending := List.mergeSort_perm _ _
    refine sound.of_views (shape_reopenAll _) ?views ?waits ?notes ?once
      (Tree.pairwise_inDocumentOrder _)
      (reopening.keeps_foldl textDiagnostics (fun _ _ => rfl) (entry :: rest) content)
    case views =>
      intro slot value member
      rw [views member]
      obtain ⟨held, view⟩ := sound.view_of_mem member
      cases picks : boundIn? resource value with
      | none => exact view
      | some target =>
        obtain ⟨rfl, _⟩ := boundIn?_eq_some picks
        exact SlotView.sound_reopen held view
    case waits =>
      intro pending member
      have among := List.mem_map_of_mem (f := Pending.slot) (perm.subset member)
      rw [slots_foldl_reopen, List.mem_append] at among
      rcases among with earlier | opened
      · obtain ⟨other, waiting, same⟩ := List.mem_map.mp earlier
        exact same ▸ sound.waits waiting
      · obtain ⟨other, member, same⟩ := List.mem_map.mp opened
        exact same ▸ listed other member
    case notes => exact fun noted => sound.notes (notes_foldl_reopen noted)
    case once => exact (perm.map _).nodup_iff.mpr nodup

/-! ### Binding and reporting -/

/-- Binding a reference to a name leaves a sound content, if only ambiguity is warned of. -/
theorem Sound.bound (sound : content.Sound) (listed : content.tree.Lists pending.slot)
    (done : content.bind? pending target warning = some after)
    (asked : pending.proxy = .name name)
    (warns : ∀ diagnostic ∈ warning, diagnostic.code = some Diagnostic.ambiguousCode) :
    after.Sound := by
  obtain ⟨_, tree, waits, texts⟩ := bind?_eq_some done
  have written := get?_written_bind? asked done
  have notes := fun {slot diagnostic} => @mem_notes_bind? content slot after pending target warning
    diagnostic done
  have waits_iff : ∀ other : Pending, other ∈ after.pending ↔
      other ∈ content.pending ∧ other.slot ≠ pending.slot := by
    simp [waits]
  have shape : after.tree.shape = content.tree.shape := by
    rw [tree]
    exact Tree.shape_replaceReference
  have value : ∀ slot, after.tree.referenceAt? slot = if slot.place = pending.slot.place then
      (content.tree.referenceAt? pending.slot).map fun _ => .bound target
      else content.tree.referenceAt? slot := by
    intro slot
    rw [tree, Tree.referenceAt?_replaceReference]
  obtain ⟨before, member⟩ := listed
  obtain ⟨_, spells, held⟩ := sound.consistent.mem_referenceValues.mp member
  refine sound.of_views shape ?views ?waits ?notes ?once ?sorted texts
  case views =>
    intro slot value' member'
    obtain ⟨_, spells', _⟩ := sound.consistent.mem_referenceValues.mp member'
    by_cases here : slot = pending.slot
    · subst here
      have bound : (after.view pending.slot).value = some (.bound target) := by
        show after.tree.referenceAt? pending.slot = _
        rw [value, if_pos rfl, held]
        rfl
      refine (SlotView.sound_of_bound bound).mpr ⟨⟨name, ?_⟩, fun proxy waiting => ?_, ?_⟩
      · exact (written pending.slot).trans (if_pos rfl)
      · exact ((waits_iff _).mp waiting).2 rfl
      · intro diagnostic noted
        rcases notes noted with ⟨_, warned⟩ | ⟨apart, _⟩
        · exact warns diagnostic warned
        · exact absurd rfl apart
    · refine (sound.view_of_mem member').2.congr ?_ ?_ ?_ ?_
      · exact (value slot).trans (if_neg fun same => here (Tree.eq_of_place spells' spells same))
      · exact (written slot).trans (if_neg here)
      · exact fun proxy => (waits_iff _).trans (and_iff_left here)
      · intro diagnostic noted
        rcases notes noted with ⟨same, _⟩ | ⟨_, earlier⟩
        · exact absurd same here
        · exact earlier
  case waits => exact fun waiting => sound.waits ((waits_iff _).mp waiting).1
  case notes =>
    intro slot diagnostic noted
    rcases notes noted with ⟨rfl, _⟩ | ⟨_, earlier⟩
    · exact ⟨before, member⟩
    · exact sound.notes earlier
  case once =>
    rw [waits]
    exact (List.filter_sublist.map _).nodup sound.once
  case sorted =>
    rw [Tree.allNodes_of_shape shape, waits]
    exact sound.sorted.filter _

-- What is bound after a reference was bound is that reference, or was bound before.
theorem Sound.mem_of_bind? (sound : content.Sound) (listed : content.tree.Lists pending.slot)
    (done : content.bind? pending target warning = some after) {led : Uri}
    (member : (slot, .bound led) ∈ after.tree.referenceValues) :
    slot = pending.slot ∧ led = target ∨
      slot ≠ pending.slot ∧ (slot, .bound led) ∈ content.tree.referenceValues := by
  obtain ⟨_, tree, _, _⟩ := bind?_eq_some done
  rw [tree] at member
  have shape : (content.tree.replaceReference pending.slot (.bound target)).shape =
      content.tree.shape := Tree.shape_replaceReference
  have consistent := Tree.consistent_of_shape shape sound.consistent
  obtain ⟨before, member'⟩ := listed
  obtain ⟨_, spells, held⟩ := sound.consistent.mem_referenceValues.mp member'
  obtain ⟨reached, spells', read⟩ := consistent.mem_referenceValues.mp member
  rw [Tree.allNodes_of_shape shape] at reached
  rw [Tree.spells_of_shape shape] at spells'
  rw [Tree.referenceAt?_replaceReference] at read
  by_cases here : slot = pending.slot
  · subst here
    rw [if_pos rfl, held] at read
    cases read
    exact .inl ⟨rfl, rfl⟩
  · rw [if_neg fun same => here (Tree.eq_of_place spells' spells same)] at read
    exact .inr ⟨here, sound.consistent.mem_referenceValues.mpr ⟨reached, spells', read⟩⟩

theorem Sound.reported (sound : content.Sound) {proxy : Proxy}
    (member : (slot, .unresolved proxy) ∈ content.tree.referenceValues) {diagnostic : Diagnostic}
    (code : diagnostic.code = some Diagnostic.unresolvedCode) :
    (content.report slot diagnostic).Sound := by
  refine sound.of_views rfl ?_ sound.waits ?_ sound.once sound.sorted rfl
  · intro other value listed
    obtain ⟨held, view⟩ := sound.view_of_mem listed
    by_cases here : other = slot
    · subst here
      cases ((sound.consistent.mem_referenceValues.mp member).2.2).symm.trans held
      obtain ⟨name, waits, _⟩ := (SlotView.sound_of_unresolved held).mp view
      have still : ((content.report other diagnostic).view other).value = some (.unresolved proxy) := held
      refine (SlotView.sound_of_unresolved still).mpr ⟨name, waits, fun noted entered => ?_⟩
      rcases OrderedMap.mem_insert entered with ⟨_, rfl⟩ | ⟨apart, _⟩
      · exact code
      · exact absurd rfl apart
    · refine view.congr rfl rfl (fun _ => Iff.rfl) fun noted entered => ?_
      rcases OrderedMap.mem_insert entered with ⟨same, _⟩ | ⟨_, earlier⟩
      · exact absurd same here
      · exact earlier
  · intro other noted entered
    rcases OrderedMap.mem_insert entered with ⟨rfl, _⟩ | ⟨_, earlier⟩
    · exact ⟨_, member⟩
    · exact sound.notes earlier

/-- The names that were looked up have nothing to do with the references. -/
theorem Sound.imported (sound : content.Sound) (names : List QualifiedName) :
    ({ content with importedNames := names } : Content).Sound :=
  { sound with }

end Content

end Crosslink
