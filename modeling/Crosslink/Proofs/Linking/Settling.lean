import Crosslink.Proofs.Linking.Verdicts

/-! Settling many references of one resource.

Each reference is settled by a verdict of its own. Of a slot it matters what was
settled for it, and of the names and the references that wait, all that was. To
settle once more what was left open changes nothing.
-/

set_option autoImplicit false

namespace Crosslink

open Linking

def Proxy.name? : Proxy → Option QualifiedName
  | .name written => some written
  | .uri _ => none

namespace Linking.Verdict

def isBound : Verdict → Bool
  | .bound _ _ => true
  | _ => false

def error? : Verdict → Option Diagnostic
  | .kept error => some error
  | _ => none

def lookup? : Verdict → Proxy → Option QualifiedName
  | .passed, _ => none
  | _, proxy => proxy.name?

/-- Verdicts that differ at most in what they bind to. -/
def Like (first second : Verdict) : Prop :=
  first = second ∨ first.isBound = true ∧ second.isBound = true

end Linking.Verdict

def SlotView.settle (view : SlotView) (proxy : Proxy) : Verdict → SlotView
  | .passed => view
  | .kept error => { view with wrong := fun diagnostic => diagnostic = error }
  | .bound target warning =>
    { value := some (.bound target)
      written :=
        match proxy with
        | .name name => some (name, target)
        | .uri _ => none
      waits := fun _ => False
      wrong := fun diagnostic => warning = some diagnostic }

namespace Content

variable {content : Content} {pending : Pending} {verdict : Verdict} {slot : SlotKey}
  {target : Uri} {warning : Option Diagnostic} {entries : List (Pending × Verdict)}

theorem view_note (proxy : Proxy) : (content.note proxy).view slot = content.view slot := by
  rw [note_eq]
  rfl

/-- What is bound is known of its own slot. -/
theorem view_bind? {after : Content} (done : content.bind? pending target warning = some after) :
    after.view pending.slot =
      (content.view pending.slot).settle pending.proxy (.bound target warning) := by
  obtain ⟨tree, replaced, rfl⟩ := Option.map_eq_some_iff.mp done
  obtain ⟨present, rfl⟩ := Tree.replaceReference?_eq_some_iff.mp replaced
  unfold view SlotView.settle
  rw [SlotView.mk.injEq]
  refine ⟨?here, ?led, ?left, ?noted⟩
  case here =>
    obtain ⟨value, held⟩ := Option.isSome_iff_exists.mp present
    rw [Tree.referenceAt?_replaceReference, if_pos rfl, held, Option.map_some]
  case led =>
    cases pending.proxy with
    | name name => exact (OrderedMap.get?_insert ..).trans (if_pos rfl)
    | uri known => exact (OrderedMap.get?_erase ..).trans (if_pos rfl)
  case left =>
    funext proxy
    simp
  case noted =>
    funext diagnostic
    rw [eq_iff_iff]
    cases warning with
    | none => simp [OrderedMap.mem_erase]
    | some warning =>
      rw [OrderedMap.mem_insert_self]
      simp [eq_comm]

theorem view_bind?_of_apart {after : Content} (apart : pending.slot.place ≠ slot.place)
    (done : content.bind? pending target warning = some after) :
    after.view slot = content.view slot := by
  have differs := slot_ne_of_place apart
  obtain ⟨tree, replaced, rfl⟩ := Option.map_eq_some_iff.mp done
  obtain ⟨present, rfl⟩ := Tree.replaceReference?_eq_some_iff.mp replaced
  unfold view
  rw [SlotView.mk.injEq]
  refine ⟨?here, ?led, ?left, ?noted⟩
  case here => rw [Tree.referenceAt?_replaceReference, if_neg apart.symm]
  case led =>
    cases pending.proxy with
    | name name => exact (OrderedMap.get?_insert ..).trans (if_neg differs)
    | uri known => exact (OrderedMap.get?_erase ..).trans (if_neg differs)
  case left =>
    funext proxy
    simp [differs]
  case noted =>
    funext diagnostic
    rw [eq_iff_iff]
    cases warning with
    | none => simp [OrderedMap.mem_erase, differs]
    | some warning => exact OrderedMap.mem_insert_of_ne differs

/-- What is wrong with other slots stays. -/
theorem noted_settle_of_ne {diagnostic : Diagnostic} (apart : slot ≠ pending.slot) :
    (slot, diagnostic) ∈ (content.settle pending verdict).linkDiagnostics.entries ↔
      (slot, diagnostic) ∈ content.linkDiagnostics.entries := by
  have noted : (content.note pending.proxy).linkDiagnostics = content.linkDiagnostics := by
    rw [note_eq]
  cases verdict with
  | passed => rfl
  | kept error =>
    rw [← noted]
    exact OrderedMap.mem_insert_of_ne apart
  | bound target warning =>
    rw [← noted]
    cases present : (content.tree.referenceAt? pending.slot).isSome with
    | false => rw [(@settle_absent content pending target warning present).2]
    | true =>
      obtain ⟨after, done, settled⟩ := @settle_bound content pending target warning present
      rw [settled]
      obtain ⟨tree, _, rfl⟩ := Option.map_eq_some_iff.mp done
      cases warning with
      | none => exact OrderedMap.mem_erase.trans (and_iff_right apart)
      | some warning => exact OrderedMap.mem_insert_of_ne apart

def settling : SlotChange (Proxy × Verdict) where
  change content entry := content.settle ⟨entry.1, entry.2.1⟩ entry.2.2
  effect detail view := view.settle detail.1 detail.2
  shape content entry := shape_settle
  apart content entry slot apart := by
    obtain ⟨own, proxy, verdict⟩ := entry
    cases verdict with
    | passed => rfl
    | kept error =>
      rw [← @view_note content slot proxy]
      unfold settle report view
      rw [SlotView.mk.injEq]
      refine ⟨rfl, rfl, rfl, ?_⟩
      funext diagnostic
      rw [eq_iff_iff]
      exact OrderedMap.mem_insert_of_ne (slot_ne_of_place apart)
    | bound target warning =>
      rw [← @view_note content slot proxy]
      cases present : (content.tree.referenceAt? own).isSome with
      | false => rw [(@settle_absent content ⟨own, proxy⟩ target warning present).2]
      | true =>
        obtain ⟨after, done, settled⟩ := @settle_bound content ⟨own, proxy⟩ target warning present
        rw [settled]
        exact view_bind?_of_apart apart done
  own content slot detail present := by
    obtain ⟨proxy, verdict⟩ := detail
    cases verdict with
    | passed => rfl
    | kept error =>
      rw [← @view_note content slot proxy]
      unfold SlotView.settle settle report view
      rw [SlotView.mk.injEq]
      refine ⟨rfl, rfl, rfl, ?_⟩
      funext diagnostic
      rw [eq_iff_iff]
      exact OrderedMap.mem_insert_self
    | bound target warning =>
      obtain ⟨after, done, settled⟩ := @settle_bound content ⟨slot, proxy⟩ target warning present
      rw [← @view_note content slot proxy, settled]
      exact view_bind? done

/-! ### One after the other -/

def settleAll (content : Content) (entries : List (Pending × Verdict)) : Content :=
  entries.foldl (fun content entry => content.settle entry.1 entry.2) content

theorem settleAll_append (first rest : List (Pending × Verdict)) :
    content.settleAll (first ++ rest) = (content.settleAll first).settleAll rest :=
  List.foldl_append

theorem settleAll_eq (entries : List (Pending × Verdict)) : content.settleAll entries =
    (entries.map fun entry => (entry.1.slot, entry.1.proxy, entry.2)).foldl settling.change
      content := by
  unfold settleAll
  rw [List.foldl_map]
  rfl

theorem shape_settleAll (entries : List (Pending × Verdict)) :
    (content.settleAll entries).tree.shape = content.tree.shape := by
  rw [settleAll_eq, settling.shape_foldl]

/-- A slot to which nothing else is settled is known by what was settled for it. -/
theorem view_settleAll_of_mem (distinct : (entries.map (·.1.slot.place)).Nodup)
    (member : (pending, verdict) ∈ entries)
    (present : (content.tree.referenceAt? pending.slot).isSome = true) :
    (content.settleAll entries).view pending.slot =
      (content.view pending.slot).settle pending.proxy verdict := by
  rw [settleAll_eq]
  have listed : (pending.slot, pending.proxy, verdict) ∈
      entries.map fun entry => (entry.1.slot, entry.1.proxy, entry.2) :=
    List.mem_map.mpr ⟨_, member, rfl⟩
  refine settling.view_foldl_of_mem ?_ listed content present
  rwa [List.map_map]

theorem view_settleAll_of_apart (apart : ∀ entry ∈ entries, entry.1.slot.place ≠ slot.place) :
    (content.settleAll entries).view slot = content.view slot := by
  rw [settleAll_eq]
  apply settling.view_foldl_of_apart
  intro entry member
  obtain ⟨before, listed, rfl⟩ := List.mem_map.mp member
  exact apart before listed

theorem noted_settleAll_of_ne {diagnostic : Diagnostic}
    (apart : ∀ entry ∈ entries, entry.1.slot ≠ slot) :
    (slot, diagnostic) ∈ (content.settleAll entries).linkDiagnostics.entries ↔
      (slot, diagnostic) ∈ content.linkDiagnostics.entries := by
  induction entries generalizing content with
  | nil => rfl
  | cons entry rest ih =>
    have step : content.settleAll (entry :: rest) =
        (content.settle entry.1 entry.2).settleAll rest := rfl
    rw [step, ih fun later member => apart later (List.mem_cons_of_mem _ member)]
    exact noted_settle_of_ne (apart entry List.mem_cons_self).symm

/-- One of the verdicts binds the slot. -/
def closed (content : Content) (entries : List (Pending × Verdict)) (slot : SlotKey) : Bool :=
  entries.any fun entry => entry.1.slot = slot && content.closes entry.1 entry.2

theorem closed_append (first rest : List (Pending × Verdict)) (slot : SlotKey) :
    content.closed (first ++ rest) slot =
      (content.closed first slot || content.closed rest slot) :=
  List.any_append

theorem closed_singleton (entry : Pending × Verdict) (slot : SlotKey) :
    content.closed [entry] slot = (entry.1.slot = slot && content.closes entry.1 entry.2) :=
  Bool.or_false _

theorem closed_of_mem (distinct : (entries.map (·.1.slot)).Nodup)
    (member : (pending, verdict) ∈ entries) :
    content.closed entries pending.slot = content.closes pending verdict := by
  rw [Bool.eq_iff_iff, closed, List.any_eq_true]
  constructor
  · rintro ⟨entry, listed, here⟩
    obtain ⟨same, closes⟩ := Bool.and_eq_true_iff.mp here
    cases List.inj_on_of_nodup_map distinct listed member (of_decide_eq_true same)
    exact closes
  · intro closes
    exact ⟨_, member, by simp [closes]⟩

theorem closes_settleAll (entries : List (Pending × Verdict)) (pending : Pending)
    (verdict : Verdict) :
    (content.settleAll entries).closes pending verdict = content.closes pending verdict :=
  closes_of_shape (shape_settleAll entries) pending verdict

-- The induction is from the end: what the last verdict closes is taken from what is left before.
theorem pending_settleAll (entries : List (Pending × Verdict)) :
    (content.settleAll entries).pending =
      content.pending.filter fun pending => !content.closed entries pending.slot := by
  induction entries using List.reverseRecOn with
  | nil => exact (List.filter_eq_self.mpr fun _ _ => rfl).symm
  | append_singleton entries last ih =>
    have step : content.settleAll (entries ++ [last]) =
        (content.settleAll entries).settle last.1 last.2 := settleAll_append entries [last]
    rw [step, pending_settle, closes_settleAll, ih]
    simp only [closed_append, closed_singleton, Bool.not_or]
    split
    · next closes =>
      rw [List.filter_filter]
      apply List.filter_congr
      intro pending _
      simp [closes, Bool.and_comm, eq_comm]
    · next open_ =>
      apply List.filter_congr
      intro pending _
      simp [open_]

def noteNames (names more : List QualifiedName) : List QualifiedName :=
  more.foldl (fun names name => if name ∈ names then names else names ++ [name]) names

theorem importedNames_note (proxy : Proxy) : (content.note proxy).importedNames =
    noteNames content.importedNames proxy.name?.toList := by
  cases proxy with
  | uri target => rfl
  | name name =>
    rw [note, importedNames_importName?]
    rfl

theorem importedNames_settle : (content.settle pending verdict).importedNames =
    noteNames content.importedNames (verdict.lookup? pending.proxy).toList := by
  cases verdict with
  | passed => rfl
  | kept error => exact importedNames_note pending.proxy
  | bound target warning =>
    refine Eq.trans ?_ (importedNames_note pending.proxy)
    cases present : (content.tree.referenceAt? pending.slot).isSome with
    | false => rw [(@settle_absent content pending target warning present).2]
    | true =>
      obtain ⟨after, done, settled⟩ := @settle_bound content pending target warning present
      rw [settled]
      obtain ⟨tree, _, rfl⟩ := Option.map_eq_some_iff.mp done
      rfl

/-- The names that were looked up are noted in their order. -/
theorem importedNames_settleAll (entries : List (Pending × Verdict)) :
    (content.settleAll entries).importedNames = noteNames content.importedNames
      (entries.filterMap fun entry => entry.2.lookup? entry.1.proxy) := by
  induction entries generalizing content with
  | nil => rfl
  | cons entry rest ih =>
    have step : content.settleAll (entry :: rest) =
        (content.settle entry.1 entry.2).settleAll rest := rfl
    rw [step, ih, importedNames_settle, List.filterMap_cons]
    cases entry.2.lookup? entry.1.proxy <;> rfl

theorem mem_noteNames {names more : List QualifiedName} {name : QualifiedName} :
    name ∈ noteNames names more ↔ name ∈ names ∨ name ∈ more := by
  induction more generalizing names with
  | nil => simp [noteNames]
  | cons first rest ih =>
    have step : noteNames names (first :: rest) =
        noteNames (if first ∈ names then names else names ++ [first]) rest := rfl
    rw [step, ih, List.mem_cons]
    split
    · next known =>
      constructor
      · rintro (earlier | later)
        · exact .inl earlier
        · exact .inr (.inr later)
      · rintro (earlier | rfl | later)
        · exact .inl earlier
        · exact .inl known
        · exact .inr later
    · rw [List.mem_append, List.mem_singleton, or_assoc]

/-! ### Settling once more what was left open -/

def reports (entries : List (Pending × Verdict)) : List (SlotKey × Diagnostic) :=
  entries.filterMap fun entry => entry.2.error?.map fun error => (entry.1.slot, error)

def left (content : Content) (entries : List (Pending × Verdict)) : List Pending :=
  (entries.map (·.1)).filter fun pending => !content.closed entries pending.slot

-- A slot that was not closed carries the last error that was reported for it. The induction is
-- from the end, where that report stands or is still to be found before.
theorem holds_settleAll {error : Diagnostic} (isOpen : content.closed entries slot = false)
    (last : (reports entries).reverse.lookup slot = some error) :
    (content.settleAll entries).linkDiagnostics.Holds slot error := by
  induction entries using List.reverseRecOn with
  | nil => cases last
  | append_singleton entries entry ih =>
    obtain ⟨pending, verdict⟩ := entry
    have step : content.settleAll (entries ++ [(pending, verdict)]) =
        (content.settleAll entries).settle pending verdict := settleAll_append entries _
    rw [closed_append, closed_singleton, Bool.or_eq_false_iff] at isOpen
    obtain ⟨before, here⟩ := isOpen
    rw [step]
    by_cases own : slot = pending.slot
    · subst own
      cases verdict with
      | passed => exact ih before (by simpa [reports, Verdict.error?] using last)
      | kept reported =>
        obtain rfl : reported = error := by simpa [reports, Verdict.error?] using last
        exact fun held => OrderedMap.mem_insert_self
      | bound target warning =>
        have absent :
            ((content.settleAll entries).tree.referenceAt? pending.slot).isSome = false := by
          rw [Tree.isSome_referenceAt?_of_shape (shape_settleAll entries)]
          simpa [closes] using here
        rw [(settle_absent absent).2, note_eq]
        exact ih before (by simpa [reports, Verdict.error?] using last)
    · intro held
      rw [noted_settle_of_ne own]
      refine ih before ?_ held
      rw [← last]
      cases reported : verdict.error? with
      | none => simp [reports, reported]
      | some diagnostic =>
        have after : (reports (entries ++ [(pending, verdict)])).reverse =
            (pending.slot, diagnostic) :: (reports entries).reverse := by
          simp [reports, reported]
        rw [after, OrderedMap.lookup_cons_of_ne own]

def Quiet (content : Content) (entry : Pending × Verdict) : Prop :=
  (∀ name ∈ entry.2.lookup? entry.1.proxy, name ∈ content.importedNames) ∧
    content.closes entry.1 entry.2 = false

theorem closes_of_like {first second : Verdict} (like : first.Like second) :
    content.closes pending first = content.closes pending second := by
  rcases like with rfl | ⟨bound, bound'⟩
  · rfl
  · cases first <;> cases bound
    cases second <;> cases bound'
    rfl

theorem quiet_of_left {judge : Pending → Verdict} (member : pending ∈ content.left entries)
    (same : ∀ entry ∈ entries, content.closed entries entry.1.slot = false →
      (judge entry.1).Like entry.2) :
    (content.settleAll entries).Quiet (pending, judge pending) := by
  obtain ⟨listed, isOpen⟩ := List.mem_filter.mp member
  obtain ⟨⟨pending, verdict⟩, settled, rfl⟩ := List.mem_map.mp listed
  have isOpen : content.closed entries pending.slot = false := by simpa using isOpen
  have like : (judge pending).Like verdict := same _ settled isOpen
  refine ⟨fun name asked => ?_, ?_⟩
  · rw [importedNames_settleAll, mem_noteNames, List.mem_filterMap]
    refine .inr ⟨_, settled, ?_⟩
    rcases like with rfl | ⟨bound, bound'⟩
    · exact asked
    · dsimp only at asked ⊢
      cases judged : judge pending <;> rw [judged] at bound asked <;> cases bound
      cases verdict <;> cases bound'
      exact asked
  · rw [closes_settleAll, closes_of_like like]
    have none_closes := List.any_eq_false.mp isOpen _ settled
    simpa using none_closes

theorem reports_left {judge : Pending → Verdict}
    (same : ∀ entry ∈ entries, content.closed entries entry.1.slot = false →
      (judge entry.1).Like entry.2) :
    reports ((content.left entries).map fun pending => (pending, judge pending)) =
      (reports entries).filter fun report => !content.closed entries report.1 := by
  unfold reports left
  rw [List.filter_map, List.map_map, List.filterMap_map, List.filter_filterMap,
    List.filterMap_filter]
  apply List.filterMap_congr
  intro entry member
  cases isOpen : content.closed entries entry.1.slot with
  | true => cases entry.2.error? <;> simp [isOpen, Option.filter]
  | false =>
    rcases same entry member isOpen with agree | ⟨bound, bound'⟩
    · cases reported : entry.2.error? <;> simp [isOpen, agree, reported, Option.filter]
    · cases judged : judge entry.1 <;> rw [judged] at bound <;> cases bound
      cases settled : entry.2 <;> rw [settled] at bound' <;> cases bound'
      simp [isOpen, judged, Verdict.error?]

end Content

namespace Resource

variable {resource : Resource} {content : Content} {entries : List (Pending × Verdict)}

def settleAll (resource : Resource) (entries : List (Pending × Verdict)) : Resource :=
  entries.foldl (fun resource entry => resource.settle entry.1 entry.2) resource

@[simp] theorem uri_settleAll (entries : List (Pending × Verdict)) :
    (resource.settleAll entries).uri = resource.uri := by
  induction entries generalizing resource with
  | nil => rfl
  | cons entry rest ih => exact ih.trans uri_settle

theorem content_settleAll (resource : Resource) (entries : List (Pending × Verdict)) :
    (resource.settleAll entries).content = resource.content.map (·.settleAll entries) := by
  induction entries generalizing resource with
  | nil => exact Option.map_id'.symm
  | cons entry rest ih =>
    refine (ih _).trans ?_
    rw [content_settle, Option.map_map]
    rfl

theorem settleAll_of_closed (closed : resource.content = none)
    (entries : List (Pending × Verdict)) : resource.settleAll entries = resource := by
  induction entries with
  | nil => rfl
  | cons entry rest ih =>
    have unchanged : ∀ change?, resource.update change? = resource := by
      intro change?
      unfold update
      rw [closed]
      rfl
    have noted : resource.note entry.1.proxy = resource := by
      cases entry.1.proxy with
      | uri target => rfl
      | name name => exact unchanged _
    have settled : resource.settle entry.1 entry.2 = resource := by
      cases entry.2 with
      | passed => rfl
      | kept error =>
        unfold settle
        dsimp only
        rw [noted, closed]
        exact congrArg (fun content => { resource with content }) closed.symm
      | bound target warning =>
        unfold settle
        rw [noted]
        exact unchanged _
    have step : resource.settleAll (entry :: rest) =
        (resource.settle entry.1 entry.2).settleAll rest := rfl
    rw [step, settled, ih]

theorem update_of_none {change? : Content → Option Content}
    (held : resource.content = some content) (unchanged : change? content = none) :
    resource.update change? = resource := by
  unfold update
  rw [held, Option.bind_some, unchanged]

theorem note_of_mem {proxy : Proxy} (held : resource.content = some content)
    (known : ∀ name ∈ proxy.name?, name ∈ content.importedNames) :
    resource.note proxy = resource := by
  cases proxy with
  | uri target => rfl
  | name name => exact update_of_none held (if_pos (known name rfl))

theorem settle_of_quiet {pending : Pending} {verdict : Verdict}
    (held : resource.content = some content) (quiet : content.Quiet (pending, verdict)) :
    resource.settle pending verdict =
      { resource with content := some { content with
          linkDiagnostics :=
            content.linkDiagnostics.insertAll (Content.reports [(pending, verdict)]) } } := by
  obtain ⟨known, isOpen⟩ := quiet
  have same : resource = { resource with content := some content } := by rw [← held]
  cases verdict with
  | passed => exact same
  | kept error =>
    unfold settle
    dsimp only
    rw [note_of_mem held known, held]
    rfl
  | bound target warning =>
    unfold settle
    rw [note_of_mem held known]
    have absent : (content.tree.referenceAt? pending.slot).isSome = false := isOpen
    have noted : content.note pending.proxy = content := by
      have after := resource.content_note pending.proxy
      rw [note_of_mem held known, held] at after
      exact (Option.some.inj after).symm
    have undone := (@Content.settle_absent content pending target warning absent).1
    rw [noted] at undone
    exact (update_of_none held undone).trans same

theorem settleAll_of_quiet (held : resource.content = some content)
    (quiet : ∀ entry ∈ entries, content.Quiet entry) :
    resource.settleAll entries =
      { resource with content := some { content with
          linkDiagnostics := content.linkDiagnostics.insertAll (Content.reports entries) } } := by
  induction entries generalizing resource content with
  | nil => exact congrArg (fun content => { resource with content }) held
  | cons entry rest ih =>
    obtain ⟨pending, verdict⟩ := entry
    have step : resource.settleAll ((pending, verdict) :: rest) =
        (resource.settle pending verdict).settleAll rest := rfl
    rw [step, settle_of_quiet held (quiet _ List.mem_cons_self), ih rfl]
    · have reported : Content.reports ((pending, verdict) :: rest) =
          Content.reports [(pending, verdict)] ++ Content.reports rest :=
        @List.filterMap_append _ _ [(pending, verdict)] rest _
      dsimp only
      rw [reported, OrderedMap.insertAll, OrderedMap.insertAll, OrderedMap.insertAll,
        List.foldl_append]
    · exact fun later member => quiet later (List.mem_cons_of_mem _ member)

/-- What was left open stays as it is when it is settled alike once more. -/
theorem settleAll_again (held : resource.content = some (content.settleAll entries))
    {judge : Pending → Verdict}
    (same : ∀ entry ∈ entries, content.closed entries entry.1.slot = false →
      (judge entry.1).Like entry.2) :
    resource.settleAll ((content.left entries).map fun pending => (pending, judge pending)) =
      resource := by
  rw [settleAll_of_quiet held, Content.reports_left same, OrderedMap.insertAll_of_holds]
  · rw [← held]
  · intro slot error last
    rw [← List.filter_reverse, OrderedMap.lookup_filter _ fun slot => !content.closed entries slot]
      at last
    split at last
    · next isOpen => exact Content.holds_settleAll (by simpa using isOpen) last
    · cases last
  · intro entry member
    obtain ⟨pending, listed, rfl⟩ := List.mem_map.mp member
    exact Content.quiet_of_left listed same

end Resource

end Crosslink
