import Crosslink.Proofs.Tree.Shape
import Crosslink.Resource.Content

/-! The places of references, and what stands in them.

A tree gives each place one slot, and lists its slots in the order of the
document. Putting a value in one place leaves the shape of the tree, and with it
the slots, and what stands in all other places.
-/

set_option autoImplicit false

namespace Crosslink

/-- The place that a slot means; without an index, it is the first one. -/
def SlotKey.place (slot : SlotKey) : NodeId × FeatureId × Nat :=
  (slot.source, slot.feature, slot.index.getD 0)

namespace Tree

variable {tree next : Tree} {id : NodeId} {slot other : SlotKey} {value : Reference}

/-- The slot is given as the tree gives it, with an index exactly for features with many values. -/
def Spells (tree : Tree) (slot : SlotKey) : Prop :=
  ∃ feature, tree.feature? slot.source slot.feature = some feature ∧
    slot.index.isSome = feature.isMany

/-- Two slots of one tree that mean one place are one. -/
theorem eq_of_place (first : tree.Spells slot) (second : tree.Spells other)
    (same : slot.place = other.place) : slot = other := by
  obtain ⟨source, position, index⟩ := slot
  obtain ⟨source', position', index'⟩ := other
  obtain ⟨rfl, rfl, count⟩ : source = source' ∧ position = position' ∧
      index.getD 0 = index'.getD 0 := by simpa [SlotKey.place] using same
  obtain ⟨feature, found, many⟩ := first
  obtain ⟨feature', found', many'⟩ := second
  cases found.symm.trans found'
  cases index <;> cases index' <;> simp_all

theorem spells_of_shape (same : next.shape = tree.shape) : next.Spells slot ↔ tree.Spells slot := by
  simp only [Spells, feature?_of_shape same]

theorem referenceAt?_of_place (same : slot.place = other.place) :
    tree.referenceAt? slot = tree.referenceAt? other := by
  simp only [SlotKey.place, Prod.mk.injEq] at same
  unfold referenceAt?
  rw [same.1, same.2.1, same.2.2]

theorem isSome_referenceAt?_of_shape (same : next.shape = tree.shape) :
    (next.referenceAt? slot).isSome = (tree.referenceAt? slot).isSome := by
  have shapes := slot?_of_shape same slot.source slot.feature
  have lengths : (next.referencesAt slot.source slot.feature).length =
      (tree.referencesAt slot.source slot.feature).length := by
    have long : ∀ tree : Tree, (tree.referencesAt slot.source slot.feature).length =
        (((tree.slot? slot.source slot.feature).map Slot.shape).map
          (·.references.length)).getD 0 := by
      intro tree
      unfold referencesAt
      cases tree.slot? slot.source slot.feature with
      | none => rfl
      | some held => cases held <;> simp [Slot.shape, Slot.references]
    rw [long, long, shapes]
  unfold referenceAt?
  rw [Bool.eq_iff_iff, ← Option.ne_none_iff_isSome, ← Option.ne_none_iff_isSome, Ne, Ne,
    List.getElem?_eq_none_iff, List.getElem?_eq_none_iff, lengths]

theorem slot_eq_of_shape {first second : Slot} (same : first.shape = second.shape)
    (values : first.references = second.references) : first = second := by
  cases first <;> cases second <;> simp_all [Slot.shape, Slot.references]

/-- A tree is known by its shape and by what stands in the places of references. -/
theorem eq_of_shape (same : next.shape = tree.shape)
    (values : ∀ slot, next.referenceAt? slot = tree.referenceAt? slot) : next = tree := by
  have lists : ∀ id position, next.referencesAt id position = tree.referencesAt id position :=
    fun id position => List.ext_getElem? fun place => values ⟨id, position, some place⟩
  have node : ∀ id, next.node? id = tree.node? id := by
    intro id
    have shapes : (next.node? id).map Node.shape = (tree.node? id).map Node.shape := by
      rw [← node?_shape, ← node?_shape, same]
    cases found : tree.node? id with
    | none => simpa [found] using shapes
    | some node =>
      rw [found, Option.map_some] at shapes
      obtain ⟨other, found', alike⟩ := Option.map_eq_some_iff.mp shapes
      have slots : other.slots = node.slots := by
        apply List.ext_getElem?
        intro position
        have slot := congrArg (fun node : Node => node.slots[position]?) alike
        have stored := lists id position
        simp only [Node.shape, List.getElem?_map] at slot
        simp only [referencesAt, slot?, found, found', Option.bind_some] at stored
        cases held : node.slots[position]? with
        | none => simpa [held] using slot
        | some kept =>
          rw [held, Option.map_some] at slot
          obtain ⟨other, held', alike⟩ := Option.map_eq_some_iff.mp slot
          rw [held, held', Option.map_some, Option.map_some] at stored
          rw [held', slot_eq_of_shape alike stored]
      simp only [Node.shape, Node.mk.injEq] at alike
      obtain ⟨classifier, container, _, range⟩ := alike
      rw [found']
      congr 1
      cases other
      cases node
      simp_all
  have nodes : next.nodes = tree.nodes := Array.ext_getElem? node
  have root : next.root = tree.root := (congrArg Tree.root same :)
  cases next
  cases tree
  simp_all

/-! ### Putting a value in a place -/

theorem referencesAt_replaceReference (position : FeatureId) :
    (tree.replaceReference slot value).referencesAt id position =
      if id = slot.source ∧ position = slot.feature then
        (tree.referencesAt id position).set (slot.index.getD 0) value
      else tree.referencesAt id position := by
  rw [replaceReference, replaceReference?]
  split
  · next present =>
    rw [Option.getD_some, referencesAt, slot?_setSlot]
    by_cases here : id = slot.source ∧ position = slot.feature
    · obtain ⟨rfl, rfl⟩ := here
      have some_slot : (tree.slot? slot.source slot.feature).isSome = true := by
        cases held : tree.slot? slot.source slot.feature with
        | none => simp [referencesAt, held] at present
        | some held => rfl
      simp [some_slot, Slot.references]
    · have elsewhere : ¬ (slot.source = id ∧ slot.feature = position ∧
          (tree.slot? id position).isSome = true) := by
        rintro ⟨rfl, rfl, _⟩
        exact here ⟨rfl, rfl⟩
      rw [if_neg elsewhere, if_neg here, referencesAt]
  · next absent =>
    rw [Option.getD_none]
    split
    · next here =>
      rw [here.1, here.2, List.set_eq_of_length_le (Nat.le_of_not_lt absent)]
    · rfl

theorem referenceAt?_replaceReference :
    (tree.replaceReference slot value).referenceAt? other =
      if other.place = slot.place then (tree.referenceAt? slot).map fun _ => value
      else tree.referenceAt? other := by
  rw [referenceAt?, referencesAt_replaceReference]
  by_cases here : other.source = slot.source ∧ other.feature = slot.feature
  · rw [if_pos here, List.getElem?_set]
    by_cases count : other.index.getD 0 = slot.index.getD 0
    · simp only [SlotKey.place, here, count, referenceAt?, if_true]
      split
      · next bound => simp [bound]
      · next beyond => simp [List.getElem?_eq_none (Nat.le_of_not_lt beyond)]
    · have apart : other.place ≠ slot.place := fun same => count (by simpa [SlotKey.place, here] using same)
      rw [if_neg apart, if_neg (Ne.symm count), referenceAt?]
  · have apart : other.place ≠ slot.place := by
      intro same
      simp only [SlotKey.place, Prod.mk.injEq] at same
      exact here ⟨same.1, same.2.1⟩
    rw [if_neg here, if_neg apart, referenceAt?]

-- A shape knows how many references a slot holds, so that the new list has to be as long. An empty
-- one would make a slot of references of one that holds none.
theorem shape_setSlot_of_shape {position : FeatureId} {values : List Reference}
    (count : values.length = (tree.referencesAt id position).length) (present : values ≠ []) :
    (tree.setSlot id position (.reference values)).shape = tree.shape := by
  rw [shape, shape, setSlot, modify]
  congr 1
  apply Array.ext_getElem?
  intro place
  simp only [Array.getElem?_map, Array.getElem?_modify]
  split
  · next here =>
    subst here
    cases held : tree.nodes[id]? with
    | none => rfl
    | some node =>
      have before : tree.slot? id position = node.slots[position]? := by
        rw [slot?, node?, held, Option.bind_some]
      rw [Option.map_some, Option.map_some, Option.map_some, Node.shape, Node.shape, Node.setSlot]
      congr 2
      apply List.ext_getElem?
      intro place
      rw [List.getElem?_map, List.getElem?_map, List.getElem?_set]
      split
      · next here =>
        subst here
        rw [referencesAt, before] at count
        cases found : node.slots[position]? with
        | none => simp [found, List.length_eq_zero_iff, present] at count
        | some held =>
          cases held with
          | reference values' =>
            have alike : values.length = values'.length := by simpa [found, Slot.references] using count
            obtain ⟨bound, _⟩ := List.getElem?_eq_some_iff.mp found
            simp [bound, Slot.shape, List.map_const', alike]
          | attr _ => simp [found, Slot.references, present] at count
          | containment _ => simp [found, Slot.references, present] at count
      · rfl
  · rfl

@[simp] theorem shape_replaceReference :
    (tree.replaceReference slot value).shape = tree.shape := by
  rw [replaceReference, replaceReference?]
  split
  · next bound =>
    apply shape_setSlot_of_shape List.length_set
    intro empty
    have none_left := congrArg List.length empty
    rw [List.length_set, List.length_nil] at none_left
    omega
  · rfl

theorem replaceReference?_eq_some_iff :
    tree.replaceReference? slot value = some next ↔
      (tree.referenceAt? slot).isSome = true ∧ tree.replaceReference slot value = next := by
  rw [replaceReference, replaceReference?, referenceAt?]
  split
  · next bound => simp [bound]
  · next beyond => simp [beyond]

/-! ### Listing the places -/

theorem mem_referenceSlots {position : FeatureId} {feature : Feature} {values : List Reference} :
    (position, feature, values) ∈ tree.referenceSlots id ↔
      tree.feature? id position = some feature ∧
        tree.slot? id position = some (.reference values) := by
  cases held : tree.node? id with
  | none => simp [referenceSlots, feature?, classifier?, held]
  | some node =>
    simp only [referenceSlots, held, List.mem_filterMap, Prod.exists, List.mem_zipIdx_iff_getElem?,
      feature?, classifier?, Classifier.feature?, slot?, Option.map_some, Option.bind_some]
    constructor
    · rintro ⟨feature', position', declared, found⟩
      split at found
      · next slot =>
        cases found
        exact ⟨declared, slot⟩
      · cases found
    · rintro ⟨declared, slot⟩
      exact ⟨feature, position, declared, by simp [slot]⟩

theorem mem_referenceValuesOf (consistent : tree.Consistent) :
    (slot, value) ∈ tree.referenceValuesOf id ↔
      slot.source = id ∧ tree.Spells slot ∧ tree.referenceAt? slot = some value := by
  simp only [referenceValuesOf, List.mem_flatMap, Prod.exists, List.mem_map, Prod.mk.injEq,
    mem_referenceSlots, List.mem_zipIdx_iff_getElem?]
  constructor
  · rintro ⟨position, feature, values, ⟨found, held⟩, _, place, listed, rfl, rfl⟩
    refine ⟨rfl, ⟨feature, found, by cases feature.isMany <;> rfl⟩, ?_⟩
    have read : tree.referencesAt id position = values := by simp [referencesAt, held, Slot.references]
    cases many : feature.isMany with
    | true => simpa [referenceAt?, read] using listed
    | false =>
      -- without an index the slot means the first place, and there is no other
      have few : values.length ≤ 1 := consistent.single found many held
      obtain ⟨bound, _⟩ := List.getElem?_eq_some_iff.mp listed
      have front : place = 0 := by omega
      simpa [referenceAt?, read, front] using listed
  · rintro ⟨rfl, ⟨feature, found, many⟩, held⟩
    rw [referenceAt?, referencesAt] at held
    cases seen : tree.slot? slot.source slot.feature with
    | none => simp [seen] at held
    | some stored =>
      cases stored with
      | attr _ => simp [seen, Slot.references] at held
      | containment _ => simp [seen, Slot.references] at held
      | reference values =>
        refine ⟨slot.feature, feature, values, ⟨found, seen⟩, value, slot.index.getD 0, ?_, ?_, rfl⟩
        · simpa [seen, Slot.references] using held
        · obtain ⟨source, position, index⟩ := slot
          cases index <;> simp_all

namespace Consistent

variable (consistent : tree.Consistent)
include consistent

theorem mem_referenceValues : (slot, value) ∈ tree.referenceValues ↔
    slot.source ∈ tree.allNodes ∧ tree.Spells slot ∧ tree.referenceAt? slot = some value := by
  rw [referenceValues, List.mem_flatMap]
  constructor
  · rintro ⟨id, member, listed⟩
    obtain ⟨rfl, rest⟩ := (mem_referenceValuesOf consistent).mp listed
    exact ⟨member, rest⟩
  · rintro ⟨member, rest⟩
    exact ⟨slot.source, member, (mem_referenceValuesOf consistent).mpr ⟨rfl, rest⟩⟩

end Consistent

end Tree

/-! ### The order of the places -/

def SlotKey.rank (order : List NodeId) (slot : SlotKey) : Nat × Nat × Nat :=
  (order.idxOf slot.source, slot.feature, (slot.index.map (· + 1)).getD 0)

def Precedes (first second : Nat × Nat × Nat) : Prop :=
  first.1 < second.1 ∨ first.1 = second.1 ∧
    (first.2.1 < second.2.1 ∨ first.2.1 = second.2.1 ∧ first.2.2 < second.2.2)

theorem notAfter_iff {first second : Nat × Nat × Nat} :
    Pending.notAfter first second = true ↔ ¬ Precedes second first := by
  simp only [Pending.notAfter, Precedes, Bool.or_eq_true, Bool.and_eq_true, decide_eq_true_eq]
  omega

theorem notAfter_trans {first second third : Nat × Nat × Nat}
    (left : Pending.notAfter first second = true) (right : Pending.notAfter second third = true) :
    Pending.notAfter first third = true := by
  rw [notAfter_iff, Precedes] at *
  omega

theorem notAfter_total (first second : Nat × Nat × Nat) :
    (Pending.notAfter first second || Pending.notAfter second first) = true := by
  rw [Bool.or_eq_true, notAfter_iff, notAfter_iff]
  unfold Precedes
  omega

theorem not_precedes_self (rank : Nat × Nat × Nat) : ¬ Precedes rank rank := by
  unfold Precedes
  omega

namespace Tree

variable {tree : Tree} {id : NodeId}

theorem pairwise_referenceSlots : (tree.referenceSlots id).Pairwise fun first second =>
    first.1 < second.1 := by
  cases held : tree.node? id with
  | none => simp [referenceSlots, held]
  | some node =>
    simp only [referenceSlots, held]
    refine List.pairwise_filterMap.mpr (List.pairwise_iff_getElem.mpr ?_)
    intro first second firstBound secondBound before left fromFirst right fromSecond
    simp only [List.getElem_zipIdx] at fromFirst fromSecond
    split at fromFirst
    · split at fromSecond
      · cases fromFirst
        cases fromSecond
        simpa using before
      · cases fromSecond
    · cases fromFirst

theorem pairwise_values {position : FeatureId} {feature : Feature} {values : List Reference}
    (order : List NodeId) (few : feature.isMany = false → values.length ≤ 1) :
    (values.zipIdx.map fun (value, index) =>
      ((⟨id, position, if feature.isMany then some index else none⟩ : SlotKey), value)).Pairwise
        fun first second => Precedes (first.1.rank order) (second.1.rank order) := by
  rw [List.pairwise_map, List.pairwise_iff_getElem]
  intro first second firstBound secondBound before
  rw [List.length_zipIdx] at firstBound secondBound
  cases many : feature.isMany with
  | true => simp [Precedes, SlotKey.rank, before]
  | false =>
    have one := few many
    omega

namespace Consistent

variable (consistent : tree.Consistent)
include consistent

theorem pairwise_referenceValuesOf (order : List NodeId) :
    (tree.referenceValuesOf id).Pairwise fun first second =>
      Precedes (first.1.rank order) (second.1.rank order) := by
  refine List.pairwise_flatMap.mpr ⟨?_, ?_⟩
  · rintro ⟨position, feature, values⟩ member
    obtain ⟨found, held⟩ := mem_referenceSlots.mp member
    exact pairwise_values order fun one => consistent.single found one held
  · apply pairwise_referenceSlots.imp
    rintro ⟨position, feature, values⟩ ⟨position', feature', values'⟩ before ⟨slot, value⟩ left
      ⟨slot', value'⟩ right
    simp only [List.mem_map, Prod.mk.injEq] at left right
    obtain ⟨_, _, rfl, _⟩ := left
    obtain ⟨_, _, rfl, _⟩ := right
    exact .inr ⟨rfl, .inl before⟩

/-- The references are listed in the order of the document, and none twice. -/
theorem pairwise_referenceValues : tree.referenceValues.Pairwise fun first second =>
    Precedes (first.1.rank tree.allNodes) (second.1.rank tree.allNodes) := by
  refine List.pairwise_flatMap.mpr ⟨fun id _ => consistent.pairwise_referenceValuesOf _, ?_⟩
  apply List.pairwise_iff_getElem.mpr
  rintro first second firstBound secondBound before ⟨slot, value⟩ left ⟨slot', value'⟩ right
  have source := ((mem_referenceValuesOf consistent).mp left).1
  have source' := ((mem_referenceValuesOf consistent).mp right).1
  left
  simp only [SlotKey.rank, source, source']
  rwa [consistent.nodup_allNodes.idxOf_getElem, consistent.nodup_allNodes.idxOf_getElem]

theorem nodup_slots : (tree.referenceValues.map (·.1)).Nodup := by
  refine List.pairwise_map.mpr (consistent.pairwise_referenceValues.imp ?_)
  intro first second before same
  rw [same] at before
  exact not_precedes_self _ before

end Consistent

/-! ### The open references -/

def openReferences (tree : Tree) : List Pending :=
  tree.referenceValues.filterMap fun (slot, value) =>
    value.proxy?.map fun proxy => ⟨slot, proxy⟩

theorem Consistent.mem_openReferences (consistent : tree.Consistent) {pending : Pending} :
    pending ∈ tree.openReferences ↔ pending.source ∈ tree.allNodes ∧ tree.Spells pending.slot ∧
      tree.referenceAt? pending.slot = some (.unresolved pending.proxy) := by
  rw [openReferences, List.mem_filterMap]
  constructor
  · rintro ⟨⟨slot, value⟩, member, waits⟩
    cases value with
    | bound target => simp [Reference.proxy?] at waits
    | unresolved proxy =>
      cases waits
      exact consistent.mem_referenceValues.mp member
  · intro held
    exact ⟨(pending.slot, .unresolved pending.proxy), consistent.mem_referenceValues.mpr held, rfl⟩

theorem Consistent.pairwise_openReferences (consistent : tree.Consistent) :
    tree.openReferences.Pairwise fun first second =>
      Precedes (first.rank tree.allNodes) (second.rank tree.allNodes) := by
  refine List.pairwise_filterMap.mpr (consistent.pairwise_referenceValues.imp ?_)
  rintro ⟨slot, value⟩ ⟨slot', value'⟩ before first left second right
  obtain ⟨_, _, rfl⟩ := Option.map_eq_some_iff.mp left
  obtain ⟨_, _, rfl⟩ := Option.map_eq_some_iff.mp right
  exact before

theorem Consistent.nodup_openSlots (consistent : tree.Consistent) :
    (tree.openReferences.map (·.slot)).Nodup := by
  refine List.pairwise_map.mpr (consistent.pairwise_openReferences.imp ?_)
  intro first second before same
  have ranks : first.rank tree.allNodes = second.rank tree.allNodes :=
    congrArg (SlotKey.rank tree.allNodes) same
  rw [ranks] at before
  exact not_precedes_self _ before

theorem Consistent.eq_of_notAfter (consistent : tree.Consistent) {first second : Pending}
    (left : first ∈ tree.openReferences) (right : second ∈ tree.openReferences)
    (before : Pending.notAfter (first.rank tree.allNodes) (second.rank tree.allNodes) = true)
    (after : Pending.notAfter (second.rank tree.allNodes) (first.rank tree.allNodes) = true) :
    first = second := by
  have sorted := List.pairwise_iff_getElem.mp consistent.pairwise_openReferences
  obtain ⟨place, bound, rfl⟩ := List.mem_iff_getElem.mp left
  obtain ⟨place', bound', rfl⟩ := List.mem_iff_getElem.mp right
  rcases Nat.lt_trichotomy place place' with lower | same | higher
  · exact absurd (sorted place place' bound bound' lower) (notAfter_iff.mp after)
  · simp only [same]
  · exact absurd (sorted place' place bound' bound higher) (notAfter_iff.mp before)

theorem pairwise_inDocumentOrder (pending : List Pending) :
    (Content.inDocumentOrder tree pending).Pairwise fun first second =>
      Pending.notAfter (first.rank tree.allNodes) (second.rank tree.allNodes) = true := by
  apply List.pairwise_mergeSort
  · exact fun _ _ _ => notAfter_trans
  · exact fun _ _ => notAfter_total _ _

-- The sort is stable, but that is not needed: no two open references have one rank, so that there
-- is one sorted order of them.
theorem Consistent.eq_openReferences (consistent : tree.Consistent) {pending : List Pending}
    (sorted : pending.Pairwise fun first second =>
      Pending.notAfter (first.rank tree.allNodes) (second.rank tree.allNodes) = true)
    (all : pending.Perm tree.openReferences) : pending = tree.openReferences := by
  refine List.Perm.eq_of_pairwise (fun first second left right => ?_) sorted ?_ all
  · exact consistent.eq_of_notAfter (all.subset left) right
  · refine consistent.pairwise_openReferences.imp fun before => notAfter_iff.mpr fun after => ?_
    unfold Precedes at before after
    omega

end Tree

end Crosslink
