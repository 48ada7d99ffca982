import Crosslink.Proofs.Tree.References

/-! The places that operations write to.

An operation writes to one place of a reference at most. What stands in all
others is there afterwards too, whatever has become of the node around it.
-/

set_option autoImplicit false

namespace Crosslink.Tree

variable {tree next : Tree} {id : NodeId} {slot : SlotKey} {value : Reference}

def IsPlace (tree : Tree) (slot : SlotKey) (id : NodeId) (name : String) (count : Nat) : Prop :=
  slot.source = id ∧ slot.index.getD 0 = count ∧
    ∃ feature, tree.feature id name = .ok (slot.feature, feature)

/-- The operation succeeds, and puts a value in the place. -/
def Writes (tree : Tree) (slot : SlotKey) (edit : Edit) : Prop :=
  (∃ next, tree.perform edit = .ok next) ∧
    match edit with
    | .setReference id name _ => tree.IsPlace slot id name 0
    | .addReference id name _ | .addProxy id name _ =>
      tree.IsPlace slot id name (tree.referencesAt id slot.feature).length
    | _ => False

def Untouched (tree : Tree) (slot : SlotKey) : List Edit → Prop
  | [] => True
  | edit :: rest => ¬ tree.Writes slot edit ∧ (tree.apply edit).Untouched slot rest

theorem slot?_of_referenceAt? (held : tree.referenceAt? slot = some value) :
    ∃ values, tree.slot? slot.source slot.feature = some (.reference values) ∧
      values[slot.index.getD 0]? = some value := by
  unfold referenceAt? referencesAt at held
  cases found : tree.slot? slot.source slot.feature with
  | none => simp [found] at held
  | some stored =>
    cases stored with
    | attr _ => simp [found, Slot.references] at held
    | containment _ => simp [found, Slot.references] at held
    | reference values => exact ⟨values, rfl, by simpa [found, Slot.references] using held⟩

theorem Consistent.feature_of_referenceAt? (consistent : tree.Consistent)
    (held : tree.referenceAt? slot = some value) :
    ∃ feature, tree.feature? slot.source slot.feature = some feature := by
  obtain ⟨values, found, _⟩ := slot?_of_referenceAt? held
  have kinds := consistent.kinds slot.source slot.feature
  rw [found, Option.map_some] at kinds
  obtain ⟨feature, declared, _⟩ := Option.map_eq_some_iff.mp kinds.symm
  exact ⟨feature, declared⟩

theorem referenceAt?_of_slot? (same : next.slot? slot.source slot.feature =
    tree.slot? slot.source slot.feature) : next.referenceAt? slot = tree.referenceAt? slot := by
  unfold referenceAt? referencesAt
  rw [same]

/-- Only features for references hold references. -/
theorem referencesAt_of_kind (consistent : tree.Consistent) {name : String} {kind : FeatureKind}
    {position : FeatureId} {declared : Feature}
    (found : tree.featureOfKind id name kind = .ok (position, declared)) (other : kind ≠ .reference) :
    tree.referencesAt id position = [] := by
  obtain ⟨node, present, named, same⟩ := featureOfKind_ok found
  obtain ⟨slot, seen, kind'⟩ := consistent.slot_of_feature (feature?_of_featureNamed? present named).1
  rw [referencesAt, seen, Option.map_some, Option.getD_some]
  cases slot with
  | reference values => exact absurd (same.symm.trans kind'.symm) other
  | attr values => rfl
  | containment children => rfl

theorem referencesAt_of_child {position : FeatureId} {child : NodeId}
    (member : child ∈ tree.childrenAt id position) : tree.referencesAt id position = [] := by
  unfold childrenAt at member
  unfold referencesAt
  cases seen : tree.slot? id position with
  | none => rfl
  | some slot =>
    cases slot with
    | reference values => simp [seen, Slot.children] at member
    | attr values => rfl
    | containment children => rfl

theorem feature_of_featureOfKind {name : String} {kind : FeatureKind} {position : FeatureId}
    {feature : Feature} (found : tree.featureOfKind id name kind = .ok (position, feature)) :
    tree.feature id name = .ok (position, feature) := by
  unfold featureOfKind at found
  cases named : tree.feature id name with
  | error violation => simp [named] at found
  | ok pair =>
    simp only [named] at found
    split at found
    · exact found ▸ rfl
    · cases found

theorem referencesAt_modify (other : NodeId) (asked : FeatureId) {change : Node → Node}
    (keeps : ∀ node, (change node).slots = node.slots) :
    (tree.modify id change).referencesAt other asked = tree.referencesAt other asked := by
  unfold referencesAt
  rw [slot?_modify tree id other asked keeps]

theorem referencesAt_setSlot_of_empty {position : FeatureId} {stored : Slot}
    (before : tree.referencesAt id position = []) (after : stored.references = []) (other : NodeId)
    (asked : FeatureId) :
    (tree.setSlot id position stored).referencesAt other asked = tree.referencesAt other asked := by
  unfold referencesAt at before ⊢
  rw [slot?_setSlot]
  split
  · next here =>
    obtain ⟨rfl, rfl, _⟩ := here
    rw [before, Option.map_some, Option.getD_some, after]
  · rfl

theorem referencesAt_create (classifier : Classifier) (other : NodeId) (asked : FeatureId) :
    (tree.create classifier).1.referencesAt other asked = tree.referencesAt other asked := by
  simp only [referencesAt, slot?, node?_create]
  split
  · next fresh =>
    simp only [fresh, node?_eq_none_iff.mpr (Nat.le_refl _), Node.ofClassifier, Option.bind_some,
      Option.bind_none, Option.map_none, Option.getD_none, List.getElem?_map]
    cases classifier.features[asked]? <;> simp [Slot.references_empty]
  · rfl

-- A value that is put behind those of a feature takes the first free place.
theorem referenceAt?_append {position : FeatureId} {added : Reference}
    (present : (tree.slot? id position).isSome = true) (slot : SlotKey) :
    (tree.setSlot id position (.reference (tree.referencesAt id position ++ [added]))).referenceAt?
        slot =
      if slot.place = (id, position, (tree.referencesAt id position).length) then some added
      else tree.referenceAt? slot := by
  obtain ⟨source, asked, index⟩ := slot
  by_cases here : source = id ∧ asked = position
  · obtain ⟨rfl, rfl⟩ := here
    have read : (tree.setSlot source asked (.reference (tree.referencesAt source asked ++
        [added]))).referencesAt source asked = tree.referencesAt source asked ++ [added] := by
      conv_lhs => unfold referencesAt
      rw [slot?_setSlot, if_pos ⟨rfl, rfl, present⟩]
      rfl
    simp only [referenceAt?, read, SlotKey.place, Prod.mk.injEq, true_and]
    rcases Nat.lt_trichotomy (index.getD 0) (tree.referencesAt source asked).length with
      lower | same | higher
    · rw [if_neg (Nat.ne_of_lt lower), List.getElem?_append_left lower]
    · simp [same]
    · rw [if_neg (Nat.ne_of_gt higher), List.getElem?_eq_none, List.getElem?_eq_none]
      · exact Nat.le_of_lt higher
      · rw [List.length_append, List.length_singleton]
        exact higher
  · rw [if_neg fun same => here (by simp_all [SlotKey.place]), referenceAt?_of_slot?]
    rw [slot?_setSlot, if_neg]
    rintro ⟨node, feature, _⟩
    exact here ⟨node.symm, feature.symm⟩

/-- What waits after an open reference was appended names a slot that was vacant and that holds
the reference now. -/
theorem addProxy_vacant (consistent : tree.Consistent) {name : String} {proxy : Proxy}
    {pending : Pending} (done : tree.addProxy id name proxy = .ok (next, pending)) :
    pending.proxy = proxy ∧ tree.Spells pending.slot ∧ tree.referenceAt? pending.slot = none ∧
      ∀ slot, next.referenceAt? slot =
        if slot.place = pending.slot.place then some (.unresolved proxy)
        else tree.referenceAt? slot := by
  obtain ⟨position, declared, place, found, added, rfl⟩ := addProxy_ok done
  obtain ⟨_, _, again, free, rfl, rfl⟩ := addReference_ok added
  cases found.symm.trans again
  obtain ⟨node, present, named, _⟩ := featureOfKind_ok found
  have declares := (feature?_of_featureNamed? present named).1
  obtain ⟨stored, seen, _⟩ := consistent.slot_of_feature declares
  let slot : SlotKey := ⟨id, position, if declared.isMany then
    some (tree.referencesAt id position).length else none⟩
  have place : slot.place = (id, position, (tree.referencesAt id position).length) := by
    -- a feature for one value has none yet, so that its only place is the free one
    cases many : declared.isMany with
    | true => simp [slot, SlotKey.place, many]
    | false => simp [slot, SlotKey.place, many, free many]
  refine ⟨rfl, ⟨declared, declares, ?_⟩, ?_, ?_⟩
  · cases declared.isMany <;> simp
  · simp only [SlotKey.place, Prod.mk.injEq] at place
    exact List.getElem?_eq_none (Nat.le_of_eq place.2.2.symm)
  · intro other
    rw [referenceAt?_append (by rw [seen]; rfl)]
    show (if other.place = _ then _ else _) = if other.place = slot.place then _ else _
    rw [place]

-- Values that are put behind those of a feature leave these in their places.
theorem referenceAt?_addReference (consistent : tree.Consistent) {name : String} {added : Reference}
    {place : Nat} (done : tree.addReference id name added = .ok (next, place))
    (apart : ¬ tree.IsPlace slot id name (tree.referencesAt id slot.feature).length)
    (held : tree.referenceAt? slot = some value) : next.referenceAt? slot = some value := by
  obtain ⟨position, declared, found, _, _, rfl⟩ := addReference_ok done
  obtain ⟨node, present, named, _⟩ := featureOfKind_ok found
  obtain ⟨stored, seen, _⟩ := consistent.slot_of_feature (feature?_of_featureNamed? present named).1
  rw [referenceAt?_append (by rw [seen]; rfl), if_neg, held]
  intro same
  simp only [SlotKey.place, Prod.mk.injEq] at same
  obtain ⟨source, feature, count⟩ := same
  exact apart ⟨source, feature ▸ count, declared, feature ▸ feature_of_featureOfKind found⟩

-- The only value of a feature takes the first place.
theorem referenceAt?_setReference (consistent : tree.Consistent) {name : String} {written : Reference}
    (done : tree.setReference id name written = .ok next) (apart : ¬ tree.IsPlace slot id name 0)
    (held : tree.referenceAt? slot = some value) : next.referenceAt? slot = some value := by
  obtain ⟨position, declared, found, one, rfl⟩ := setSingle_ok done
  by_cases here : slot.source = id ∧ slot.feature = position
  · obtain ⟨rfl, rfl⟩ := here
    obtain ⟨values, seen, listed⟩ := slot?_of_referenceAt? held
    obtain ⟨node, present, named, _⟩ := featureOfKind_ok found
    have few : values.length ≤ 1 :=
      consistent.single (feature?_of_featureNamed? present named).1 one seen
    obtain ⟨bound, _⟩ := List.getElem?_eq_some_iff.mp listed
    exact absurd ⟨rfl, by omega, declared, feature_of_featureOfKind found⟩ apart
  · rw [referenceAt?_of_slot?, held]
    rw [slot?_setSlot, if_neg]
    exact fun ⟨source, feature, _⟩ => here ⟨source.symm, feature.symm⟩

/-- An operation that does not write to a place leaves the value in it. -/
theorem referenceAt?_apply (consistent : tree.Consistent) {edit : Edit}
    (apart : ¬ tree.Writes slot edit) (held : tree.referenceAt? slot = some value) :
    (tree.apply edit).referenceAt? slot = some value := by
  unfold apply
  cases done : tree.perform edit with
  | error violation => exact held
  | ok next =>
    dsimp only
    have writes := fun place => apart ⟨⟨next, done⟩, place⟩
    -- operations on other kinds of features leave all references of all nodes
    cases edit with
    | create classifier =>
      cases done
      rw [referenceAt?, referencesAt_create]
      exact held
    | setRoot id =>
      obtain ⟨_, _, rfl⟩ := setRoot_ok done
      exact held
    | attach container name index child =>
      obtain ⟨position, declared, node, found, _, _, _, _, _, _, _, _, rfl⟩ := attach_ok done
      have empty := referencesAt_of_kind consistent found (by decide)
      rw [referenceAt?, referencesAt_modify, referencesAt_setSlot_of_empty empty rfl]
      · exact held
      · exact fun _ => rfl
    | detach child =>
      obtain ⟨container, position, above, rfl⟩ := detach_ok done
      have empty := referencesAt_of_child (consistent.mem_childrenAt.mpr above)
      rw [referenceAt?, referencesAt_modify, referencesAt_setSlot_of_empty empty rfl]
      · exact held
      · exact fun _ => rfl
    | setAttribute id name written =>
      obtain ⟨position, declared, found, _, rfl⟩ := setSingle_ok done
      have empty := referencesAt_of_kind consistent found (by decide)
      rw [referenceAt?, referencesAt_setSlot_of_empty empty rfl]
      exact held
    | addAttribute id name written =>
      obtain ⟨position, declared, values, found, _, rfl⟩ := addAttribute_ok done
      have empty := referencesAt_of_kind consistent found (by decide)
      rw [referenceAt?, referencesAt_setSlot_of_empty empty rfl]
      exact held
    | setReference id name written => exact referenceAt?_setReference consistent done writes held
    | addReference id name added =>
      obtain ⟨⟨after, place⟩, grown, rfl⟩ := exists_of_map_eq_ok done
      exact referenceAt?_addReference consistent grown writes held
    | addProxy id name proxy =>
      obtain ⟨⟨after, pending⟩, entered, rfl⟩ := exists_of_map_eq_ok done
      obtain ⟨_, _, _, _, grown, _⟩ := addProxy_ok entered
      exact referenceAt?_addReference consistent grown writes held
    | setRange id range =>
      cases done
      rw [referenceAt?, setRange, referencesAt_modify]
      · exact held
      · exact fun _ => rfl

/-- What stands in a place stays there over every sequence of operations that leaves it untouched. -/
theorem referenceAt?_run (consistent : tree.Consistent) (edits : List Edit)
    (untouched : tree.Untouched slot edits) (held : tree.referenceAt? slot = some value) :
    (tree.run edits).referenceAt? slot = some value := by
  induction edits generalizing tree with
  | nil => exact held
  | cons edit rest ih =>
    obtain ⟨apart, untouched⟩ := untouched
    exact ih (consistent.run [edit]) untouched (referenceAt?_apply consistent apart held)

theorem isSome_referenceAt?_apply (consistent : tree.Consistent) (edit : Edit)
    (held : tree.referenceAt? slot = some value) :
    ((tree.apply edit).referenceAt? slot).isSome = true := by
  by_cases writes : tree.Writes slot edit
  · obtain ⟨⟨next, done⟩, place⟩ := writes
    obtain ⟨values, seen, listed⟩ := slot?_of_referenceAt? held
    have filled : tree.referencesAt slot.source slot.feature = values := by
      simp [referencesAt, seen, Slot.references]
    -- a place behind all values of a feature held none before
    have vacant : ∀ {id name}, id = slot.source →
        ¬ tree.IsPlace slot id name (tree.referencesAt id slot.feature).length := by
      rintro _ name rfl ⟨_, count, _⟩
      rw [filled] at count
      rw [List.getElem?_eq_none (Nat.le_of_eq count.symm)] at listed
      cases listed
    have applied : tree.apply edit = next := by
      unfold apply
      rw [done]
    rw [applied]
    cases edit with
    | setReference id name written =>
      obtain ⟨position, declared, found, _, rfl⟩ := setSingle_ok done
      obtain ⟨rfl, front, _, named⟩ := place
      cases named.symm.trans (feature_of_featureOfKind found)
      rw [referenceAt?, referencesAt, slot?_setSlot, if_pos ⟨rfl, rfl, by rw [seen]; rfl⟩, front]
      rfl
    | addReference id name added => exact absurd place (vacant place.1.symm)
    | addProxy id name proxy => exact absurd place (vacant place.1.symm)
    | _ => exact place.elim
  · rw [referenceAt?_apply consistent writes held]
    rfl

/-- A place that holds a value holds one after every sequence of operations. -/
theorem isSome_referenceAt?_run (consistent : tree.Consistent) (edits : List Edit)
    (present : (tree.referenceAt? slot).isSome = true) :
    ((tree.run edits).referenceAt? slot).isSome = true := by
  induction edits generalizing tree with
  | nil => exact present
  | cons edit rest ih =>
    obtain ⟨value, held⟩ := Option.isSome_iff_exists.mp present
    exact ih (consistent.run [edit]) (isSome_referenceAt?_apply consistent edit held)

theorem classifier?_run {classifier : Classifier} (found : tree.classifier? id = some classifier)
    (edits : List Edit) : (tree.run edits).classifier? id = some classifier := by
  refine run_induction (motive := fun tree => tree.classifier? id = some classifier)
    (fun change found => ?_) edits found
  cases change with
  | created added => exact classifier?_create_of_some id found
  | rooted inside free => exact found
  | attached => rwa [classifier?_relink]
  | detached => rwa [classifier?_relink]
  | written => rwa [classifier?_setSlot]
  | ranged other range =>
    unfold setRange
    rwa [classifier?_modify]
    exact fun _ => rfl

theorem feature?_run {position : FeatureId} {feature : Feature}
    (found : tree.feature? id position = some feature) (edits : List Edit) :
    (tree.run edits).feature? id position = some feature := by
  obtain ⟨classifier, own, declared⟩ := Option.bind_eq_some_iff.mp found
  rw [feature?, classifier?_run own, Option.bind_some, declared]

theorem spells_run (spells : tree.Spells slot) (edits : List Edit) : (tree.run edits).Spells slot := by
  obtain ⟨feature, found, many⟩ := spells
  exact ⟨feature, feature?_run found edits, many⟩

end Crosslink.Tree
