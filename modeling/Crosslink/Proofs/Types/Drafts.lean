import Crosslink.Proofs.Tree.Writing
import Crosslink.Proofs.Types.Classes
import Crosslink.Types.Language

/-! Drafts of trees.

While a text is entered, every node has its place below the root, every reference
is a written name, and what waits are the references. The order in which they
were entered does not matter.
-/

set_option autoImplicit false

namespace Crosslink.Types

theorem bind_eq_ok {ε α β : Type} {result : Except ε α} {next : α → Except ε β} {value : β} :
    result >>= next = .ok value ↔ ∃ before, result = .ok before ∧ next before = .ok value := by
  cases result with
  | error fault => exact ⟨nofun, fun ⟨_, done, _⟩ => nomatch done⟩
  | ok before => exact ⟨fun done => ⟨before, rfl, done⟩, fun ⟨_, same, done⟩ => by cases same; exact done⟩

def Placed (tree : Tree) : Prop :=
  ∀ id, tree.contains id = true → tree.root = some id ∨ ∃ place, tree.container? id = some place

structure Draft.Sound (draft : Draft) : Prop where
  consistent : draft.tree.Consistent
  typed : Typed draft.tree
  placed : Placed draft.tree
  /-- Every reference is a written name. -/
  names : ∀ {slot value}, draft.tree.referenceAt? slot = some value →
    ∃ name, value = .unresolved (.name name)
  waits : ∀ {pending}, pending ∈ draft.pending ↔ draft.tree.Spells pending.slot ∧
    draft.tree.referenceAt? pending.slot = some (.unresolved pending.proxy)
  once : draft.pending.Nodup

variable {draft next : Draft} {tree : Tree} {id container : NodeId} {classifier : Classifier}

theorem Placed.setSlot {position : FeatureId} (placed : Placed tree) (slot : Slot) :
    Placed (tree.setSlot id position slot) := by
  intro other inside
  rw [Tree.contains_setSlot] at inside
  rw [Tree.container?_setSlot]
  exact placed other inside

theorem Draft.add_ok (done : draft.add container classifier = .ok (next, id)) :
    id = draft.tree.size ∧ ∃ tree, (draft.tree.create classifier).1.attach container "elements" none
      draft.tree.size = .ok tree ∧ next = { draft with tree } := by
  obtain ⟨tree, attached, same⟩ := exists_of_map_eq_ok done
  cases same
  exact ⟨rfl, tree, attached, rfl⟩

namespace Draft.Sound

variable (sound : draft.Sound)
include sound

/-- Changes that leave the references leave what waits. -/
theorem of_same_references (consistent : tree.Consistent) (typed : Typed tree)
    (placed : Placed tree)
    (values : ∀ id position, tree.referencesAt id position = draft.tree.referencesAt id position)
    (features : ∀ id position, draft.tree.contains id = true →
      tree.feature? id position = draft.tree.feature? id position) :
    ({ draft with tree } : Draft).Sound where
  consistent := consistent
  typed := typed
  placed := placed
  names {slot value} held := by
    unfold Tree.referenceAt? at held
    rw [values] at held
    exact sound.names held
  waits {pending} := by
    rw [sound.waits]
    have same : tree.referenceAt? pending.slot = draft.tree.referenceAt? pending.slot := by
      unfold Tree.referenceAt?
      rw [values]
    rw [same]
    apply and_congr_left
    intro held
    obtain ⟨values, seen, _⟩ := Tree.slot?_of_referenceAt? held
    obtain ⟨node, present, _⟩ := Option.bind_eq_some_iff.mp seen
    unfold Tree.Spells
    rw [features _ _ (Tree.contains_iff.mpr ⟨node, present⟩)]
  once := sound.once

theorem add (member : classifier ∈ classes)
    (done : draft.add container classifier = .ok (next, id)) : next.Sound := by
  obtain ⟨rfl, tree, attached, rfl⟩ := add_ok done
  have created := sound.consistent.created classifier
  have change := Tree.change_attach attached
  have typed := Typed.create sound.typed member
  obtain ⟨position, declared, node, found, held, _, _, _, free, _, _, _, rfl⟩ :=
    Tree.attach_ok attached
  refine sound.of_same_references (created.change change) (Typed.change typed change (by simp)) ?_ ?_ ?_
  · intro other inside
    rw [Tree.contains_modify, Tree.contains_setSlot] at inside
    have placed := fun siblings => Tree.container?_relink container other position siblings
      draft.tree.size (some (container, position)) (Tree.contains_iff.mpr ⟨node, held⟩)
    unfold Tree.relink at placed
    rw [placed]
    split
    · exact .inr ⟨_, rfl⟩
    · next older =>
      rw [Tree.container?_create]
      refine sound.placed other (Tree.contains_iff.mpr ?_)
      obtain ⟨node, present⟩ := Tree.contains_iff.mp inside
      rw [Tree.node?_create, if_neg (Ne.symm older)] at present
      exact ⟨node, present⟩
  · intro other asked
    have empty := Tree.referencesAt_of_kind created found (by decide)
    rw [Tree.referencesAt_modify, Tree.referencesAt_setSlot_of_empty empty rfl,
      Tree.referencesAt_create]
    exact fun _ => rfl
  · intro other asked inside
    rw [Tree.feature?_modify, Tree.feature?_setSlot]
    · exact Tree.feature?_create inside asked
    · exact fun _ => rfl

theorem setName {name : Option String} (done : draft.setName id name = .ok next) : next.Sound := by
  cases name with
  | none =>
    cases done
    exact sound
  | some name =>
    obtain ⟨tree, written, rfl⟩ := exists_of_map_eq_ok done
    have change := Tree.change_setSingle written rfl (by decide) rfl
    obtain ⟨position, declared, found, _, rfl⟩ := Tree.setSingle_ok written
    refine sound.of_same_references (sound.consistent.change change)
      (Typed.change sound.typed change (by simp)) (sound.placed.setSlot _) ?_ ?_
    · intro other asked
      exact Tree.referencesAt_setSlot_of_empty
        (Tree.referencesAt_of_kind sound.consistent found (by decide)) rfl other asked
    · intro other asked _
      exact Tree.feature?_setSlot ..

theorem setRange (range : TextRange) : (draft.setRange id range).Sound := by
  have change : draft.tree.Change (draft.tree.setRange id range) := .ranged id range
  refine sound.of_same_references (sound.consistent.ranged range)
    (Typed.change sound.typed change (by simp [Tree.setRange])) ?_ ?_ ?_
  · intro other inside
    unfold Tree.setRange at *
    rw [Tree.contains_modify] at inside
    rw [Tree.container?_modify]
    · exact sound.placed other inside
    · exact fun _ => rfl
  · exact fun other asked => Tree.referencesAt_modify other asked fun _ => rfl
  · exact fun other asked _ => Tree.feature?_modify _ _ _ _ fun _ => rfl

theorem addName {feature : String} {name : QualifiedName}
    (done : draft.addName id feature name = .ok next) : next.Sound := by
  obtain ⟨⟨tree, pending⟩, entered, rfl⟩ := exists_of_map_eq_ok done
  obtain ⟨asked, spells, vacant, read⟩ := Tree.addProxy_vacant sound.consistent entered
  obtain ⟨_, _, _, _, added, _⟩ := Tree.addProxy_ok entered
  have change := Tree.change_addReference added
  obtain ⟨_, _, _, _, _, rfl⟩ := Tree.addReference_ok added
  refine { consistent := sound.consistent.change change
           typed := Typed.change sound.typed change (by simp)
           placed := sound.placed.setSlot _
           names := ?names, waits := ?waits, once := ?once }
  case names =>
    intro slot value held
    rw [read] at held
    split at held
    · cases held
      exact ⟨name, rfl⟩
    · exact sound.names held
  case waits =>
    intro other
    dsimp only
    rw [List.mem_append, List.mem_singleton, sound.waits, read]
    simp only [Tree.Spells, Tree.feature?_setSlot]
    constructor
    · rintro (⟨spells', held⟩ | rfl)
      · rw [if_neg]
        · exact ⟨spells', held⟩
        · intro same
          rw [Tree.eq_of_place spells' spells same, vacant] at held
          cases held
      · exact ⟨spells, by rw [if_pos rfl, asked]⟩
    · rintro ⟨spells', held⟩
      split at held
      · next same =>
        right
        obtain ⟨slot, proxy⟩ := other
        obtain ⟨slot', proxy'⟩ := pending
        obtain rfl : slot = slot' := Tree.eq_of_place spells' spells same
        obtain rfl : proxy' = .name name := asked
        cases held
        rfl
      · exact .inl ⟨spells', held⟩
  case once =>
    -- what waits already stands in the tree, and the slot that is new did not
    refine List.nodup_append.mpr ⟨sound.once, List.nodup_singleton _, ?_⟩
    intro first earlier second last same
    rw [List.mem_singleton] at last
    subst last same
    have held := (sound.waits.mp earlier).2
    rw [vacant] at held
    cases held

end Draft.Sound

/-! ### Entering elements -/

theorem Draft.Sound.addNames {feature : String} {names : List QualifiedName} (sound : draft.Sound)
    (done : names.foldlM (fun draft name => draft.addName id feature name) draft = .ok next) :
    next.Sound := by
  induction names generalizing draft with
  | nil =>
    cases done
    exact sound
  | cons name rest ih =>
    rw [List.foldlM_cons, bind_eq_ok] at done
    obtain ⟨after, first, more⟩ := done
    exact ih (sound.addName first) more

-- The recursion is that of `enter` and `enterAll`: over an element and over a list of elements.
mutual

theorem sound_of_enter {draft next : Draft} {container : NodeId} (element : Element)
    (sound : draft.Sound) (done : enter draft container element = .ok next) : next.Sound := by
  cases element with
  | package name elements range =>
    simp only [enter, bind_eq_ok] at done
    obtain ⟨⟨added, id⟩, first, named, second, entered, third, last⟩ := done
    cases last
    have after := (sound.add (by simp [classes]) first).setName second
    exact (sound_of_enterAll elements after third).setRange range
  | type name extended implemented range =>
    simp only [enter, bind_eq_ok] at done
    obtain ⟨⟨added, id⟩, first, named, second, extending, third, implementing, fourth, last⟩ := done
    cases last
    have after := (sound.add (by simp [classes]) first).setName second
    exact ((after.addNames third).addNames fourth).setRange range

theorem sound_of_enterAll {draft next : Draft} {container : NodeId} (elements : List Element)
    (sound : draft.Sound) (done : enterAll draft container elements = .ok next) : next.Sound := by
  cases elements with
  | nil =>
    simp only [enterAll] at done
    cases done
    exact sound
  | cons element rest =>
    simp only [enterAll, bind_eq_ok] at done
    obtain ⟨after, first, more⟩ := done
    exact sound_of_enterAll rest (sound_of_enter element sound first) more

end

theorem sound_start (rooted : (Tree.empty.create modelClass).1.setRoot 0 = .ok tree) :
    (⟨tree, []⟩ : Draft).Sound := by
  obtain ⟨inside, free, rfl⟩ := Tree.setRoot_ok rooted
  have created := Tree.consistent_empty.created modelClass
  have empty : ∀ slot, ({ (Tree.empty.create modelClass).1 with root := some 0 } : Tree).referenceAt?
      slot = none := by
    intro slot
    have none_stored := @Tree.referencesAt_create .empty modelClass slot.source slot.feature
    refine List.getElem?_eq_none ?_
    show (Tree.referencesAt (Tree.empty.create modelClass).1 slot.source slot.feature).length ≤ _
    rw [none_stored]
    exact Nat.zero_le _
  refine { consistent := created.rooted inside free
           typed := Typed.create typed_empty (by simp [classes])
           placed := ?placed, names := ?names, waits := ?waits, once := List.nodup_nil }
  case placed =>
    intro id inside
    have first : id = 0 := by
      have bound := Tree.lt_size_of_contains inside
      simp [Tree.create, Tree.size, Tree.empty] at bound
      exact bound
    exact .inl (by rw [first])
  case names =>
    intro slot value held
    rw [empty] at held
    cases held
  case waits =>
    intro pending
    rw [empty]
    simp

/-- Whatever the elements, the tree that is built of them is sound. -/
theorem sound_of_build {size : Nat} {elements : List Element}
    (done : build size elements = .ok draft) : draft.Sound := by
  simp only [build, bind_eq_ok] at done
  obtain ⟨tree, rooted, entered⟩ := done
  exact sound_of_enterAll elements ((sound_start rooted).setRange _) entered

theorem sound_empty : (⟨.empty, []⟩ : Draft).Sound where
  consistent := Tree.consistent_empty
  typed := typed_empty
  placed id inside := absurd (Tree.lt_size_of_contains inside) (Nat.not_lt_zero id)
  names {slot value} held := by
    simp [Tree.referenceAt?, Tree.referencesAt, Tree.slot?, Tree.node?, Tree.empty] at held
  waits {pending} := by
    simp [Tree.referenceAt?, Tree.referencesAt, Tree.slot?, Tree.node?, Tree.empty]
  once := List.nodup_nil

/-- Every text is read into a sound tree. -/
theorem sound_of_parse (text : String) :
    (⟨(parse text).tree, (parse text).pending⟩ : Draft).Sound := by
  unfold parse
  dsimp only
  split
  · next draft built => exact sound_of_build built
  · exact sound_empty

theorem code_of_fault (fault : Fault) (size : Nat) :
    (fault.diagnostic size).code = some Diagnostic.syntaxCode := by
  unfold Fault.diagnostic
  split
  · rfl
  · split <;> rfl

-- What is wrong with a text is not about its references.
theorem code_of_parse {text : String} :
    ∀ diagnostic ∈ (parse text).diagnostics, diagnostic.code = some Diagnostic.syntaxCode := by
  intro diagnostic member
  unfold parse at member
  dsimp only at member
  split at member
  · obtain ⟨fault, _, rfl⟩ := List.mem_map.mp member
    exact code_of_fault fault _
  · rcases List.mem_append.mp member with earlier | last
    · obtain ⟨fault, _, rfl⟩ := List.mem_map.mp earlier
      exact code_of_fault fault _
    · rw [List.mem_singleton.mp last]
      rfl

namespace Draft.Sound

variable (sound : draft.Sound)
include sound

theorem reached (inside : draft.tree.contains id = true) : id ∈ draft.tree.allNodes := by
  -- climbing ends, and it ends at the root because every other node has a container
  induction id using sound.consistent.ends.induction with
  | _ id ih =>
    rcases sound.placed id inside with rooted | ⟨⟨above, position⟩, held⟩
    · exact (sound.consistent.mem_allNodes_of_free (sound.consistent.root rooted).2).mpr rooted
    · have direct : draft.tree.Holds above id := ⟨position, held⟩
      exact (sound.consistent.mem_allNodes_of_holds direct).mpr
        (ih above direct (sound.consistent.forest.inside direct))

/-- The references wait, each once. -/
theorem perm_openReferences : draft.pending.Perm draft.tree.openReferences := by
  apply (List.perm_ext_iff_of_nodup sound.once sound.consistent.nodup_openSlots.of_map).mpr
  intro pending
  rw [sound.waits, sound.consistent.mem_openReferences]
  refine (and_iff_right_of_imp fun ⟨⟨feature, declared, _⟩, _⟩ => ?_).symm
  exact sound.reached (Tree.contains_of_feature? declared)

end Draft.Sound

end Crosslink.Types
