import Crosslink.Proofs.Linking.Lasting
import Crosslink.Proofs.Resource.Opening

/-! How the others fare when the nodes of a member go away.

A member is unloaded, removed, or read anew. In every other member exactly the
references that lead into it are opened, and nothing else changes; a member
without such a reference is not touched.
-/

set_option autoImplicit false

namespace Crosslink

/-- The references of a resource into another one have been opened, and the stamp tells whether
there was any. -/
structure Resource.OpenedInto (target : ResourceUri) (before after : Resource) : Prop where
  uri : after.uri = before.uri
  language : after.language = before.language
  closed : before.content = none → after = before
  content : ∀ {own}, before.content = some own → ∃ last gained, after.content = some last ∧
    own.Opened target last gained ∧ (∀ slot address, ¬ last.LeadsInto target slot address) ∧
    (after.stamp ≠ before.stamp ↔ gained ≠ []) ∧ (gained = [] → after = before)

theorem Resource.openedInto_demote {resource : Resource} (target : ResourceUri)
    (consistent : ∀ own, resource.content = some own → own.tree.Consistent) :
    resource.OpenedInto target (resource.demote target) := by
  refine ⟨resource.uri_update _, resource.language_update _, fun closed => ?_, fun {own} held => ?_⟩
  · unfold demote update
    rw [closed]
    rfl
  · have fine := consistent own held
    have opened := Content.opened_reopenAll fine (Content.boundInto_eq target)
    have after : (resource.demote target).content = some (own.reopenAll (own.boundInto target)) := by
      rw [demote, content_update, held, Option.map_some, Content.demote?_eq, Content.boundInto_eq]
    refine ⟨_, _, after, opened, fun _ _ => opened.free fine, ?_⟩
    unfold demote update Content.demote?
    rw [held]
    cases slots : own.boundInto target with
    | nil => simp [slots, Content.gains]
    | cons slot rest =>
      -- whatever is opened counts as a change
      have counted : (resource.put (own.reopenAll (slot :: rest))).stamp ≠ resource.stamp := by
        intro same
        exact absurd (congrArg Stamp.revision same) (Nat.succ_ne_self _)
      simp [slots, Content.gains, counted]

namespace ResourceSet

variable {set : ResourceSet} {uri home : ResourceUri}

inductive Withdrawal where
  | unload
  | remove
  | reload (text : String)

def withdraw (set : ResourceSet) (uri : ResourceUri) : Withdrawal → ResourceSet
  | .unload => (set.unload uri).1
  | .remove => (set.remove uri).1
  | .reload text => (set.load uri text).1

/-- The resource is a member, and loaded if it is to be read anew. -/
def Withdraws (set : ResourceSet) (uri : ResourceUri) : Withdrawal → Prop
  | .unload | .remove => set.contains uri = true
  | .reload _ => set.isLoaded uri = true

theorem get?_withdraw {withdrawal : Withdrawal} (applies : set.Withdraws uri withdrawal)
    (apart : home ≠ uri) :
    (set.withdraw uri withdrawal).get? home = (set.get? home).map (·.demote uri) := by
  cases withdrawal with
  | unload => exact (get?_unload applies home).trans (if_neg apart)
  | remove => exact (get?_remove applies home).trans (if_neg apart)
  | reload text => exact get?_load_of_loaded applies apart

theorem uris_withdraw {withdrawal : Withdrawal} (applies : set.Withdraws uri withdrawal) :
    (set.withdraw uri withdrawal).uris.filter (· ≠ uri) = set.uris.filter (· ≠ uri) := by
  cases withdrawal with
  | unload => rw [withdraw, uris_unload]
  | reload text =>
    have loaded : set.isLoaded uri = true := applies
    rw [withdraw, load, if_pos (contains_of_isLoaded loaded), if_pos loaded, uris_loadMember,
      uris_demoteInto]
  | remove =>
    obtain ⟨resource, found⟩ := Option.isSome_iff_exists.mp applies
    rw [withdraw, remove, found]
    dsimp only
    rw [uris_demoteInto, uris, uris, List.filter_map, List.filter_map, List.filter_filter]
    simp [Function.comp_def]

/-- When the nodes of a resource go away, the references of the other members into it are opened,
and only these. The others stay members, and one that has no such reference is what it was. -/
theorem openedInto_withdraw {withdrawal : Withdrawal} (wellFormed : set.WellFormed)
    (applies : set.Withdraws uri withdrawal) :
    (set.withdraw uri withdrawal).uris.filter (· ≠ uri) = set.uris.filter (· ≠ uri) ∧
      ∀ home ≠ uri, ∀ resource, set.get? home = some resource →
        ∃ after, (set.withdraw uri withdrawal).get? home = some after ∧
          resource.OpenedInto uri after := by
  refine ⟨uris_withdraw applies, fun home apart resource found => ?_⟩
  refine ⟨resource.demote uri, ?_, Resource.openedInto_demote uri fun own held => ?_⟩
  · rw [get?_withdraw applies apart, found, Option.map_some]
  · exact (wellFormed (Option.bind_eq_some_iff.mpr ⟨resource, found, held⟩)).consistent

/-! ### A type that refers to types of two texts -/

def crossed : ResourceSet :=
  let types : ResourceSet := { languages := ({} : Languages).register Types.language }
  let user := (types.load userUri "type A extends B implements C, D").1
  let one := (user.load oneUri "type B type C").1
  (Linking.link (Linking.globalScope .simple) (fun _ => false) (one.load otherUri "type D").1).1

def bindByHand : List Edit :=
  [.addReference 1 "implements" (.bound ⟨oneUri, .ofSteps []⟩), .create Types.typeClass,
    .setReference 2 "extends" (.bound (typeAddress oneUri 0))]

def crossedByHand : ResourceSet := (crossed.edit userUri fun tree => (tree.run bindByHand, ())).1

def waiting (set : ResourceSet) : Option (List Pending × List (Option Reference)) :=
  (set.content? userUri).map fun content => (content.pending,
    [⟨1, 2, some 1⟩, ⟨2, 1, none⟩].map content.tree.referenceAt?)

theorem crossedByHand_reachable : crossedByHand.Reachable :=
  .edit ((((Reachable.types.load userUri _).load oneUri _).load otherUri _).linked _ _) userUri
    bindByHand

/-- Two names wait again, and the address of a text. What leads to the other text is still bound,
and what is in the type that cannot be reached. -/
theorem openedInto_withdraw_crossed : crossedByHand.WellFormed ∧
    ∀ withdrawal ∈ [.unload, .remove, .reload "type C"],
      crossedByHand.Withdraws oneUri withdrawal ∧
      (∀ home ≠ oneUri, ∀ resource, crossedByHand.get? home = some resource →
        ∃ after, (crossedByHand.withdraw oneUri withdrawal).get? home = some after ∧
          resource.OpenedInto oneUri after) ∧
      waiting (crossedByHand.withdraw oneUri withdrawal) = some (
        [⟨⟨1, 1, none⟩, .name ⟨["B"]⟩⟩, ⟨⟨1, 2, some 0⟩, .name ⟨["C"]⟩⟩,
          ⟨⟨1, 2, some 2⟩, .uri ⟨oneUri, .ofSteps []⟩⟩],
        [some (.bound (typeAddress otherUri 0)), some (.bound (typeAddress oneUri 0))]) := by
  have wellFormed : crossedByHand.WellFormed := crossedByHand_reachable.wellFormed
  have seen : (crossedByHand.isLoaded oneUri, [Withdrawal.unload, .remove, .reload "type C"].map
      fun withdrawal => waiting (crossedByHand.withdraw oneUri withdrawal)) =
    (true, .replicate 3 (some (
      [⟨⟨1, 1, none⟩, .name ⟨["B"]⟩⟩, ⟨⟨1, 2, some 0⟩, .name ⟨["C"]⟩⟩,
        ⟨⟨1, 2, some 2⟩, .uri ⟨oneUri, .ofSteps []⟩⟩],
      [some (.bound (typeAddress otherUri 0)), some (.bound (typeAddress oneUri 0))]))) := by
    cbv
  obtain ⟨loaded, waits⟩ := Prod.mk.inj seen
  refine ⟨wellFormed, fun withdrawal listed => ?_⟩
  have applies : crossedByHand.Withdraws oneUri withdrawal := by
    cases withdrawal with
    | unload => exact contains_of_isLoaded loaded
    | remove => exact contains_of_isLoaded loaded
    | reload text => exact loaded
  refine ⟨applies, (openedInto_withdraw wellFormed applies).2, ?_⟩
  exact List.eq_of_mem_replicate (waits ▸ List.mem_map_of_mem listed)

end ResourceSet

end Crosslink
