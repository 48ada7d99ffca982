import Crosslink.Proofs.Resource.Views
import Crosslink.Proofs.ResourceSet.Members

/-! What an edit of one resource does to the references of a set.

The addresses of the nodes before and after the edit are compared. No two nodes
have one address, so that each reference follows its own target, also where a
new address was the old one of another node.
-/

set_option autoImplicit false

namespace Crosslink

namespace Content

variable {content : Content} {resource : ResourceUri} {id : NodeId}

theorem lookup_addresses (consistent : content.tree.Consistent) (id : NodeId) :
    (content.addresses resource).lookup id =
      (content.tree.fragment? id).map fun path => ⟨resource, path⟩ := by
  -- over any list of nodes, since the walk that lists them is not a recursion on the list
  have listed : ∀ nodes : List NodeId, (nodes.filterMap fun id =>
      (content.tree.fragment? id).map fun path => (id, (⟨resource, path⟩ : Uri))).lookup id =
        if id ∈ nodes then (content.tree.fragment? id).map fun path => ⟨resource, path⟩ else none := by
    intro nodes
    induction nodes with
    | nil => rfl
    | cons first rest ih =>
      rw [List.filterMap_cons]
      by_cases here : id = first
      · subst here
        cases found : content.tree.fragment? id with
        | none => simpa [found] using ih
        | some path => simp
      · cases found : content.tree.fragment? first with
        | none => simpa [here] using ih
        | some path =>
          rw [Option.map_some]
          dsimp only
          rw [OrderedMap.lookup_cons_of_ne here, ih]
          simp [here]
  rw [addresses, listed]
  split
  · rfl
  · next lost =>
    rw [← consistent.isSome_fragment?, Option.not_isSome_iff_eq_none] at lost
    rw [lost, Option.map_none]

theorem mem_addresses {uri : Uri} :
    (id, uri) ∈ content.addresses resource ↔
      id ∈ content.tree.allNodes ∧ ∃ path, content.tree.fragment? id = some path ∧
        uri = ⟨resource, path⟩ := by
  simp only [addresses, List.mem_filterMap, Option.map_eq_some_iff, Prod.mk.injEq]
  constructor
  · rintro ⟨_, member, path, found, rfl, rfl⟩
    exact ⟨member, path, found, rfl⟩
  · rintro ⟨member, path, found, rfl⟩
    exact ⟨id, member, path, found, rfl, rfl⟩

end Content

namespace OrderedMap

variable {κ α : Type} [DecidableEq κ]

-- A key with one value at most is found with that value.
theorem lookup_of_unique {entries : List (κ × α)} {key : κ} {value : α}
    (member : (key, value) ∈ entries) (unique : ∀ other, (key, other) ∈ entries → other = value) :
    entries.lookup key = some value := by
  cases found : entries.lookup key with
  | none => simpa using List.lookup_eq_none_iff.mp found _ member
  | some other => rw [unique other (@mem_of_get? _ _ _ ⟨entries⟩ _ _ found)]

end OrderedMap

namespace Relocation

variable {before after : Addresses} {id : NodeId} {old new : Uri}

def Distinct (addresses : Addresses) : Prop :=
  ∀ {first second : NodeId} {uri : Uri}, (first, uri) ∈ addresses → (second, uri) ∈ addresses →
    first = second

theorem mem_moved : (old, new) ∈ (between before after).moved ↔
    ∃ id, (id, old) ∈ before ∧ after.lookup id = some new ∧ new ≠ old := by
  simp only [between, List.mem_filterMap, Prod.exists]
  constructor
  · rintro ⟨id, old', member, moved⟩
    split at moved
    · next new' found =>
      split at moved
      · next apart =>
        cases moved
        exact ⟨id, member, found, apart⟩
      · cases moved
    · cases moved
  · rintro ⟨id, member, found, apart⟩
    exact ⟨id, old, member, by simp [found, apart]⟩

theorem mem_detached : old ∈ (between before after).detached ↔
    ∃ id, (id, old) ∈ before ∧ after.lookup id = none := by
  simp only [between, List.mem_filterMap, Prod.exists]
  constructor
  · rintro ⟨id, old', member, gone⟩
    split at gone
    · next lost =>
      cases gone
      exact ⟨id, member, by simpa using lost⟩
    · cases gone
  · rintro ⟨id, member, lost⟩
    exact ⟨id, old, member, by simp [lost]⟩

/-- An address that no node has left is not among those that moved. -/
theorem lookup_moved_eq_none
    (still : ∀ id new, (id, old) ∈ before → after.lookup id = some new → new = old) :
    (between before after).moved.lookup old = none := by
  rw [List.lookup_eq_none_iff]
  rintro ⟨left, new⟩ listed
  obtain ⟨id, member, found, apart⟩ := mem_moved.mp listed
  rw [bne_iff_ne]
  rintro rfl
  exact apart (still id new member found)

section Distinct

variable (distinct : Distinct before) (member : (id, old) ∈ before)
include distinct member

-- That no two nodes have one address is needed on both sides: the first entry for the old address
-- is the only one, and where the node has not moved there is none.
theorem lookup_moved (found : after.lookup id = some new) :
    (between before after).moved.lookup old = if new = old then none else some new := by
  split
  · next same =>
    apply lookup_moved_eq_none
    intro other new' member' found'
    cases distinct member member'
    exact (Option.some.inj (found'.symm.trans found)).trans same
  · next apart =>
    apply OrderedMap.lookup_of_unique (mem_moved.mpr ⟨id, member, found, apart⟩)
    intro other listed
    obtain ⟨id', member', found', _⟩ := mem_moved.mp listed
    cases distinct member member'
    exact Option.some.inj (found'.symm.trans found)

theorem mem_detached_iff : old ∈ (between before after).detached ↔ after.lookup id = none := by
  rw [mem_detached]
  constructor
  · rintro ⟨other, member', lost⟩
    cases distinct member member'
    exact lost
  · exact fun lost => ⟨id, member, lost⟩

theorem not_mem_detached (found : after.lookup id = some new) :
    old ∉ (between before after).detached := by
  rw [mem_detached_iff distinct member, found]
  exact Option.some_ne_none new

theorem follow?_bound (found : after.lookup id = some new) :
    (between before after).follow? (.bound old) = if new = old then none else some (.bound new) := by
  have kept := not_mem_detached distinct member found
  simp only [follow?, kept, if_false, lookup_moved distinct member found]
  split <;> rfl

theorem lost?_bound (found : after.lookup id = some new) :
    (between before after).lost? (.bound old) = none :=
  if_neg (not_mem_detached distinct member found)

theorem follow?_bound_of_lost (lost : after.lookup id = none) :
    (between before after).follow? (.bound old) = none := by
  have gone := (mem_detached_iff distinct member).mpr lost
  simp [follow?, gone]

theorem lost?_bound_of_lost (lost : after.lookup id = none) :
    (between before after).lost? (.bound old) = some old :=
  if_pos ((mem_detached_iff distinct member).mpr lost)

theorem follow?_uri (found : after.lookup id = some new) :
    (between before after).follow? (.unresolved (.uri old)) =
      if new = old then none else some (.unresolved (.uri new)) := by
  simp only [follow?, lookup_moved distinct member found]
  split <;> rfl

end Distinct

-- A reference that is open to a node that is gone stays as it is: it waits already.
theorem follow?_eq_none {value : Reference}
    (elsewhere : ∀ id old, (id, old) ∈ before → value ≠ .bound old)
    (open_elsewhere : ∀ id old new, (id, old) ∈ before → after.lookup id = some new →
      value ≠ .unresolved (.uri old)) :
    (between before after).follow? value = none ∧ (between before after).lost? value = none := by
  cases value with
  | bound target =>
    have kept : target ∉ (between before after).detached := by
      rintro gone
      obtain ⟨id, member, _⟩ := mem_detached.mp gone
      exact elsewhere id target member rfl
    have unmoved : (between before after).moved.lookup target = none :=
      lookup_moved_eq_none fun id _ member _ => absurd rfl (elsewhere id target member)
    simp [follow?, lost?, kept, unmoved]
  | unresolved proxy =>
    cases proxy with
    | name name => exact ⟨rfl, rfl⟩
    | uri target =>
      have unmoved : (between before after).moved.lookup target = none :=
        lookup_moved_eq_none fun id new member found =>
          absurd rfl (open_elsewhere id target new member found)
      simp [follow?, lost?, unmoved]

theorem relocate?_of_isEmpty {relocation : Relocation} (empty : relocation.isEmpty = true)
    (content : Content) : content.relocate? relocation = none := by
  obtain ⟨moved, detached⟩ := relocation
  simp only [isEmpty, Bool.and_eq_true, List.isEmpty_iff] at empty
  obtain ⟨rfl, rfl⟩ := empty
  have still : ∀ value, follow? ⟨[], []⟩ value = none := by
    intro value
    cases value with
    | bound target => rfl
    | unresolved proxy => cases proxy <;> rfl
  have kept : ∀ value, lost? ⟨[], []⟩ value = none := by
    intro value
    cases value <;> rfl
  have none_moves : Content.picked content.tree (follow? ⟨[], []⟩) = [] := by
    simp [Content.picked, still]
  have none_lost : Content.picked content.tree (lost? ⟨[], []⟩) = [] := by
    simp [Content.picked, kept]
  unfold Content.picked at none_moves none_lost
  unfold Content.relocate?
  simp only [none_moves, none_lost]
  rfl

end Relocation

end Crosslink
