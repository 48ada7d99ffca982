import Crosslink.OrderedMap
import Mathlib.Data.List.Induction
import Mathlib.Data.List.Nodup

/-! Reading an ordered map after a change of one key. -/

set_option autoImplicit false

namespace Crosslink.OrderedMap

variable {κ α β : Type} [DecidableEq κ]

theorem lookup_cons_of_ne {key first : κ} (apart : key ≠ first) (held : α) (rest : List (κ × α)) :
    ((first, held) :: rest).lookup key = rest.lookup key := by
  have differs : (key == first) = false := by simpa using apart
  rw [List.lookup_cons, differs]

theorem lookup_map (entries : List (κ × α)) (change : κ → α → β) (key : κ) :
    (entries.map fun entry => (entry.1, change entry.1 entry.2)).lookup key =
      (entries.lookup key).map (change key) := by
  induction entries with
  | nil => rfl
  | cons entry rest ih =>
    obtain ⟨first, held⟩ := entry
    rw [List.map_cons]
    by_cases hit : key = first
    · simp [hit]
    · rw [lookup_cons_of_ne hit, lookup_cons_of_ne hit, ih]

theorem lookup_filter (entries : List (κ × α)) (keep : κ → Bool) (key : κ) :
    (entries.filter fun entry => keep entry.1).lookup key =
      if keep key then entries.lookup key else none := by
  induction entries with
  | nil => simp
  | cons entry rest ih =>
    obtain ⟨first, held⟩ := entry
    rw [List.filter_cons]
    by_cases hit : key = first
    · subst hit
      cases kept : keep key with
      | true => simp
      | false => simpa [kept] using ih
    · rw [lookup_cons_of_ne hit, ← ih]
      split
      · rw [lookup_cons_of_ne hit]
      · rfl

theorem get?_eq_none_iff {m : OrderedMap κ α} {key : κ} : m.get? key = none ↔ key ∉ m.keys := by
  simp only [get?, keys, List.lookup_eq_none_iff, List.mem_map, not_exists, not_and, bne_iff_ne]
  exact ⟨fun apart entry member same => apart entry member same.symm,
    fun absent entry member same => absent entry member same.symm⟩

theorem get?_of_not_contains {m : OrderedMap κ α} {key : κ} (absent : ¬ m.contains key = true) :
    m.get? key = none := by
  rwa [contains, Option.not_isSome_iff_eq_none] at absent

theorem get?_insert (m : OrderedMap κ α) (key other : κ) (value : α) :
    (m.insert key value).get? other = if other = key then some value else m.get? other := by
  simp only [insert, get?]
  split
  · next present =>
    have assigned : (m.entries.map fun entry => if entry.1 = key then (key, value) else entry) =
        m.entries.map fun entry => (entry.1, if entry.1 = key then value else entry.2) := by
      apply List.map_congr_left
      intro entry _
      split
      · next here => rw [here]
      · rfl
    rw [assigned, lookup_map _ fun first held => if first = key then value else held]
    by_cases asked : other = key
    · obtain ⟨held, found⟩ := Option.isSome_iff_exists.mp present
      rw [get?] at found
      simp [asked, found]
    · simp [asked]
  · next absent =>
    have missing : m.entries.lookup key = none := get?_of_not_contains absent
    rw [List.lookup_append]
    by_cases asked : other = key
    · simp [asked, missing]
    · rw [lookup_cons_of_ne asked]
      simp [asked]

theorem get?_erase (m : OrderedMap κ α) (key other : κ) :
    (m.erase key).get? other = if other = key then none else m.get? other := by
  simp only [erase, filter, get?]
  rw [lookup_filter m.entries fun first => first ≠ key]
  by_cases asked : other = key <;> simp [asked]

theorem get?_modify (m : OrderedMap κ α) (key other : κ) (change : α → α) :
    (m.modify key change).get? other =
      if other = key then (m.get? other).map change else m.get? other := by
  have changed : (m.modify key change).entries =
      m.entries.map fun entry => (entry.1, if entry.1 = key then change entry.2 else entry.2) := by
    apply List.map_congr_left
    intro entry _
    split <;> rfl
  simp only [get?]
  rw [changed, lookup_map _ fun first held => if first = key then change held else held]
  by_cases asked : other = key <;> simp [asked]

theorem get?_mapValues (m : OrderedMap κ α) (change : α → β) (key : κ) :
    (m.mapValues change).get? key = (m.get? key).map change :=
  lookup_map m.entries (fun _ => change) key

omit [DecidableEq κ] in
theorem keys_mapValues (m : OrderedMap κ α) (change : α → β) :
    (m.mapValues change).keys = m.keys := by
  simp [mapValues, keys]

theorem mem_insert {m : OrderedMap κ α} {key other : κ} {value held : α}
    (member : (other, held) ∈ (m.insert key value).entries) :
    other = key ∧ held = value ∨ other ≠ key ∧ (other, held) ∈ m.entries := by
  simp only [insert] at member
  split at member
  · obtain ⟨entry, earlier, assigned⟩ := List.mem_map.mp member
    split at assigned
    · cases assigned
      exact .inl ⟨rfl, rfl⟩
    · next apart =>
      subst assigned
      exact .inr ⟨apart, earlier⟩
  · next absent =>
    rcases List.mem_append.mp member with earlier | last
    · refine .inr ⟨?_, earlier⟩
      rintro rfl
      exact get?_eq_none_iff.mp (get?_of_not_contains absent) (List.mem_map_of_mem earlier)
    · simpa using Or.inl last

theorem mem_erase {m : OrderedMap κ α} {key other : κ} {held : α} :
    (other, held) ∈ (m.erase key).entries ↔ other ≠ key ∧ (other, held) ∈ m.entries := by
  simp [erase, filter, and_comm]

theorem mem_of_get? {m : OrderedMap κ α} {key : κ} {value : α} (found : m.get? key = some value) :
    (key, value) ∈ m.entries := by
  obtain ⟨before, after, cut, _⟩ := List.lookup_eq_some_iff.mp found
  simp [cut]

theorem get?_of_mem {m : OrderedMap κ α} {key : κ} {value : α} (once : m.keys.Nodup)
    (member : (key, value) ∈ m.entries) : m.get? key = some value := by
  obtain ⟨before, after, cut⟩ := List.append_of_mem member
  refine List.lookup_eq_some_iff.mpr ⟨before, after, cut, fun entry earlier => ?_⟩
  rw [keys, cut, List.map_append, List.nodup_append] at once
  simpa using (once.2.2 _ (List.mem_map_of_mem earlier) key (by simp)).symm

theorem get?_filter (m : OrderedMap κ α) (keep : κ → α → Bool) (key : κ)
    (once : m.keys.Nodup) : (m.filter keep).get? key = (m.get? key).filter (keep key) := by
  obtain ⟨entries⟩ := m
  simp only [keys, filter, get?] at once ⊢
  induction entries with
  | nil => rfl
  | cons entry rest ih =>
    obtain ⟨first, held⟩ := entry
    obtain ⟨fresh, once⟩ := List.nodup_cons.mp once
    replace ih := ih once
    rw [List.filter_cons]
    by_cases hit : key = first
    · subst hit
      have missing : rest.lookup key = none := (@get?_eq_none_iff _ _ _ ⟨rest⟩ _).mpr fresh
      cases kept : keep key held with
      | true => simp [Option.filter, kept]
      | false => simpa [kept, Option.filter, missing] using ih
    · rw [lookup_cons_of_ne hit, ← ih]
      split
      · rw [lookup_cons_of_ne hit]
      · rfl

theorem nodup_keys_insert {m : OrderedMap κ α} (key : κ) (value : α) (once : m.keys.Nodup) :
    (m.insert key value).keys.Nodup := by
  cases present : m.contains key with
  | true => rwa [keys_insert_of_contains value present]
  | false =>
    rw [keys_insert_of_not_contains value present, List.nodup_append]
    refine ⟨once, by simp, fun first member last single => ?_⟩
    rw [List.mem_singleton.mp single]
    rintro rfl
    exact get?_eq_none_iff.mp (get?_of_not_contains (by simp [present])) member

omit [DecidableEq κ] in
theorem nodup_keys_filter {m : OrderedMap κ α} (keep : κ → α → Bool) (once : m.keys.Nodup) :
    (m.filter keep).keys.Nodup :=
  (List.filter_sublist.map _).nodup once

/-! ### Many assignments -/

omit [DecidableEq κ] in
def Holds (m : OrderedMap κ α) (key : κ) (value : α) : Prop :=
  ∀ held, (key, held) ∈ m.entries ↔ held = value

theorem mem_insert_self {m : OrderedMap κ α} {key : κ} {value held : α} :
    (key, held) ∈ (m.insert key value).entries ↔ held = value := by
  constructor
  · intro member
    rcases mem_insert member with ⟨_, same⟩ | ⟨apart, _⟩
    · exact same
    · exact absurd rfl apart
  · rintro rfl
    apply mem_of_get?
    rw [get?_insert, if_pos rfl]

theorem mem_insert_of_ne {m : OrderedMap κ α} {key other : κ} {value held : α}
    (apart : other ≠ key) :
    (other, held) ∈ (m.insert key value).entries ↔ (other, held) ∈ m.entries := by
  constructor
  · intro member
    rcases mem_insert member with ⟨same, _⟩ | ⟨_, earlier⟩
    · exact absurd same apart
    · exact earlier
  · intro member
    unfold insert
    split
    · exact List.mem_map.mpr ⟨_, member, if_neg apart⟩
    · exact List.mem_append_left _ member

theorem get?_of_holds {m : OrderedMap κ α} {key : κ} {value : α} (holds : m.Holds key value) :
    m.get? key = some value := by
  cases found : m.get? key with
  | none =>
    have member := (holds value).mpr rfl
    exact absurd (List.mem_map_of_mem member) (get?_eq_none_iff.mp found)
  | some held => rw [(holds held).mp (mem_of_get? found)]

def insertAll (m : OrderedMap κ α) (entries : List (κ × α)) : OrderedMap κ α :=
  entries.foldl (fun m entry => m.insert entry.1 entry.2) m

-- The induction is from the end, since the last assignment to a key is the one that counts.
theorem insertAll_of_contains {m : OrderedMap κ α} {entries : List (κ × α)}
    (present : ∀ entry ∈ entries, m.contains entry.1 = true) :
    m.insertAll entries =
      ⟨m.entries.map fun entry => (entry.1, (entries.reverse.lookup entry.1).getD entry.2)⟩ := by
  induction entries using List.reverseRecOn with
  | nil => simp [insertAll]
  | append_singleton entries last ih =>
    obtain ⟨key, value⟩ := last
    replace ih := ih fun entry member => present entry (List.mem_append_left _ member)
    have there : (m.insertAll entries).contains key = true := by
      have held := present (key, value) (by simp)
      rw [contains, get?] at held ⊢
      rw [ih]
      dsimp only
      rw [lookup_map _ fun first held => (entries.reverse.lookup first).getD held,
        Option.isSome_map]
      exact held
    have step : m.insertAll (entries ++ [(key, value)]) =
        (m.insertAll entries).insert key value := by
      unfold insertAll
      rw [List.foldl_append]
      rfl
    rw [step, insert, if_pos there, ih, List.map_map]
    congr 1
    apply List.map_congr_left
    intro entry _
    simp only [Function.comp_apply, List.reverse_append, List.reverse_cons, List.reverse_nil,
      List.nil_append, List.singleton_append]
    split
    · next here => simp [here]
    · next apart => rw [lookup_cons_of_ne apart]

/-- Assignments that end where they began change nothing. -/
theorem insertAll_of_holds {m : OrderedMap κ α} {entries : List (κ × α)}
    (holds : ∀ key value, entries.reverse.lookup key = some value → m.Holds key value) :
    m.insertAll entries = m := by
  have last : ∀ {key value}, (key, value) ∈ entries →
      ∃ value, entries.reverse.lookup key = some value := by
    intro key value member
    rw [← Option.isSome_iff_exists, ← Option.ne_none_iff_isSome, Ne, List.lookup_eq_none_iff]
    intro absent
    simpa using absent (key, value) (List.mem_reverse.mpr member)
  rw [insertAll_of_contains]
  · have same : ∀ entry ∈ m.entries,
        (entry.1, (entries.reverse.lookup entry.1).getD entry.2) = entry := by
      rintro ⟨key, held⟩ member
      cases found : entries.reverse.lookup key with
      | none => rfl
      | some value => rw [Option.getD_some, ((holds key value found) held).mp member]
    rw [List.map_congr_left same, List.map_id']
  · rintro ⟨key, value⟩ member
    obtain ⟨value, found⟩ := last member
    rw [contains, get?_of_holds (holds key value found)]
    rfl

end Crosslink.OrderedMap
