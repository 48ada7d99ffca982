/-! Finite maps that remember the order in which their keys first came.

An answer that lists entries lists them in this order. Assigning to a key that
is present keeps its place.
-/

set_option autoImplicit false

namespace Crosslink

/-- Key and value pairs, oldest key first. -/
structure OrderedMap (κ α : Type) where
  entries : List (κ × α) := []

namespace OrderedMap

variable {κ α β : Type}

def empty : OrderedMap κ α := {}

def keys (m : OrderedMap κ α) : List κ := m.entries.map (·.1)

def values (m : OrderedMap κ α) : List α := m.entries.map (·.2)

def size (m : OrderedMap κ α) : Nat := m.entries.length

/-- Keep the entries that satisfy a test, in their order. -/
def filter (m : OrderedMap κ α) (keep : κ → α → Bool) : OrderedMap κ α :=
  ⟨m.entries.filter fun entry => keep entry.1 entry.2⟩

def mapValues (m : OrderedMap κ α) (change : α → β) : OrderedMap κ β :=
  ⟨m.entries.map fun entry => (entry.1, change entry.2)⟩

section Lookup

variable [DecidableEq κ]

def get? (m : OrderedMap κ α) (key : κ) : Option α := m.entries.lookup key

def contains (m : OrderedMap κ α) (key : κ) : Bool := (m.get? key).isSome

/-- Assign to a key: in place when it is present, at the end when it is not. -/
def insert (m : OrderedMap κ α) (key : κ) (value : α) : OrderedMap κ α :=
  if m.contains key then
    ⟨m.entries.map fun entry => if entry.1 = key then (key, value) else entry⟩
  else
    ⟨m.entries ++ [(key, value)]⟩

/-- Drop a key; the others close up in their order. -/
def erase (m : OrderedMap κ α) (key : κ) : OrderedMap κ α :=
  m.filter fun other _ => other ≠ key

def modify (m : OrderedMap κ α) (key : κ) (change : α → α) : OrderedMap κ α :=
  ⟨m.entries.map fun entry => if entry.1 = key then (entry.1, change entry.2) else entry⟩

theorem keys_insert_of_contains {m : OrderedMap κ α} {key : κ} (value : α)
    (present : m.contains key = true) : (m.insert key value).keys = m.keys := by
  simp only [insert, present, if_true, keys, List.map_map]
  refine List.map_congr_left fun entry _ => ?_
  simp only [Function.comp]
  split <;> simp_all

theorem keys_insert_of_not_contains {m : OrderedMap κ α} {key : κ} (value : α)
    (absent : m.contains key = false) : (m.insert key value).keys = m.keys ++ [key] := by
  simp [insert, absent, keys]

theorem keys_modify (m : OrderedMap κ α) (key : κ) (change : α → α) :
    (m.modify key change).keys = m.keys := by
  simp only [modify, keys, List.map_map]
  refine List.map_congr_left fun entry _ => ?_
  simp only [Function.comp]
  split <;> rfl

end Lookup

end OrderedMap

end Crosslink
