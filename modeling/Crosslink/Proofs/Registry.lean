import Crosslink.Preparation
import Crosslink.Proofs.OrderedMap

/-! Entering packages where their namespaces are free.

A registry only grows at its end, by the packages that are counted, and has all
namespaces afterwards.
-/

set_option autoImplicit false

namespace Crosslink.Registry

variable {registry later : Registry} {package : Package} {nsUri : String}

def GrowsTo (registry later : Registry) : Prop :=
  registry.packages.entries <+: later.packages.entries

theorem GrowsTo.contains (grows : registry.GrowsTo later)
    (present : registry.contains nsUri = true) : later.contains nsUri = true := by
  obtain ⟨more, entries⟩ := grows
  obtain ⟨package, found⟩ := Option.isSome_iff_exists.mp present
  unfold Registry.contains OrderedMap.contains OrderedMap.get?
  rw [← entries, List.lookup_append, show registry.packages.entries.lookup nsUri = some package from found]
  rfl

theorem entries_registerIfAbsent (registry : Registry) (package : Package) :
    (registry.registerIfAbsent package).packages.entries = registry.packages.entries ++
      if registry.contains package.nsUri then [] else [(package.nsUri, package)] := by
  unfold registerIfAbsent
  split
  · rw [List.append_nil]
  · next free =>
    have absent : registry.packages.contains package.nsUri = false := Bool.eq_false_iff.mpr free
    simp [register, OrderedMap.insert, absent]

theorem growsTo_registerIfAbsent (registry : Registry) (package : Package) :
    registry.GrowsTo (registry.registerIfAbsent package) :=
  ⟨_, (entries_registerIfAbsent registry package).symm⟩

theorem contains_registerIfAbsent (registry : Registry) (package : Package) :
    (registry.registerIfAbsent package).contains package.nsUri = true := by
  unfold registerIfAbsent
  split
  · assumption
  · simp [register, Registry.contains, OrderedMap.contains, OrderedMap.get?_insert]

theorem growsTo_registerAll (registry : Registry) (packages : List Package) :
    registry.GrowsTo (registry.registerAll packages).1 := by
  induction packages generalizing registry with
  | nil => exact List.prefix_refl _
  | cons package rest ih => exact (growsTo_registerIfAbsent registry package).trans (ih _)

theorem contains_registerAll {packages : List Package} (member : package ∈ packages) :
    (registry.registerAll packages).1.contains package.nsUri = true := by
  induction packages generalizing registry with
  | nil => cases member
  | cons first rest ih =>
    rcases List.mem_cons.mp member with rfl | later
    · exact (growsTo_registerAll _ rest).contains (contains_registerIfAbsent registry package)
    · exact ih later

/-- What is counted is what the registry grows by. -/
theorem size_registerAll (registry : Registry) (packages : List Package) :
    (registry.registerAll packages).1.packages.size =
      registry.packages.size + (registry.registerAll packages).2 := by
  induction packages generalizing registry with
  | nil => rfl
  | cons package rest ih =>
    have entered : (registry.registerIfAbsent package).packages.size = registry.packages.size +
        if registry.contains package.nsUri then 0 else 1 := by
      unfold OrderedMap.size
      rw [entries_registerIfAbsent, List.length_append]
      split <;> rfl
    have counted : (registry.registerAll (package :: rest)).1.packages.size =
        (registry.registerIfAbsent package).packages.size +
          ((registry.registerIfAbsent package).registerAll rest).2 := ih _
    rw [counted, entered, registerAll]
    dsimp only
    split <;> omega

end Crosslink.Registry
