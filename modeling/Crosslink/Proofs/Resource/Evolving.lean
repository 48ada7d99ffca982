import Crosslink.Description.Basic
import Crosslink.Proofs.ResourceSet.Members
import Mathlib.Data.List.Perm.Subperm

/-! Resources in the course of time.

A resource is known by its serial number, which no other has. What can be described of it changes
only when its revision grows.
-/

set_option autoImplicit false

namespace Crosslink

namespace Resource

/-- What a description of the resource is made from, besides its URI. -/
def aspects (resource : Resource) : Stamp × Option Tree × List QualifiedName :=
  (resource.stamp, resource.tree?, resource.importedNames)

structure Evolves (before after : Resource) : Prop where
  uri : after.uri = before.uri
  serial : after.stamp.serial = before.stamp.serial
  change : before.stamp.revision < after.stamp.revision ∨ after.aspects = before.aspects

variable {resource before after last : Resource}

theorem compute_of_aspects {strategy : Description.Strategy} (uri : after.uri = before.uri)
    (same : after.aspects = before.aspects) :
    Description.compute strategy after = Description.compute strategy before := by
  obtain ⟨stamp, others⟩ := Prod.mk.inj same
  obtain ⟨tree, names⟩ := Prod.mk.inj others
  unfold Description.compute root?
  rw [uri, stamp, tree, names]

theorem Evolves.refl (resource : Resource) : resource.Evolves resource := ⟨rfl, rfl, .inr rfl⟩

theorem Evolves.revision (evolves : before.Evolves after) :
    before.stamp.revision ≤ after.stamp.revision := by
  rcases evolves.change with grown | same
  · exact Nat.le_of_lt grown
  · have stamp : after.stamp = before.stamp := congrArg Prod.fst same
    exact Nat.le_of_eq (congrArg Stamp.revision stamp).symm

theorem Evolves.trans (first : before.Evolves after) (second : after.Evolves last) :
    before.Evolves last where
  uri := second.uri.trans first.uri
  serial := second.serial.trans first.serial
  change := by
    have earlier := first.revision
    have later := second.revision
    rcases first.change, second.change with ⟨grown | same, grown' | same'⟩
    · exact .inl (by omega)
    · exact .inl (by omega)
    · exact .inl (by omega)
    · exact .inr (same'.trans same)

/-- A resource that did not count a change is described as before. -/
theorem Evolves.same (evolves : before.Evolves after)
    (still : after.stamp.revision ≤ before.stamp.revision) : after.aspects = before.aspects := by
  rcases evolves.change with grown | same
  · exact absurd still (Nat.not_le.mpr grown)
  · exact same

theorem evolves_put (resource : Resource) (content : Content) :
    resource.Evolves (resource.put content) :=
  ⟨rfl, rfl, .inl (Nat.lt_succ_self _)⟩

theorem evolves_update (resource : Resource) (change? : Content → Option Content) :
    resource.Evolves (resource.update change?) := by
  unfold update
  split
  · exact resource.evolves_put _
  · exact .refl resource

theorem evolves_unload (resource : Resource) : resource.Evolves resource.unload := by
  unfold unload
  split
  · exact ⟨rfl, rfl, .inl (Nat.lt_succ_self _)⟩
  · exact .refl resource

theorem evolves_load {text : String} {report : LoadReport}
    (done : resource.load text = .ok (after, report)) : resource.Evolves after := by
  obtain ⟨language, _, rfl⟩ := load_ok done
  exact resource.evolves_put _

theorem evolves_edit {α : Type} {change : Tree → Tree × α} {answer : α} {relocation : Relocation}
    (done : resource.edit change = .ok (after, answer, relocation)) : resource.Evolves after := by
  unfold edit at done
  split at done
  · cases done
  · cases done
    exact resource.evolves_put _

end Resource

/-- All resources of a moment; serial numbers have been given out up to a bound. -/
structure Population where
  serial : Nat
  resources : List Resource

namespace Population

def serials (population : Population) : List Nat := population.resources.map (·.stamp.serial)

structure Numbered (population : Population) : Prop where
  distinct : population.serials.Nodup
  below : ∀ resource ∈ population.resources, resource.stamp.serial < population.serial

theorem Numbered.eq_of_serial {population : Population} (numbered : population.Numbered)
    {first second : Resource} (left : first ∈ population.resources)
    (right : second ∈ population.resources) (same : first.stamp.serial = second.stamp.serial) :
    first = second :=
  List.inj_on_of_nodup_map numbered.distinct left right same

def issued (before after : Population) : List Nat :=
  List.range' before.serial (after.serial - before.serial)

structure Evolves (before after : Population) : Prop where
  serial : before.serial ≤ after.serial
  serials : after.serials.Subperm (before.serials ++ before.issued after)
  resources : ∀ later ∈ after.resources, later.stamp.serial < before.serial →
    ∃ earlier ∈ before.resources, earlier.Evolves later

variable {before after last : Population}

theorem issued_append (rises : before.serial ≤ after.serial) (rises' : after.serial ≤ last.serial) :
    before.issued after ++ after.issued last = before.issued last := by
  have start : after.serial = before.serial + 1 * (after.serial - before.serial) := by omega
  have length : last.serial - before.serial =
      (after.serial - before.serial) + (last.serial - after.serial) := by omega
  unfold issued
  nth_rewrite 2 [start]
  rw [List.range'_append, length]

theorem mem_issued {serial : Nat} (issued : serial ∈ before.issued after) :
    before.serial ≤ serial ∧ serial < after.serial := by
  have := List.mem_range'_1.mp issued
  omega

/-- Resources that go away, and others that are arranged anew. -/
theorem evolves_of_subperm {serial : Nat} {before after : List Resource}
    (left : after.Subperm before) : Evolves ⟨serial, before⟩ ⟨serial, after⟩ where
  serial := Nat.le_refl _
  serials := by
    obtain ⟨some, same, chosen⟩ := left
    exact ⟨some.map (·.stamp.serial), same.map _,
      (chosen.map _).trans (List.sublist_append_left _ _)⟩
  resources := fun resource member _ => ⟨resource, left.subset member, .refl resource⟩

theorem Evolves.refl (population : Population) : population.Evolves population :=
  evolves_of_subperm (.refl _)

theorem Evolves.trans (first : before.Evolves after) (second : after.Evolves last) :
    before.Evolves last where
  serial := Nat.le_trans first.serial second.serial
  serials := by
    have joined := second.serials.trans ((List.subperm_append_right _).mpr first.serials)
    rwa [List.append_assoc, issued_append first.serial second.serial] at joined
  resources := by
    intro final member old
    obtain ⟨later, present, evolved⟩ :=
      second.resources final member (Nat.lt_of_lt_of_le old first.serial)
    obtain ⟨earlier, start, evolved'⟩ := first.resources later present (evolved.serial ▸ old)
    exact ⟨earlier, start, evolved'.trans evolved⟩

/-- Resources that are changed where they stand. -/
theorem evolves_map {serial : Nat} {resources : List Resource} {change : Resource → Resource}
    (evolves : ∀ resource ∈ resources, resource.Evolves (change resource)) :
    Evolves ⟨serial, resources⟩ ⟨serial, resources.map change⟩ where
  serial := Nat.le_refl _
  serials := by
    have same : (resources.map change).map (·.stamp.serial) = resources.map (·.stamp.serial) := by
      rw [List.map_map]
      exact List.map_congr_left fun resource member => (evolves resource member).serial
    rw [serials, same]
    exact (List.sublist_append_left _ _).subperm
  resources := by
    intro later member _
    obtain ⟨earlier, start, rfl⟩ := List.mem_map.mp member
    exact ⟨earlier, start, evolves earlier start⟩

/-- One resource that is changed where it stands. -/
theorem evolves_replace {serial : Nat} {front back : List Resource} {resource changed : Resource}
    (evolves : resource.Evolves changed) :
    Evolves ⟨serial, front ++ resource :: back⟩ ⟨serial, front ++ changed :: back⟩ where
  serial := Nat.le_refl _
  serials := by
    have same : (Population.mk serial (front ++ changed :: back)).serials =
        (Population.mk serial (front ++ resource :: back)).serials := by
      simp [serials, evolves.serial]
    rw [same]
    exact (List.sublist_append_left _ _).subperm
  resources := by
    intro later member _
    rcases List.mem_append.mp member with ahead | member
    · exact ⟨later, List.mem_append_left _ ahead, .refl later⟩
    · rcases List.mem_cons.mp member with rfl | behind
      · exact ⟨resource, by simp, evolves⟩
      · exact ⟨later, by simp [behind], .refl later⟩

/-- A resource that is made takes the next serial number. -/
theorem evolves_make {serial : Nat} (resources : List Resource) {resource : Resource}
    (fresh : resource.stamp.serial = serial) :
    Evolves ⟨serial, resources⟩ ⟨serial + 1, resources ++ [resource]⟩ where
  serial := Nat.le_succ _
  serials := by simp [serials, issued, fresh, List.Subperm.refl]
  resources := by
    intro later member old
    rcases List.mem_append.mp member with start | last
    · exact ⟨later, start, .refl later⟩
    · rw [List.mem_singleton.mp last] at old
      exact absurd old (fresh ▸ Nat.lt_irrefl _)

/-- Resources that stand apart stay as they are. -/
theorem Evolves.append (evolves : before.Evolves after) (apart : List Resource) :
    Evolves ⟨before.serial, before.resources ++ apart⟩
      ⟨after.serial, after.resources ++ apart⟩ where
  serial := evolves.serial
  serials := by
    have joined := (List.subperm_append_right (apart.map (·.stamp.serial))).mpr evolves.serials
    have moved : (before.issued after ++ apart.map (·.stamp.serial)).Perm
        (apart.map (·.stamp.serial) ++ before.issued after) := List.perm_append_comm
    rw [List.append_assoc] at joined
    simpa [Population.serials, issued] using joined.trans (moved.append_left _).subperm
  resources := by
    intro later member old
    rcases List.mem_append.mp member with present | left
    · obtain ⟨earlier, start, evolved⟩ := evolves.resources later present old
      exact ⟨earlier, List.mem_append_left _ start, evolved⟩
    · exact ⟨later, List.mem_append_right _ left, .refl later⟩

theorem Evolves.numbered (evolves : before.Evolves after) (numbered : before.Numbered) :
    after.Numbered := by
  constructor
  case distinct =>
    obtain ⟨chosen, same, part⟩ := evolves.serials
    have apart : ∀ serial ∈ before.serials, ∀ other ∈ before.issued after, serial ≠ other := by
      rintro serial old _ new rfl
      obtain ⟨earlier, start, rfl⟩ := List.mem_map.mp old
      exact absurd (numbered.below earlier start) (Nat.not_lt.mpr (mem_issued new).1)
    have all := List.nodup_append.mpr ⟨numbered.distinct, List.nodup_range', apart⟩
    exact same.nodup (part.nodup all)
  case below =>
    intro resource member
    have present : resource.stamp.serial ∈ after.serials := List.mem_map_of_mem member
    rcases List.mem_append.mp (evolves.serials.subset present) with old | new
    · obtain ⟨earlier, start, same⟩ := List.mem_map.mp old
      exact same ▸ Nat.lt_of_lt_of_le (numbered.below earlier start) evolves.serial
    · exact (mem_issued new).2

end Population

end Crosslink
