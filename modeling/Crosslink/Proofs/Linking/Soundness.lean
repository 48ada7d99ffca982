import Crosslink.Proofs.Linking.Visits
import Crosslink.Proofs.ResourceSet.Soundness

/-! Linking by names.

A name that is written in a text is looked up among the nodes of all resources.
What a visit binds leads to a node of that name, and it is the node that was
found: its address cannot lead to another.
-/

set_option autoImplicit false

namespace Crosslink

namespace Linking

variable {naming : Naming} {set next : ResourceSet} {home : ResourceUri} {pending : Pending}
  {content : Content} {source : Site} {feature : Feature} {name : QualifiedName} {target : Uri}

theorem mem_globalScope (member : target ∈ globalScope naming set source feature name) :
    ∃ resource ∈ set.resources, ∃ tree id path, resource.tree? = some tree ∧
      tree.fragment? id = some path ∧ target = ⟨resource.uri, path⟩ ∧
      naming ⟨resource.uri, tree, id⟩ = some name ∧
      (⟨resource.uri, tree, id⟩ : Site).fits feature = true := by
  unfold globalScope candidatesIn at member
  obtain ⟨resource, listed, found⟩ := List.mem_flatMap.mp member
  obtain ⟨site, held, address⟩ := List.mem_filterMap.mp found
  obtain ⟨held, named⟩ := List.mem_filter.mp held
  have present : resource ∈ set.resources := by
    rcases List.mem_append.mp listed with own | other
    · exact ResourceSet.mem_of_get? (Option.mem_toList.mp own)
    · exact (List.mem_filter.mp other).1
  unfold Resource.contents at held
  cases grown : resource.tree? with
  | none =>
    rw [grown] at held
    cases held
  | some tree =>
    rw [grown] at held
    obtain ⟨id, _, there⟩ := List.mem_filterMap.mp held
    unfold Site.at? at there
    split at there
    · cases there
      obtain ⟨path, leads, rfl⟩ := Option.map_eq_some_iff.mp address
      simp only [Bool.and_eq_true, decide_eq_true_eq] at named
      exact ⟨resource, present, tree, id, path, grown, leads, rfl, named.2, named.1⟩
    · cases there

-- A candidate is an address that was written for a node. What is bound is the node that the address
-- leads to, and it is the same one because no two nodes are written alike.
theorem leads_of_globalScope (inStep : set.InStep naming)
    (member : target ∈ globalScope naming set source feature name)
    (fits : conforms set feature target = true) : set.Leads naming target feature name := by
  obtain ⟨resource, present, tree, id, path, grown, found, rfl, named, _⟩ := mem_globalScope member
  obtain ⟨⟨place, tree', id'⟩, leads, admitted⟩ := conforms_iff.mp fits
  obtain ⟨content, held, rfl, rfl, resolved, _⟩ := ResourceSet.node?_eq_some_iff.mp leads
  obtain ⟨filled, here, rfl⟩ := Option.map_eq_some_iff.mp grown
  have same : set.content? resource.uri = some filled := by
    rw [ResourceSet.content?, ResourceSet.get?_of_mem inStep.speaks.once present, Option.bind_some,
      here]
  cases held.symm.trans same
  have sound := inStep.sound same
  obtain rfl : id' = id := sound.consistent.eq_of_resolve? sound.named found resolved
  exact ⟨_, leads, admitted, _, rfl, named⟩

-- One resource takes other content of the same shape.
theorem inStep_of_content (inStep : set.InStep naming) (speaks : Types.Speaks next)
    (held : set.content? home = some content) (after : Content)
    (contents : ∀ other, next.content? other =
      if other = home then some after else set.content? other)
    (shape : after.tree.shape = content.tree.shape) (sound : after.Sound)
    (binds : ∀ slot target, (slot, .bound target) ∈ after.tree.referenceValues →
      set.Binds naming after slot target) : next.InStep naming where
  speaks := speaks
  sound {other content} found := by
    rw [contents] at found
    split at found
    · cases found
      exact sound
    · exact inStep.sound found
  binds {other content' slot target} found member := by
    have same : ∀ other, (next.content? other).map (·.tree.shape) =
        (set.content? other).map (·.tree.shape) := by
      intro other
      rw [contents]
      split
      · next here => rw [here, held, Option.map_some, Option.map_some, shape]
      · rfl
    have bound : set.Binds naming content' slot target := by
      rw [contents] at found
      split at found
      · cases found
        exact binds slot target member
      · exact inStep.binds found member
    obtain ⟨feature, name, declared, noted, leads⟩ := bound
    exact ⟨feature, name, declared, noted, leads.of_shape (same _)⟩

/-! ### One visit -/

theorem speaks_noted (speaks : Types.Speaks set) : Types.Speaks (noted set home name) :=
  speaks.modify fun resource named own =>
    ⟨(resource.uri_update _).trans named, (resource.language_update _).trans own⟩

theorem inStep_noted (inStep : set.InStep naming) (held : set.content? home = some content)
    (name : QualifiedName) : (noted set home name).InStep naming ∧
      ∃ names, (noted set home name).content? home = some { content with importedNames := names } := by
  obtain ⟨names, kept⟩ := @content?_noted set home home content name held
  have binds : ∀ slot target, (slot, .bound target) ∈ content.tree.referenceValues →
      set.Binds naming content slot target := fun slot target member => inStep.binds held member
  refine ⟨?_, names, kept⟩
  refine inStep_of_content inStep (speaks_noted inStep.speaks) held
    { content with importedNames := names } (fun other => ?_) rfl
    ((inStep.sound held).imported names) binds
  split
  · next here => rw [here, kept]
  · next apart =>
    unfold noted
    rw [ResourceSet.content?_modify_update, if_neg apart]

theorem inStep_reportAt (inStep : set.InStep naming) (held : set.content? home = some content)
    (waits : pending ∈ content.pending) {diagnostic : Diagnostic}
    (code : diagnostic.code = some Diagnostic.unresolvedCode) :
    (reportAt set home pending.slot diagnostic).InStep naming := by
  have sound := inStep.sound held
  have binds : ∀ slot target, (slot, .bound target) ∈ content.tree.referenceValues →
      set.Binds naming content slot target := fun slot target member => inStep.binds held member
  refine inStep_of_content inStep ?_ held (content.report pending.slot diagnostic) (fun other => ?_)
    rfl (sound.reported (sound.waits_iff.mp waits) code) binds
  · exact inStep.speaks.modify fun resource named own => ⟨named, own⟩
  · rw [content?_reportAt]
    split
    · next here => rw [here, held, Option.map_some]
    · rfl

theorem inStep_bindAt (inStep : set.InStep naming) (held : set.content? home = some content)
    (waits : pending ∈ content.pending) (asked : pending.proxy = .name name)
    (declared : content.tree.feature? pending.source pending.feature = some feature)
    (leads : set.Leads naming target feature name) {warning : Option Diagnostic}
    (warns : ∀ diagnostic ∈ warning, diagnostic.code = some Diagnostic.ambiguousCode) :
    (bindAt set home pending target warning).InStep naming := by
  have sound := inStep.sound held
  have member := sound.waits_iff.mp waits
  have present : (content.tree.referenceAt? pending.slot).isSome = true := by
    rw [(sound.consistent.mem_referenceValues.mp member).2.2]
    rfl
  obtain ⟨after, done⟩ := Option.isSome_iff_exists.mp
    (@Content.isSome_bind? content pending target warning present)
  obtain ⟨_, tree, _, _⟩ := Content.bind?_eq_some done
  have shape : after.tree.shape = content.tree.shape := by
    rw [tree]
    exact Tree.shape_replaceReference
  refine inStep_of_content inStep ?_ held _ (fun other => ?_) shape
    (sound.bound ⟨_, member⟩ done asked warns) fun slot led listed => ?_
  · exact inStep.speaks.modify fun resource named own =>
      ⟨(resource.uri_update _).trans named, (resource.language_update _).trans own⟩
  · rw [content?_bindAt]
    split
    · next here => rw [here, held, Option.map_some, done, Option.getD_some]
    · rfl
  · rcases sound.mem_of_bind? ⟨_, member⟩ done listed with ⟨rfl, rfl⟩ | ⟨apart, earlier⟩
    · refine ⟨feature, name, ?_, ?_, leads⟩
      · rw [Tree.feature?_of_shape shape, declared]
      · rw [Content.get?_written_bind? asked done, if_pos rfl]
    · obtain ⟨feature, name, declared, noted, leads⟩ := inStep.binds held earlier
      refine ⟨feature, name, ?_, ?_, leads⟩
      · rw [Tree.feature?_of_shape shape, declared]
      · rw [Content.get?_written_bind? asked done, if_neg apart, noted]

/-- A visit keeps the set in step, and what waits in other slots waits on. -/
theorem inStep_resolve (inStep : set.InStep naming) (waits : pending ∈ waiting set home) :
    (resolve (globalScope naming) set home pending).set.InStep naming ∧
      ∀ other ∈ waiting set home, other.slot ≠ pending.slot →
        other ∈ waiting (resolve (globalScope naming) set home pending).set home := by
  have outcome := resolves (globalScope naming) set home pending
  generalize (resolve (globalScope naming) set home pending).set = after at outcome ⊢
  -- only names wait, so that the candidates are looked up and nothing is loaded
  have looked : ∀ {site feature found uris}, context? set home pending = some (site, feature) →
      candidates (globalScope naming) set home site feature pending.proxy = (found, uris) →
      ∃ content name, found.set.content? home = some content ∧ found.set.InStep naming ∧
        waiting set home = content.pending ∧ pending.proxy = .name name ∧
        content.tree.feature? pending.source pending.feature = some feature ∧
        uris = globalScope naming found.set site feature name := by
    intro site feature found uris here asked
    obtain ⟨content, held, _, declared⟩ := context?_eq_some_iff.mp here
    have listed := waiting_eq held
    obtain ⟨name, named⟩ := (inStep.sound held).name_of_waits (listed ▸ waits)
    rw [named] at asked
    cases asked
    obtain ⟨kept, names, held'⟩ := inStep_noted inStep held name
    exact ⟨_, name, held', kept, listed, named, declared, rfl⟩
  cases outcome with
  | passed lost => exact ⟨inStep, fun _ member _ => member⟩
  | @reported site feature found uris here asked fruitless =>
    obtain ⟨content, name, held, kept, listed, _, _, _⟩ := looked here asked
    rw [listed] at waits ⊢
    refine ⟨inStep_reportAt kept held waits rfl, fun other member _ => ?_⟩
    have after := @content?_reportAt found.set home pending.slot
      (unresolvedError site feature pending.proxy) home
    rw [if_pos rfl, held] at after
    rwa [waiting_eq after]
  | @bound site feature found uris target warning here asked member fits warns =>
    obtain ⟨content, name, held, kept, listed, named, declared, rfl⟩ := looked here asked
    rw [listed] at waits ⊢
    refine ⟨inStep_bindAt kept held waits named declared (leads_of_globalScope kept member fits) ?_,
      fun other member apart => ?_⟩
    · intro diagnostic warned
      obtain ⟨count, rfl⟩ := warns diagnostic warned
      rfl
    · have after := @content?_bindAt found.set home pending target warning home
      rw [if_pos rfl, held, Option.map_some] at after
      rw [waiting_eq after]
      cases done : content.bind? pending target warning with
      | none => exact member
      | some after =>
        obtain ⟨_, _, left, _⟩ := Content.bind?_eq_some done
        rw [Option.getD_some, left]
        exact List.mem_filter.mpr ⟨member, decide_eq_true apart⟩

/-- Linking by names keeps the set in step, wherever it is stopped. -/
theorem inStep_link (inStep : set.InStep naming) (stop : Progress → Bool) :
    (link (globalScope naming) stop set).1.InStep naming := by
  -- no two of the references that are left share a slot, so that a visit leaves the others waiting
  refine @linkWithin_induction (globalScope naming) set (·.InStep naming)
    (fun home after entries => (∀ pending ∈ entries, pending ∈ waiting after home) ∧
      (entries.map (·.slot)).Nodup) stop ?_ ?_ (visitBound set) inStep
  · intro set home inStep
    refine ⟨fun _ member => member, ?_⟩
    cases held : set.content? home with
    | none =>
      rw [waiting_of_closed held]
      exact List.nodup_nil
    | some content =>
      rw [waiting_eq held]
      exact (inStep.sound held).once
  · rintro after home pending rest inStep ⟨listed, distinct⟩
    obtain ⟨kept, others⟩ := inStep_resolve inStep (listed pending List.mem_cons_self)
    obtain ⟨fresh, distinct⟩ := List.nodup_cons.mp distinct
    refine ⟨kept, fun other member => ?_, distinct⟩
    apply others other (listed other (List.mem_cons_of_mem _ member))
    intro same
    exact fresh (List.mem_map.mpr ⟨other, member, same⟩)

end Linking

end Crosslink
