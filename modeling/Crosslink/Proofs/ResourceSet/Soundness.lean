import Crosslink.Proofs.Naming
import Crosslink.Proofs.Resource.Soundness
import Crosslink.Proofs.ResourceSet.Loading
import Crosslink.Proofs.Types.Members

/-! Sets in which every bound reference leads to a node.

When a resource is read anew, unloaded or removed, what is bound to its nodes is
opened in all others. Nothing else can take a node away, so that every reference
that is still bound leads to the node that it was bound to.
-/

set_option autoImplicit false

namespace Crosslink.ResourceSet

variable {naming : Naming} {set next : ResourceSet} {uri home : ResourceUri} {content : Content}
  {slot : SlotKey} {target : Uri} {feature : Feature} {name : QualifiedName}

def Leads (naming : Naming) (set : ResourceSet) (target : Uri) (feature : Feature)
    (name : QualifiedName) : Prop :=
  ∃ site, set.node? target = some site ∧ site.fits feature = true ∧ naming.Reads site name

theorem Leads.of_shape (leads : set.Leads naming target feature name)
    (same : (next.content? target.resource).map (·.tree.shape) =
      (set.content? target.resource).map (·.tree.shape)) : next.Leads naming target feature name := by
  obtain ⟨site, found, fits, reads⟩ := leads
  obtain ⟨after, found', home, node, shape⟩ := node?_of_shape same found
  refine ⟨after, found', (Site.fits_of_shape shape node).trans fits, ?_⟩
  obtain ⟨resource, tree, id⟩ := after
  obtain rfl : resource = site.resource := home
  obtain rfl : id = site.id := node
  exact reads.of_shape shape

theorem Leads.content? (leads : set.Leads naming target feature name) :
    ∃ content, set.content? target.resource = some content := by
  obtain ⟨site, found, _⟩ := leads
  obtain ⟨content, held, _⟩ := node?_eq_some_iff.mp found
  exact ⟨content, held⟩

/-- A slot is bound to a node that has the written name of the slot. -/
def Binds (naming : Naming) (set : ResourceSet) (content : Content) (slot : SlotKey) (target : Uri) :
    Prop :=
  ∃ feature name, content.tree.feature? slot.source slot.feature = some feature ∧
    content.writtenNames.get? slot = some (name, target) ∧ set.Leads naming target feature name

structure InStep (naming : Naming) (set : ResourceSet) : Prop where
  speaks : Types.Speaks set
  sound : ∀ {uri content}, set.content? uri = some content → content.Sound
  binds : ∀ {uri content slot target}, set.content? uri = some content →
    (slot, .bound target) ∈ content.tree.referenceValues → set.Binds naming content slot target

/-- There is one language that texts can be read in. -/
theorem language_of_speaks {own : Language} (speaks : Types.Speaks set)
    (spoken : set.language? uri = some own) : own = Types.language := by
  unfold language? at spoken
  cases found : set.get? uri with
  | none =>
    rw [found, Option.map_none, Option.getD_none] at spoken
    exact speaks.known spoken
  | some resource =>
    have said := speaks.spoken resource (mem_of_get? found)
    rw [found, Option.map_some, Option.getD_some, said] at spoken
    exact (Option.some.inj spoken).symm

/-! ### Opening the references into a resource -/

/-- What is still bound after references were opened was bound before, and not to the resource. -/
theorem bound_of_demoted (sound : content.Sound)
    (member : (slot, .bound target) ∈ ((content.demote? uri).getD content).tree.referenceValues) :
    (slot, .bound target) ∈ content.tree.referenceValues ∧ target.resource ≠ uri ∧
      ((content.demote? uri).getD content).writtenNames.get? slot =
        content.writtenNames.get? slot := by
  have shape := @Content.shape_demote content uri
  have after := (sound.demoted uri).consistent.mem_referenceValues.mp member
  obtain ⟨value, listed⟩ := (Tree.lists_of_shape shape sound.consistent).mp ⟨_, member⟩
  have view := Content.view_demote sound.consistent uri listed
  have held : (((content.demote? uri).getD content).view slot).value = some (.bound target) := after.2.2
  cases picks : Content.boundIn? uri value with
  | some led =>
    rw [view, picks] at held
    cases held
  | none =>
    rw [picks] at view
    rw [view] at held
    have before := (sound.consistent.mem_referenceValues.mp listed).2.2
    cases before.symm.trans held
    refine ⟨listed, ?_, congrArg SlotView.written view⟩
    rintro rfl
    simp [Content.boundIn?, Uri.isIn] at picks

theorem demote?_of_free (free : ∀ slot target, (slot, .bound target) ∈ content.tree.referenceValues →
    target.resource ≠ uri) : (content.demote? uri).getD content = content := by
  have empty : Content.picked content.tree (Content.boundIn? uri) = [] := by
    rw [List.eq_nil_iff_forall_not_mem]
    rintro ⟨slot, target⟩ member
    obtain ⟨value, listed, picks⟩ := Content.mem_picked.mp member
    obtain ⟨rfl, here⟩ := Content.boundIn?_eq_some picks
    exact free slot target listed here
  rw [Content.demote?_eq, empty]
  rfl

namespace InStep

variable (inStep : set.InStep naming)
include inStep

/-- A resource takes other content, in which nothing is bound, or none; what was bound to it is
opened in all others. -/
theorem replaced (uri : ResourceUri) (speaks : Types.Speaks next)
    (others : ∀ other ≠ uri, next.content? other =
      (set.content? other).map fun content => (content.demote? uri).getD content)
    (own : ∀ content, next.content? uri = some content → content.Sound ∧
      ∀ slot target, (slot, .bound target) ∉ content.tree.referenceValues) : next.InStep naming where
  speaks := speaks
  sound {home content} held := by
    by_cases here : home = uri
    · exact (own content (here ▸ held)).1
    · rw [others home here] at held
      obtain ⟨before, held', rfl⟩ := Option.map_eq_some_iff.mp held
      exact (inStep.sound held').demoted uri
  binds {home content slot target} held member := by
    by_cases here : home = uri
    · exact absurd member ((own content (here ▸ held)).2 slot target)
    · rw [others home here] at held
      obtain ⟨before, held', rfl⟩ := Option.map_eq_some_iff.mp held
      obtain ⟨listed, elsewhere, written⟩ := bound_of_demoted (inStep.sound held') member
      obtain ⟨feature, name, declared, noted, leads⟩ := inStep.binds held' listed
      refine ⟨feature, name, ?_, written.trans noted, leads.of_shape ?_⟩
      · rw [Tree.feature?_of_shape (Content.shape_demote uri), declared]
      · rw [others _ elsewhere, Option.map_map]
        congr 1
        funext content
        exact Content.shape_demote uri

theorem of_same (speaks : Types.Speaks next) (same : ∀ uri, next.content? uri = set.content? uri) :
    next.InStep naming where
  speaks := speaks
  sound {home content} held := inStep.sound (same home ▸ held)
  binds {home content slot target} held member := by
    obtain ⟨feature, name, declared, noted, leads⟩ := inStep.binds (same home ▸ held) member
    exact ⟨feature, name, declared, noted, leads.of_shape (by rw [same])⟩

/-! ### Members come and go -/

theorem create (done : set.create uri = .ok next) : next.InStep naming :=
  inStep.of_same (inStep.speaks.create done) fun _ => content?_create done

-- What is bound leads to a node, and a resource that is not loaded has none. This is why loading it
-- need not open anything.
theorem free_of_closed (closed : set.isLoaded uri = false) {other : ResourceUri}
    (held : set.content? other = some content) : (content.demote? uri).getD content = content := by
  apply demote?_of_free
  rintro slot target member rfl
  obtain ⟨_, _, _, _, leads⟩ := inStep.binds held member
  rw [isLoaded_iff.mpr leads.content?] at closed
  cases closed

/-- Whatever is read into a resource, what is bound to it is opened in all others. -/
theorem others_load (text : String) {other : ResourceUri} (apart : other ≠ uri) :
    (set.load uri text).1.content? other =
      (set.content? other).map fun content => (content.demote? uri).getD content := by
  cases loaded : set.isLoaded uri with
  | true => exact content?_load_of_loaded loaded apart
  | false =>
    rw [(fills_load loaded text).others other apart]
    cases held : set.content? other with
    | none => rfl
    | some content => rw [Option.map_some, inStep.free_of_closed loaded held]

theorem load (uri : ResourceUri) (text : String) : (set.load uri text).1.InStep naming := by
  rcases inStep.speaks.load uri text with same | ⟨speaks, own⟩
  · rw [same]
    exact inStep
  · refine inStep.replaced uri speaks (fun other apart => inStep.others_load text apart)
      fun content held => ?_
    rw [own] at held
    cases held
    exact Content.sound_of_parse text _

theorem withdrawn (speaks : Types.Speaks next)
    (gone : ∀ other, next.content? other = if other = uri then none
      else (set.content? other).map fun content => (content.demote? uri).getD content) :
    next.InStep naming := by
  refine inStep.replaced uri speaks (fun other apart => (gone other).trans (if_neg apart)) ?_
  intro content held
  rw [gone uri, if_pos rfl] at held
  cases held

theorem unload (uri : ResourceUri) : (set.unload uri).1.InStep naming := by
  cases present : set.contains uri with
  | true => exact inStep.withdrawn (inStep.speaks.unload uri) (content?_unload present)
  | false => rwa [unload_of_absent present]

theorem remove (uri : ResourceUri) : (set.remove uri).1.InStep naming := by
  cases present : set.contains uri with
  | true => exact inStep.withdrawn (inStep.speaks.remove uri) (content?_remove present)
  | false => rwa [remove_of_absent present]

/-! ### Loading on demand -/

theorem furnish {registry : Registry} {loader : Option Loader} {requests : List ResourceUri} :
    ({ set with registry, loader, requests } : ResourceSet).InStep naming :=
  inStep.of_same (inStep.speaks.changed rfl inStep.speaks.spoken rfl) fun _ => rfl

theorem provide (loader : Option Loader) : ({ set with loader } : ResourceSet).InStep naming :=
  inStep.furnish

theorem ensureLoaded (uri : ResourceUri) : (set.ensureLoaded uri).1.InStep naming :=
  ensureLoaded_induction (motive := InStep naming) (fun _ kept => kept.furnish)
    (fun uri text kept => kept.load uri text) inStep uri

theorem fetch (target : Uri) : (set.fetch target).1.InStep naming := by
  rw [fst_fetch]
  exact inStep.ensureLoaded target.resource

end InStep

end Crosslink.ResourceSet
