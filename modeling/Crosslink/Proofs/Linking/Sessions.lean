import Crosslink.Proofs.Linking.Soundness
import Mathlib

/-! Sessions with texts that refer to each other.

A session begins with no resources. Texts are read, read anew, unloaded, removed
and loaded on demand, and linked by name as often as one likes. All that the
members hold is in step at every moment of it.
-/

set_option autoImplicit false

namespace Crosslink.Linking

variable {naming : Naming} {set next : ResourceSet} {uri : ResourceUri} {resource : Resource}
  {content : Content}

/-- The sets that a session can reach, with one policy of names for all its links. -/
inductive Reached (naming : Naming) : ResourceSet → Prop where
  | start (registry : Registry) :
      Reached naming { registry, languages := ({} : Languages).register Types.language }
  | create {set next : ResourceSet} {uri : ResourceUri} (before : Reached naming set)
      (done : set.create uri = .ok next) : Reached naming next
  | load {set : ResourceSet} (before : Reached naming set) (uri : ResourceUri) (text : String) :
      Reached naming (set.load uri text).1
  | unload {set : ResourceSet} (before : Reached naming set) (uri : ResourceUri) :
      Reached naming (set.unload uri).1
  | remove {set : ResourceSet} (before : Reached naming set) (uri : ResourceUri) :
      Reached naming (set.remove uri).1
  | provide {set : ResourceSet} (before : Reached naming set) (loader : Option Loader) :
      Reached naming { set with loader }
  | ensureLoaded {set : ResourceSet} (before : Reached naming set) (uri : ResourceUri) :
      Reached naming (set.ensureLoaded uri).1
  | fetch {set : ResourceSet} (before : Reached naming set) (target : Uri) :
      Reached naming (set.fetch target).1
  /-- A run may be stopped anywhere. -/
  | link {set : ResourceSet} (before : Reached naming set) (stop : Progress → Bool) :
      Reached naming (link (globalScope naming) stop set).1

theorem inStep_of_reached (reached : Reached naming set) : set.InStep naming := by
  induction reached with
  | start registry => exact ⟨Types.speaks_empty registry, nofun, nofun⟩
  | create _ done before => exact before.create done
  | load _ uri text before => exact before.load uri text
  | unload _ uri before => exact before.unload uri
  | remove _ uri before => exact before.remove uri
  | provide _ loader before => exact before.provide loader
  | ensureLoaded _ uri before => exact before.ensureLoaded uri
  | fetch _ target before => exact before.fetch target
  | link _ stop before => exact inStep_link before stop

/-- What a loaded member of a set holds is in step with its tree and with the set. -/
structure Coherent (naming : Naming) (set : ResourceSet) (content : Content) : Prop where
  /-- What waits are the open references of the nodes that can be reached, with their proxies. -/
  waits : ∀ pending, pending ∈ content.pending ↔
    pending.source ∈ content.tree.allNodes ∧ content.tree.Spells pending.slot ∧
      content.tree.referenceAt? pending.slot = some (.unresolved pending.proxy)
  /-- Each waits once, in the order of nodes, features and positions. -/
  ordered : content.pending.Pairwise fun first second =>
    Precedes (first.slot.rank content.tree.allNodes) (second.slot.rank content.tree.allNodes)
  /-- What is bound leads to a node that the feature admits, and that has the written name. -/
  bound : ∀ slot target, slot.source ∈ content.tree.allNodes → content.tree.Spells slot →
    content.tree.referenceAt? slot = some (.bound target) →
      ∃ feature site name, content.tree.feature? slot.source slot.feature = some feature ∧
        set.node? target = some site ∧ site.fits feature = true ∧
        content.writtenNames.get? slot = some (name, target) ∧ naming.Reads site name ∧
        (naming.IgnoresReferences → naming site = some name)
  /-- An error is at a slot that is open, and a warning at one that is bound. -/
  noted : ∀ slot diagnostic, (slot, diagnostic) ∈ content.linkDiagnostics.entries →
    slot.source ∈ content.tree.allNodes ∧ content.tree.Spells slot ∧
    ((diagnostic.code = some Diagnostic.unresolvedCode ∧
      ∃ proxy, content.tree.referenceAt? slot = some (.unresolved proxy)) ∨
    (diagnostic.code = some Diagnostic.ambiguousCode ∧
      ∃ target, content.tree.referenceAt? slot = some (.bound target)))
  /-- All other diagnostics are about the text. -/
  texts : ∀ diagnostic ∈ content.textDiagnostics, diagnostic.code = some Diagnostic.syntaxCode

theorem coherent_of_inStep (inStep : set.InStep naming) (held : set.content? uri = some content) :
    Coherent naming set content := by
  have sound := inStep.sound held
  refine ⟨fun pending => ?_, ?_, fun slot target reached spells value => ?_, ?_, sound.texts⟩
  · rw [sound.waits_iff, sound.consistent.mem_referenceValues]
  · rw [sound.pending_eq]
    exact sound.consistent.pairwise_openReferences
  · have member := sound.consistent.mem_referenceValues.mpr ⟨reached, spells, value⟩
    obtain ⟨feature, name, declared, noted, site, found, fits, reads⟩ := inStep.binds held member
    exact ⟨feature, site, name, declared, found, fits, noted, reads, reads.name_eq⟩
  · intro slot diagnostic noted
    obtain ⟨value, member⟩ := sound.notes noted
    obtain ⟨reached, spells, _⟩ := sound.consistent.mem_referenceValues.mp member
    obtain ⟨read, view⟩ := sound.view_of_mem member
    refine ⟨reached, spells, ?_⟩
    cases value with
    | unresolved proxy =>
      exact .inl ⟨((SlotView.sound_of_unresolved read).mp view).2.2 diagnostic noted, proxy, read⟩
    | bound target =>
      exact .inr ⟨((SlotView.sound_of_bound read).mp view).2.2 diagnostic noted, target, read⟩

/-- Whatever happens in a session, a member that is not loaded holds nothing, and all that a
loaded member holds is in step. -/
theorem coherent_of_reached (reached : Reached naming set) (member : resource ∈ set.resources) :
    (resource.isLoaded = false →
      resource.tree? = none ∧ resource.pending = [] ∧ resource.diagnostics = []) ∧
    ∀ content, resource.content = some content → Coherent naming set content := by
  have inStep := inStep_of_reached reached
  constructor
  · intro closed
    have empty : resource.content = none := by simpa [Resource.isLoaded] using closed
    simp [Resource.tree?, Resource.pending, Resource.diagnostics, empty]
  · intro content filled
    apply coherent_of_inStep inStep
    rw [ResourceSet.content?, ResourceSet.get?_of_mem inStep.speaks.once member, Option.bind_some,
      filled]

/-! ### Two texts -/

def firstUri : ResourceUri := ⟨"first.types"⟩

def secondUri : ResourceUri := ⟨"second.types"⟩

def twoTexts : ResourceSet :=
  let start : ResourceSet := { languages := ({} : Languages).register Types.language }
  let first := (start.load firstUri "type A extends p.B implements C").1
  let second := (first.load secondUri "package p { type B }").1
  (link (globalScope .nested) (fun _ => false) second).1

theorem reached_twoTexts : Reached .nested twoTexts :=
  .link (.load (.load (.start {}) firstUri _) secondUri _) fun _ => false

def nestedType : Uri := ⟨secondUri, .ofSteps [⟨"elements", some 0⟩, ⟨"elements", some 0⟩]⟩

/-- The name of the nested type leads to it, and only the unknown type waits. -/
theorem coherent_twoTexts : ∃ resource ∈ twoTexts.resources, ∃ content,
    resource.content = some content ∧ Coherent .nested twoTexts content ∧
    content.pending = [⟨⟨1, 2, some 0⟩, .name ⟨["C"]⟩⟩] ∧
    content.tree.referenceAt? ⟨1, 1, none⟩ = some (.bound nestedType) ∧
    ∃ site, twoTexts.node? nestedType = some site ∧ Naming.nested site = some ⟨["p", "B"]⟩ := by
  have seen : (twoTexts.content? firstUri).map (fun content => (content.pending,
      content.tree.referenceAt? ⟨1, 1, none⟩, content.writtenNames.get? ⟨1, 1, none⟩,
      content.tree.allNodes, (content.tree.feature? 1 1).map (·.isMany))) =
        some ([⟨⟨1, 2, some 0⟩, .name ⟨["C"]⟩⟩], some (.bound nestedType),
          some (⟨["p", "B"]⟩, nestedType), [0, 1], some false) := by
    cbv
  obtain ⟨content, held, fields⟩ := Option.map_eq_some_iff.mp seen
  simp only [Prod.mk.injEq] at fields
  obtain ⟨pending, value, written, nodes, single⟩ := fields
  obtain ⟨resource, found, filled⟩ := Option.bind_eq_some_iff.mp held
  have member := ResourceSet.mem_of_get? found
  have coherent := (coherent_of_reached reached_twoTexts member).2 content filled
  obtain ⟨feature, declared, one⟩ := Option.map_eq_some_iff.mp single
  obtain ⟨_, site, name, _, leads, _, noted, _, named⟩ := coherent.bound ⟨1, 1, none⟩ nestedType
    (by simp [nodes]) ⟨feature, declared, one.symm⟩ value
  cases written.symm.trans noted
  exact ⟨resource, member, content, filled, coherent, pending, value, site, leads,
    named Naming.nested_ignoresReferences⟩

/-! ### A name that linking takes away -/

def inward : ResourceSet :=
  let start : ResourceSet := { languages := ({} : Languages).register Types.language }
  let loaded := (start.load firstUri "package p { type B } type C extends p.B").1
  (link (globalScope .loosened) (fun _ => false) loaded).1

theorem reached_inward : Reached .loosened inward :=
  .link (.load (.start {}) firstUri _) fun _ => false

def innerType : Uri := ⟨firstUri, .ofSteps [⟨"elements", some 0⟩, ⟨"elements", some 0⟩]⟩

/-- A node that is bound under its nested name has another one as soon as it is bound. -/
theorem renamed_inward : Reached .loosened inward ∧ ∃ content site,
    inward.content? firstUri = some content ∧
    content.tree.referenceAt? ⟨3, 1, none⟩ = some (.bound innerType) ∧
    content.writtenNames.get? ⟨3, 1, none⟩ = some (⟨["p", "B"]⟩, innerType) ∧
    inward.node? innerType = some site ∧ Naming.loosened site = some ⟨["B"]⟩ := by
  have seen : ((inward.content? firstUri).map (fun content =>
      (content.tree.referenceAt? ⟨3, 1, none⟩, content.writtenNames.get? ⟨3, 1, none⟩)),
      (inward.node? innerType).map Naming.loosened) =
    (some (some (.bound innerType), some (⟨["p", "B"]⟩, innerType)), some (some ⟨["B"]⟩)) := by
    cbv
  obtain ⟨kept, named⟩ := Prod.mk.inj seen
  obtain ⟨content, held, fields⟩ := Option.map_eq_some_iff.mp kept
  obtain ⟨value, written⟩ := Prod.mk.inj fields
  obtain ⟨site, found, name⟩ := Option.map_eq_some_iff.mp named
  exact ⟨reached_inward, content, site, held, value, written, found, name⟩

end Crosslink.Linking
