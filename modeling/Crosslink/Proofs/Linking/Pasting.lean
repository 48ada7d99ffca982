import Crosslink.Proofs.Linking.Reachable
import Crosslink.Proofs.Linking.Supplying
import Crosslink.Proofs.Resource.Beside
import Crosslink.Proofs.Tree.Reattaching

/-! Nodes that are cut out of a loaded resource and pasted where they were.

In between, other resources change in any way, and the set is linked. What was
open in the nodes is not noted again when they come back, and what was bound to
another resource may have lost its target without being opened.
-/

set_option autoImplicit false

namespace Crosslink.Linking

open ResourceSet

variable {scope : Scope} {set next later : ResourceSet} {home uri : ResourceUri}
  {content : Content} {tree : Tree}

theorem edit_of_closed {α : Type} (closed : set.content? uri = none) (change : Tree → Tree × α) :
    (set.edit uri change).1 = set := by
  unfold ResourceSet.edit
  cases found : set.get? uri with
  | none => rfl
  | some resource =>
    have empty : resource.content = none := by simpa [content?, found] using closed
    simp only [Resource.edit, empty]

/-! ### Between cutting and pasting -/

/-- One operation on other resources, or on the set as a whole. -/
inductive Elsewhere (home : ResourceUri) (set : ResourceSet) : ResourceSet → Prop where
  | provide (registry : Registry) (languages : Languages) (loader : Option Loader) :
      Elsewhere home set { set with registry, languages, loader }
  | add {next : ResourceSet} {resource : Resource} (done : set.add resource = .ok next) :
      Elsewhere home set next
  | create {next : ResourceSet} {uri : ResourceUri} (done : set.create uri = .ok next) :
      Elsewhere home set next
  | load {uri : ResourceUri} (apart : uri ≠ home) (text : String) :
      Elsewhere home set (set.load uri text).1
  | unload {uri : ResourceUri} (apart : uri ≠ home) : Elsewhere home set (set.unload uri).1
  | remove {uri : ResourceUri} (apart : uri ≠ home) : Elsewhere home set (set.remove uri).1
  | edit {uri : ResourceUri} (apart : uri ≠ home) (edits : List Edit) :
      Elsewhere home set (set.edit uri fun tree => (tree.run edits, ())).1
  | fetch (target : Uri) : Elsewhere home set (set.fetch target).1
  | link (scope : Scope) (stop : Progress → Bool) (turns : Nat) :
      Elsewhere home set (linkWithin scope stop turns set)

def Spared (home : ResourceUri) (tree : Tree) (set : ResourceSet) : Prop :=
  ∃ content, set.content? home = some content ∧ content.Spares tree

namespace Spared

theorem of_same (spared : Spared home tree set) (same : next.content? home = set.content? home) :
    Spared home tree next := by
  obtain ⟨content, held, spares⟩ := spared
  exact ⟨content, same.trans held, spares⟩

theorem fetch (spared : Spared home tree set) (target : Uri) :
    Spared home tree (set.fetch target).1 := by
  obtain ⟨content, held, spares⟩ := spared
  rw [fst_fetch]
  exact ⟨content, content?_ensureLoaded held, spares⟩

theorem add (spared : Spared home tree set) {resource : Resource}
    (done : set.add resource = .ok next) : Spared home tree next := by
  apply spared.of_same
  obtain ⟨content, held, _⟩ := spared
  obtain ⟨member, found, filled⟩ := Option.bind_eq_some_iff.mp held
  have listed : set.resources.find? (·.uri = home) = some member := found
  unfold ResourceSet.add at done
  split at done
  · cases done
  · cases done
    simp [content?, ResourceSet.get?, List.find?_append, listed]

-- Only what waits is linked, and nothing waits for the nodes that stand beside the tree.
theorem resolve (spared : Spared home tree set) {pending : Pending}
    (reached : uri = home → pending.source ∈ tree.allNodes) :
    Spared home tree (resolve scope set uri pending).set := by
  obtain ⟨content, held, spares⟩ := spared
  by_cases here : home = uri
  · subst here
    have outcome := resolves scope set home pending
    generalize (Linking.resolve scope set home pending).set = after at outcome ⊢
    cases outcome with
    | passed lost => exact ⟨content, held, spares⟩
    | reported here asked fruitless =>
      obtain ⟨names, kept⟩ := content?_candidates asked held
      refine ⟨_, by rw [content?_reportAt, if_pos rfl, kept]; rfl, ?_⟩
      exact ⟨spares.shape, spares.beside, spares.waits⟩
    | @bound site feature found uris candidate warning here asked member fits warns =>
      obtain ⟨names, kept⟩ := content?_candidates asked held
      have noted : Content.Spares tree { content with importedNames := names } :=
        ⟨spares.shape, spares.beside, spares.waits⟩
      exact ⟨_, by rw [content?_bindAt, if_pos rfl, kept]; rfl,
        noted.bound (reached rfl) candidate warning⟩
  · refine ⟨content, ?_, spares⟩
    rw [content?_resolve_of_ne here]
    exact content?_supplied held

theorem link (spared : Spared home tree set) (scope : Scope) (stop : Progress → Bool)
    (turns : Nat) : Spared home tree (linkWithin scope stop turns set) := by
  refine @linkWithin_induction scope set (Spared home tree)
    (fun uri _ entries => ∀ pending ∈ entries, uri = home → pending.source ∈ tree.allNodes)
    stop ?_ ?_ turns spared
  · rintro set uri ⟨content, held, spares⟩ pending member rfl
    exact spares.waits pending (waiting_eq held ▸ member)
  · intro set uri pending rest spared reached
    exact ⟨resolve spared (reached pending List.mem_cons_self),
      fun later member => reached later (List.mem_cons_of_mem _ member)⟩

variable (consistent : tree.Consistent) (spared : Spared home tree set)
include consistent spared

-- A member that goes away takes the references into it along, as far as they can be reached.
theorem of_demoted {uri : ResourceUri}
    (changed : next.content? home =
      (set.content? home).map fun content => (content.demote? uri).getD content) :
    Spared home tree next := by
  obtain ⟨content, held, spares⟩ := spared
  exact ⟨_, by rw [changed, held]; rfl, spares.demoted consistent uri⟩

theorem load (apart : uri ≠ home) (text : String) : Spared home tree (set.load uri text).1 := by
  cases loaded : set.isLoaded uri with
  | false => exact spared.of_same ((fills_load loaded text).others home apart.symm)
  | true => exact of_demoted consistent spared (content?_load_of_loaded loaded apart.symm)

theorem unload (apart : uri ≠ home) : Spared home tree (set.unload uri).1 := by
  cases present : set.contains uri with
  | true =>
    exact spared.of_demoted consistent ((content?_unload present home).trans (if_neg apart.symm))
  | false => rwa [unload_of_absent present]

theorem remove (apart : uri ≠ home) : Spared home tree (set.remove uri).1 := by
  cases present : set.contains uri with
  | true =>
    exact spared.of_demoted consistent ((content?_remove present home).trans (if_neg apart.symm))
  | false => rwa [remove_of_absent present]

theorem edit (apart : uri ≠ home) (edits : List Edit) :
    Spared home tree (set.edit uri fun tree => (tree.run edits, ())).1 := by
  cases held : set.content? uri with
  | none => rwa [edit_of_closed held]
  | some edited =>
    obtain ⟨content, filled, spares⟩ := spared
    have after := content?_edit held edits () home
    rw [if_neg apart.symm, filled] at after
    exact ⟨_, after, spares.relocated consistent _⟩

/-- One operation on other resources spares what stands beside the tree. -/
theorem elsewhere (step : Elsewhere home set next) : Spared home tree next := by
  cases step with
  | provide registry languages loader => exact spared.of_same rfl
  | add done => exact spared.add done
  | create done => exact spared.of_same (content?_create done)
  | load apart text => exact spared.load consistent apart text
  | unload apart => exact spared.unload consistent apart
  | remove apart => exact spared.remove consistent apart
  | edit apart edits => exact spared.edit consistent apart edits
  | fetch target => exact spared.fetch target
  | link scope stop turns => exact spared.link scope stop turns

/-- And so does any sequence of them. -/
theorem history (steps : Relation.ReflTransGen (Elsewhere home) set next) :
    Spared home tree next := by
  induction steps with
  | refl => exact spared
  | tail _ step ih => exact ih.elsewhere consistent step

end Spared

/-! ### Cutting and pasting -/

def cut (set : ResourceSet) (home : ResourceUri) (id : NodeId) : ResourceSet :=
  (set.edit home fun tree => (tree.run [.detach id], ())).1

def paste (set : ResourceSet) (home : ResourceUri) (container : NodeId) (feature : String)
    (index : Nat) (id : NodeId) : ResourceSet :=
  (set.edit home fun tree => (tree.run [.attach container feature (some index) id], ())).1

/-- A reference is bound to a node that is there, or it is open and noted once. -/
def IsKept (set : ResourceSet) (home : ResourceUri) (slot : SlotKey) : Prop :=
  ∃ content, set.content? home = some content ∧
    ((∃ target, content.tree.referenceAt? slot = some (.bound target) ∧
        (set.node? target).isSome = true) ∨
      (∃ proxy, content.tree.referenceAt? slot = some (.unresolved proxy)) ∧
        content.pending.countP (·.slot = slot) = 1)

/-- An address leads somewhere for as long as the tree of its resource keeps its shape. -/
theorem isSome_node?_of_resolve? {after : Content} {id : NodeId} {target : Uri}
    (held : set.content? target.resource = some after) (same : after.tree.shape = tree.shape)
    (leads : tree.resolve? target.fragment = some id) (inside : tree.contains id = true) :
    (set.node? target).isSome = true := by
  rw [← Tree.resolve?_of_shape same] at leads
  rw [← Tree.contains_of_shape same] at inside
  have node : set.node? target = some ⟨target.resource, after.tree, id⟩ :=
    node?_eq_some_iff.mpr ⟨after, held, rfl, rfl, leads, inside⟩
  rw [node]
  rfl

/-- An edit leaves nothing that waits for a node that cannot be reached afterwards. -/
theorem spares_refreshed {edits : List Edit} (consistent : content.tree.Consistent) :
    (refreshed home content edits).Spares (content.tree.run edits) := by
  refine ⟨rfl, fun _ _ => rfl, fun pending member => ?_⟩
  obtain ⟨_, reached⟩ := List.mem_filter.mp member
  have after : (ResourceSet.edited content edits).tree.Consistent := consistent.run edits
  have found := congrArg Option.isSome (@Content.lookup_addresses _ home after pending.source)
  rw [Option.isSome_map] at found
  exact after.isSome_fragment?.mp (found.symm.trans reached)

theorem spared_cut {id container : NodeId} {position : FeatureId}
    (consistent : content.tree.Consistent)
    (above : content.tree.container? id = some (container, position))
    (held : set.content? home = some content) :
    Spared home (content.tree.without container position id) (cut set home id) := by
  have after := content?_edit held [.detach id] () home
  have fresh := @spares_refreshed home content [.detach id] consistent
  rw [if_pos rfl] at after
  rw [Tree.run_detach above] at fresh
  exact ⟨_, after, fresh.relocated (consistent.without above) _⟩

/-- A tree from which nodes were cut is edited until it has its old shape again, and no edit
writes a reference. The nodes stood `beside` it when `later` was its content. -/
structure Pasted (beside : Tree) (own later : Content) (edits : List Edit) : Prop where
  consistent : own.tree.Consistent
  cut : beside.Consistent
  fewer : beside.allNodes ⊆ own.tree.allNodes
  values : ∀ {slot value}, own.tree.referenceAt? slot = some value →
    beside.referenceAt? slot = some value
  spares : later.Spares beside
  shape : (later.tree.run edits).shape = own.tree.shape
  unwritten : ∀ slot, later.tree.Untouched slot edits

theorem pasted_attach {own later : Content} {container id : NodeId} {position : FeatureId}
    {index : Nat} {feature : Feature} (consistent : own.tree.Consistent)
    (above : own.tree.container? id = some (container, position))
    (place : (own.tree.childrenAt container position)[index]? = some id)
    (declared : own.tree.feature? container position = some feature)
    (spares : later.Spares (own.tree.without container position id)) :
    Pasted (own.tree.without container position id) own later
      [.attach container feature.name (some index) id] where
  consistent := consistent
  cut := consistent.without above
  fewer _ reached := consistent.mem_allNodes_of_without above reached
  values held := by
    rw [← Tree.run_detach above]
    exact Tree.referenceAt?_run consistent [.detach id] ⟨fun writes => writes.2, trivial⟩ held
  spares := spares
  shape := consistent.shape_run_attach above declared place spares.shape
  unwritten _ := ⟨fun writes => writes.2, trivial⟩

section Pasted

variable {beside : Tree} {own later last : Content} {edits : List Edit} {slot : SlotKey}
  {value : Reference}

namespace Pasted

variable (pasted : Pasted beside own later edits)
include pasted

theorem later_consistent : (ResourceSet.edited later edits).tree.Consistent :=
  (pasted.spares.consistent pasted.cut).run edits

-- Neither the cut nor the paste writes a reference, and the value is spared between them.
theorem reads_run (apart : slot.source ∉ beside.allNodes)
    (held : own.tree.referenceAt? slot = some value) :
    (later.tree.run edits).referenceAt? slot = some value := by
  have before := pasted.values held
  rw [← pasted.spares.beside slot apart] at before
  exact Tree.referenceAt?_run (pasted.spares.consistent pasted.cut) edits (pasted.unwritten slot)
    before

-- What could be reached before the paste can be reached after it, so that nothing is lost.
theorem lost?_eq_none (value : Reference) :
    (relocation home later edits).lost? value = none := by
  have kept : ∀ old, old ∉ (relocation home later edits).detached := by
    intro old gone
    obtain ⟨other, listed, lost⟩ := Relocation.mem_detached.mp gone
    obtain ⟨reached, _⟩ := Content.mem_addresses.mp listed
    rw [pasted.spares.allNodes] at reached
    have still := pasted.fewer reached
    rw [← Tree.allNodes_of_shape pasted.shape] at still
    have found := pasted.later_consistent.isSome_fragment?.mpr still
    rw [Content.lookup_addresses pasted.later_consistent, Option.map_eq_none_iff] at lost
    rw [lost] at found
    cases found
  cases value with
  | bound target => exact if_neg (kept target)
  | unresolved proxy => rfl

/-- A reference comes back with its value, or with another address if it has the address of a node
that the paste moves. Nothing waits for it. -/
theorem comes_back (apart : slot.source ∉ beside.allNodes)
    (member : (slot, value) ∈ own.tree.referenceValues)
    (changed : relocated (relocation home later edits) (refreshed home later edits) = last) :
    last.tree.referenceAt? slot = some (((relocation home later edits).follow? value).getD value) ∧
      ∀ pending ∈ last.pending, pending.slot ≠ slot := by
  have held := (pasted.consistent.mem_referenceValues.mp member).2.2
  have read := pasted.reads_run apart held
  have listed : (slot, value) ∈ (refreshed home later edits).tree.referenceValues :=
    mem_of_view pasted.consistent member pasted.shape read
  have fresh : (refreshed home later edits).tree.Consistent := pasted.later_consistent
  have seen := Content.view_relocate fresh (relocation home later edits) listed
  have waits : ∀ proxy, ¬ ((refreshed home later edits).view slot).waits proxy :=
    fun _ listed => apart (pasted.spares.waits _ (List.mem_filter.mp listed).1)
  rw [pasted.lost?_eq_none] at seen
  -- a slot for which nothing waits is not waited for when its reference takes another address
  have view : (last.view slot).value =
        some (((relocation home later edits).follow? value).getD value) ∧
      ∀ proxy, ¬ (last.view slot).waits proxy := by
    rw [← changed, relocated, seen]
    cases (relocation home later edits).follow? value with
    | none => exact ⟨read, waits⟩
    | some moved =>
      cases moved with
      | bound target => exact ⟨rfl, waits⟩
      | unresolved proxy =>
        refine ⟨rfl, fun other redirected => ?_⟩
        obtain ⟨_, before, waited⟩ := redirected
        exact waits before waited
  refine ⟨view.1, ?_⟩
  rintro pending waiting rfl
  exact view.2 pending.proxy waiting

/-- Another address that a reference takes is one of a node of the pasted tree, in place of one that
the resource had before. -/
theorem moved_bound {target : Uri} {moved : Reference}
    (follows : (relocation home later edits).follow? (.bound target) = some moved) :
    target.resource = home ∧ ∃ other path, (later.tree.run edits).fragment? other = some path ∧
      moved = .bound ⟨home, path⟩ := by
  have listed : ∃ new, (relocation home later edits).moved.lookup target = some new ∧
      moved = .bound new := by
    simp only [Relocation.follow?] at follows
    split at follows
    · cases follows
    · obtain ⟨new, found, rfl⟩ := Option.map_eq_some_iff.mp follows
      exact ⟨new, found, rfl⟩
  obtain ⟨new, found, rfl⟩ := listed
  obtain ⟨other, before, after, _⟩ :=
    Relocation.mem_moved.mp (@OrderedMap.mem_of_get? _ _ _ ⟨_⟩ _ _ found)
  obtain ⟨_, _, _, rfl⟩ := Content.mem_addresses.mp before
  rw [Content.lookup_addresses pasted.later_consistent] at after
  obtain ⟨path, written, rfl⟩ := Option.map_eq_some_iff.mp after
  exact ⟨rfl, other, path, written, rfl⟩

/-- What comes back is kept exactly if it was bound, to a node of the resource itself or to one
that is still there. -/
theorem isKept_iff (named : own.tree.PathNamed) (fits : own.tree.size ≤ Text.indexBound)
    (held : next.content? home = some last)
    (changed : relocated (relocation home later edits) (refreshed home later edits) = last)
    (apart : slot.source ∉ beside.allNodes)
    (member : (slot, value) ∈ own.tree.referenceValues)
    (live : ∀ target, value = .bound target → target.resource = home →
      ∃ id, own.tree.resolve? target.fragment = some id ∧ own.tree.contains id = true) :
    IsKept next home slot ↔ ∃ target, value = .bound target ∧
      (target.resource = home ∨ (next.node? target).isSome = true) := by
  obtain ⟨read, none_waits⟩ := pasted.comes_back apart member changed
  have shape : last.tree.shape = own.tree.shape := by
    rw [← changed]
    exact (Content.shape_relocate _).trans pasted.shape
  have unnoted : last.pending.countP (·.slot = slot) ≠ 1 := by
    have zero : last.pending.countP (·.slot = slot) = 0 :=
      List.countP_eq_zero.mpr fun pending waiting => by simpa using none_waits pending waiting
    rw [zero]
    exact Nat.zero_ne_one
  have kept : IsKept next home slot ↔ ∃ target, last.tree.referenceAt? slot = some (.bound target) ∧
      (next.node? target).isSome = true := by
    constructor
    · rintro ⟨content, found, bound | ⟨_, once⟩⟩
      · cases held.symm.trans found
        exact bound
      · cases held.symm.trans found
        exact absurd once unnoted
    · exact fun bound => ⟨last, held, .inl bound⟩
  rw [kept, read]
  cases value with
  | unresolved proxy =>
    have still_open : ∀ target,
        ((relocation home later edits).follow? (.unresolved proxy)).getD (.unresolved proxy) ≠
          .bound target := by
      intro target
      cases follows : (relocation home later edits).follow? (.unresolved proxy) with
      | none => exact Reference.noConfusion
      | some moved =>
        obtain ⟨waiting, rfl⟩ := Content.unresolved_of_follow? follows
        exact Reference.noConfusion
    simp [still_open]
  | bound target =>
    cases follows : (relocation home later edits).follow? (.bound target) with
    | some moved =>
      obtain ⟨own_target, other, path, written, rfl⟩ := pasted.moved_bound follows
      rw [Tree.fragment?_of_shape pasted.shape] at written
      have leads := pasted.consistent.resolve?_fragment named fits written
      obtain ⟨steps, way, _⟩ := pasted.consistent.fragment?_eq_some.mp written
      have there := @isSome_node?_of_resolve? _ _ _ _ ⟨home, path⟩ held shape leads
        (Tree.contains_of_leads pasted.consistent way)
      simp [own_target, there]
    | none =>
      have there : target.resource = home → (next.node? target).isSome = true := by
        intro here
        obtain ⟨id, leads, inside⟩ := live target rfl here
        exact isSome_node?_of_resolve? (here ▸ held) shape leads inside
      simp only [Option.getD_none, Option.some.injEq, Reference.bound.injEq, exists_eq_left']
      exact ⟨.inr, fun kept => kept.elim there id⟩

end Pasted

end Pasted

/-- A node is cut out of a loaded resource, other resources change in any way, and the node is
pasted where it was. The tree is then as before, but each reference in it is kept exactly if it was
bound to a node of the resource itself, or to one that is still there. -/
theorem kept_by_pasting_iff {container id : NodeId} {position : FeatureId} {index : Nat}
    {feature : Feature} {slot : SlotKey} {value : Reference} (wellFormed : set.WellFormed)
    (held : set.content? home = some content) (named : content.tree.PathNamed)
    (fits : content.tree.size ≤ Text.indexBound)
    (above : content.tree.container? id = some (container, position))
    (declared : content.tree.feature? container position = some feature)
    (place : (content.tree.childrenAt container position)[index]? = some id)
    (history : Relation.ReflTransGen (Elsewhere home) (cut set home id) later)
    (member : (slot, value) ∈ content.tree.referenceValues)
    (inside : slot.source ∈ content.tree.descendants id)
    (live : ∀ target, value = .bound target → (set.node? target).isSome = true) :
    let after := paste later home container feature.name index id
    (∃ last, after.content? home = some last ∧ last.tree.shape = content.tree.shape) ∧
      (IsKept after home slot ↔ ∃ target, value = .bound target ∧
        (target.resource = home ∨ (after.node? target).isSome = true)) := by
  intro after
  have consistent := (wellFormed held).consistent
  obtain ⟨between, held', spares⟩ :=
    (spared_cut consistent above held).history (consistent.without above) history
  have pasted := pasted_attach consistent above place declared spares
  have held'' := content?_edit held' [.attach container feature.name (some index) id] () home
  rw [if_pos rfl] at held''
  refine ⟨⟨_, held'', (Content.shape_relocate _).trans pasted.shape⟩, ?_⟩
  refine pasted.isKept_iff named fits held'' rfl (consistent.not_mem_allNodes_without above inside)
    member fun target bound here => ?_
  obtain ⟨site, found⟩ := Option.isSome_iff_exists.mp (live target bound)
  obtain ⟨content', held_there, _, _, leads, inside⟩ := node?_eq_some_iff.mp found
  rw [here, held] at held_there
  cases held_there
  exact ⟨site.id, leads, inside⟩

/-! ### Two texts -/

def cutUri : ResourceUri := ⟨"a.types"⟩

def neededUri : ResourceUri := ⟨"b.types"⟩

def cutSlot : SlotKey := ⟨1, 1, none⟩

def linkedWith (set : ResourceSet) : ResourceSet :=
  (link (globalScope .simple) (fun _ => false) (set.load cutUri "type A extends B").1).1

def lonely : ResourceSet :=
  linkedWith { languages := ({} : Languages).register Types.language }

def served : ResourceSet :=
  linkedWith (({ languages := ({} : Languages).register Types.language } : ResourceSet).load
    neededUri "type B").1

def neededType : Uri := ⟨neededUri, .ofSteps [⟨"elements", some 0⟩]⟩

def interrupted : ResourceSet := ((cut served cutUri 1).load ⟨"c.types"⟩ "type C").1

theorem served_reachable : served.Reachable :=
  (Reachable.types.load neededUri "type B").load cutUri "type A extends B" |>.linked _ _

/-- The type comes back with its reference. -/
theorem served_kept : IsKept (paste interrupted cutUri 0 "elements" 0 1) cutUri cutSlot := by
  have history : Relation.ReflTransGen (Elsewhere cutUri) (cut served cutUri 1) interrupted :=
    .single (.load (by decide) "type C")
  have seen : ((served.content? cutUri).map (fun content => (content.tree.referenceValues,
      content.tree.container? 1, content.tree.feature? 0 0, content.tree.childrenAt 0 0,
      content.tree.descendants 1, content.tree.size,
      content.tree.nodes.toList.map (·.classifier))),
      (served.node? neededType).isSome,
      ((paste interrupted cutUri 0 "elements" 0 1).node? neededType).isSome) =
    (some ([(cutSlot, .bound neededType)], some (0, 0),
      some (Feature.containment "elements" "Element").many, [1], [1], 2,
      [Types.modelClass, Types.typeClass]), true, true) := by
    cbv
  obtain ⟨seen, both⟩ := Prod.mk.inj seen
  obtain ⟨there, still⟩ := Prod.mk.inj both
  obtain ⟨content, held, fields⟩ := Option.map_eq_some_iff.mp seen
  simp only [Prod.mk.injEq] at fields
  obtain ⟨values, above, declared, children, below, size, classifiers⟩ := fields
  have named : content.tree.PathNamed := by
    apply Types.Typed.pathNamed
    apply Types.typed_of_classifiers
    rw [classifiers]
    simp [Types.classes]
  have fits : content.tree.size ≤ Text.indexBound := by
    rw [size]
    decide
  have live : ∀ target, Reference.bound neededType = .bound target →
      (served.node? target).isSome = true := by
    rintro _ ⟨⟩
    exact there
  have place : (content.tree.childrenAt 0 0)[0]? = some 1 := by rw [children]; rfl
  have kept := kept_by_pasting_iff served_reachable.wellFormed held named fits above declared place
    history (values ▸ List.mem_singleton_self _) (by rw [below]; exact List.mem_singleton_self _)
    live
  exact kept.2.mpr ⟨neededType, rfl, .inr still⟩

def standing (set : ResourceSet) (home : ResourceUri) (slot : SlotKey) :
    Option (Option Reference × Nat) :=
  (set.content? home).map fun content => (content.tree.referenceAt? slot,
    content.pending.countP (·.slot = slot))

theorem isKept_of_standing {slot : SlotKey} {value : Reference} {waits : Nat}
    (seen : standing set home slot = some (some value, waits)) :
    IsKept set home slot ↔
      value.target?.elim (waits = 1) fun target => (set.node? target).isSome = true := by
  obtain ⟨content, held, fields⟩ := Option.map_eq_some_iff.mp seen
  obtain ⟨read, rfl⟩ := Prod.mk.inj fields
  unfold IsKept
  rw [held]
  simp only [Option.some.injEq, exists_eq_left', read]
  cases value <;> simp [Reference.target?]

/-- A name that waits is not noted again when its type comes back, although nothing has happened
in between. And a reference whose target was unloaded in between comes back bound to nothing. -/
theorem lost_by_pasting :
    (IsKept lonely cutUri cutSlot ∧
      ¬ IsKept (paste (cut lonely cutUri 1) cutUri 0 "elements" 0 1) cutUri cutSlot) ∧
    (IsKept served cutUri cutSlot ∧
      ¬ IsKept (paste ((cut served cutUri 1).unload neededUri).1 cutUri 0 "elements" 0 1) cutUri
        cutSlot) := by
  have lonelySeen : (standing lonely cutUri cutSlot,
      standing (paste (cut lonely cutUri 1) cutUri 0 "elements" 0 1) cutUri cutSlot) =
      (some (some (.unresolved (.name ⟨["B"]⟩)), 1), some (some (.unresolved (.name ⟨["B"]⟩)), 0)) := by
    cbv
  have servedSeen : (standing served cutUri cutSlot, (served.node? neededType).isSome,
      standing (paste ((cut served cutUri 1).unload neededUri).1 cutUri 0 "elements" 0 1) cutUri cutSlot,
      ((paste ((cut served cutUri 1).unload neededUri).1 cutUri 0 "elements" 0 1).node?
        neededType).isSome) =
      (some (some (.bound neededType), 0), true, some (some (.bound neededType), 0), false) := by
    cbv
  simp only [Prod.mk.injEq] at lonelySeen servedSeen
  obtain ⟨waits, forgotten⟩ := lonelySeen
  obtain ⟨bound, there, stale, gone⟩ := servedSeen
  refine ⟨⟨(isKept_of_standing waits).mpr rfl, ?_⟩, (isKept_of_standing bound).mpr there, ?_⟩
  · rw [isKept_of_standing forgotten]
    exact Nat.zero_ne_one
  · rw [isKept_of_standing stale]
    exact Bool.eq_false_iff.mp gone

end Crosslink.Linking
