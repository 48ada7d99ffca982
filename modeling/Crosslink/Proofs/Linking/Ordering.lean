import Crosslink.Proofs.Linking.Visits
import Crosslink.Proofs.Resource.Ordering
import Crosslink.Proofs.ResourceSet.Steps
import Crosslink.Types.Language
import Mathlib

/-! The order in which references wait, over all that happens to a set.

Whatever is done with a set or with one of its members, what waits stays in the
order of the document, but for edits. It is said of every history, up to each
point, which edits have to be orderly for that.
-/

set_option autoImplicit false

namespace Crosslink

namespace ResourceSet

variable {set next : ResourceSet} {uri : ResourceUri} {resource : Resource}

def Ordered (set : ResourceSet) : Prop := ∀ resource ∈ set.resources, resource.Ordered

inductive Action where
  | provide (registry : Registry) (languages : Languages) (loader : Option Loader)
  | add (resource : Resource)
  | create (uri : ResourceUri)
  /-- A member is changed by itself, as whoever has made it can do. -/
  | alone (uri : ResourceUri) (action : Resource.Action)
  | load (uri : ResourceUri) (text : String)
  | unload (uri : ResourceUri)
  | remove (uri : ResourceUri)
  | edit (uri : ResourceUri) (change : Tree → Tree)
  | ensureLoaded (uri : ResourceUri)
  | fetch (target : Uri)
  | link (scope : Linking.Scope) (stop : Linking.Progress → Bool)

def actAlone (set : ResourceSet) (uri : ResourceUri) (action : Resource.Action) : ResourceSet :=
  match set.get? uri with
  | some resource => set.modify uri fun _ => resource.act action
  | none => set

def act (set : ResourceSet) : Action → ResourceSet
  | .provide registry languages loader => { set with registry, languages, loader }
  | .add resource => (set.add resource).toOption.getD set
  | .create uri => (set.create uri).toOption.getD set
  | .alone uri action => set.actAlone uri action
  | .load uri text => (set.load uri text).1
  | .unload uri => (set.unload uri).1
  | .remove uri => (set.remove uri).1
  | .edit uri change => (set.edit uri fun tree => (change tree, ())).1
  | .ensureLoaded uri => (set.ensureLoaded uri).1
  | .fetch target => (set.fetch target).1
  | .link scope stop => (Linking.link scope stop set).1

def acts (set : ResourceSet) (history : List Action) : ResourceSet := history.foldl act set

/-- A resource that joins has to be ordered, and a member has to be edited in an orderly way; all
else is orderly. -/
def Orderly (set : ResourceSet) : Action → Prop
  | .add resource => set.contains resource.uri = true ∨ resource.Ordered
  | .alone uri action => ∀ resource, set.get? uri = some resource → resource.Orderly action
  | .edit uri change => ∀ resource, set.get? uri = some resource → resource.Orderly (.edit change)
  | _ => True

/-! ### One action -/

section Members

variable (ordered : set.Ordered)
include ordered

theorem Ordered.mapped {change : Resource → Resource}
    (keeps : ∀ resource ∈ set.resources, resource.Ordered → (change resource).Ordered) :
    ({ set with resources := set.resources.map change } : ResourceSet).Ordered := by
  intro resource member
  obtain ⟨before, earlier, rfl⟩ := List.mem_map.mp member
  exact keeps before earlier (ordered before earlier)

theorem Ordered.modify {change : Resource → Resource}
    (keeps : ∀ resource : Resource, resource.Ordered → (change resource).Ordered) :
    (set.modify uri change).Ordered := by
  refine ordered.mapped fun resource _ kept => ?_
  split
  · exact keeps resource kept
  · exact kept

theorem Ordered.modifyOthers {change : Resource → Resource}
    (keeps : ∀ resource : Resource, resource.Ordered → (change resource).Ordered) :
    (set.modifyOthers uri change).Ordered := by
  refine ordered.mapped fun resource _ kept => ?_
  split
  · exact kept
  · exact keeps resource kept

-- Where a member takes another form, that form is all that has to be looked at.
theorem ordered_replaced_iff {changed : Resource} (found : set.get? uri = some resource) :
    (set.modify uri fun _ => changed).Ordered ↔ changed.Ordered := by
  constructor
  · intro all
    refine all changed (List.mem_map.mpr ⟨resource, mem_of_get? found, ?_⟩)
    exact if_pos (uri_of_get? found)
  · intro fine
    exact ordered.modify fun _ _ => fine

theorem Ordered.demoteInto (uri : ResourceUri) : (set.demoteInto uri).Ordered :=
  ordered.modifyOthers fun _ kept => kept.demote uri

theorem Ordered.joined {fresh : Resource} (fine : fresh.Ordered) (serial : Nat) :
    ({ set with resources := set.resources ++ [fresh], serial } : ResourceSet).Ordered := by
  intro member listed
  rcases List.mem_append.mp listed with earlier | last
  · exact ordered member earlier
  · rwa [List.mem_singleton.mp last]

theorem ordered_add_iff : ((set.add resource).toOption.getD set).Ordered ↔
    set.contains resource.uri = true ∨ resource.Ordered := by
  unfold ResourceSet.add
  split
  · next taken => exact iff_of_true ordered (.inl taken)
  · next free =>
    rw [or_iff_right free]
    constructor
    · exact fun all => all resource (List.mem_append_right _ (List.mem_singleton_self _))
    · exact fun fine => ordered.joined fine set.serial

theorem Ordered.create (done : set.create uri = .ok next) : next.Ordered := by
  obtain ⟨_, language, _, rfl⟩ := create_ok done
  exact ordered.joined (Resource.ordered_of_closed rfl) (set.serial + 1)

theorem Ordered.loadMember (uri : ResourceUri) (text : String) :
    (set.loadMember uri text).1.Ordered := by
  unfold ResourceSet.loadMember
  split
  · exact ordered
  · split
    · exact ordered
    · next done => exact ordered.modify fun _ _ => Resource.ordered_load done

theorem Ordered.load (uri : ResourceUri) (text : String) : (set.load uri text).1.Ordered :=
  load_induction (motive := Ordered) (fun uri kept => kept.demoteInto uri)
    (fun kept made => kept.create made) (fun uri text kept => kept.loadMember uri text) ordered uri
    text

theorem Ordered.unload (uri : ResourceUri) : (set.unload uri).1.Ordered :=
  unload_induction (motive := Ordered) (fun uri kept => kept.demoteInto uri)
    (fun _ kept => kept.modify fun _ _ => Resource.ordered_unload) ordered uri

theorem Ordered.remove (uri : ResourceUri) : (set.remove uri).1.Ordered :=
  remove_induction (motive := Ordered) (fun uri kept => kept.demoteInto uri)
    (fun _ kept resource member => kept resource (List.mem_filter.mp member).1) ordered uri

theorem Ordered.ensureLoaded (uri : ResourceUri) : (set.ensureLoaded uri).1.Ordered :=
  ensureLoaded_induction (motive := Ordered) (fun _ kept => kept)
    (fun uri text kept => kept.load uri text) ordered uri

theorem Ordered.fetch (target : Uri) : (set.fetch target).1.Ordered := by
  rw [fst_fetch]
  exact ordered.ensureLoaded target.resource

theorem ordered_alone_iff (action : Resource.Action) : (set.actAlone uri action).Ordered ↔
    ∀ resource, set.get? uri = some resource → resource.Orderly action := by
  unfold actAlone
  cases found : set.get? uri with
  | none => simpa using ordered
  | some resource =>
    simp only [Option.some.injEq, forall_eq']
    rw [ordered_replaced_iff ordered found]
    exact Resource.ordered_act_iff (ordered resource (mem_of_get? found)) action

-- The member is edited as it would be by itself. The others follow, and stay ordered.
theorem ordered_edit_iff (change : Tree → Tree) :
    (set.edit uri fun tree => (change tree, ())).1.Ordered ↔
      ∀ resource, set.get? uri = some resource → resource.Orderly (.edit change) := by
  rw [← ordered_alone_iff ordered]
  unfold ResourceSet.edit actAlone
  cases found : set.get? uri with
  | none => rfl
  | some resource =>
    have named := uri_of_get? found
    dsimp only
    rw [ordered_replaced_iff ordered found]
    cases done : resource.edit fun tree => (change tree, ()) with
    | error fault =>
      have unchanged : resource.act (.edit change) = resource := by simp [Resource.act, done, Except.toOption]
      rw [unchanged]
      exact iff_of_true ordered (ordered resource (mem_of_get? found))
    | ok outcome =>
      obtain ⟨edited, answer, relocation⟩ := outcome
      have changed : resource.act (.edit change) = edited := by simp [Resource.act, done, Except.toOption]
      have listed : edited ∈ (set.modify uri fun _ => edited).resources :=
        List.mem_map.mpr ⟨resource, mem_of_get? found, if_pos named⟩
      dsimp only
      rw [changed]
      split
      · exact ordered_replaced_iff ordered found
      · constructor
        · have stays : edited.uri = uri := by rw [← changed, resource.uri_act, named]
          exact fun all => all edited (List.mem_map.mpr ⟨edited, listed, if_pos stays⟩)
        · intro fine
          have replaced := (ordered_replaced_iff ordered found).mpr fine
          exact replaced.modifyOthers fun _ kept => kept.relocate relocation

end Members

end ResourceSet

namespace Linking

variable {scope : Scope} {set : ResourceSet} {home : ResourceUri} {pending : Pending}

theorem ordered_candidates {site : Site} {feature : Feature} {found : Resolution} {uris : List Uri}
    (ordered : set.Ordered)
    (asked : candidates scope set home site feature pending.proxy = (found, uris)) :
    found.set.Ordered := by
  cases waits : pending.proxy with
  | uri target =>
    rw [waits] at asked
    cases asked
    exact ordered.ensureLoaded target.resource
  | name name =>
    rw [waits] at asked
    cases asked
    exact ordered.modify fun _ kept => kept.update fun _ _ before done => before.imported done

theorem ordered_resolve (ordered : set.Ordered) : (resolve scope set home pending).set.Ordered := by
  have outcome := resolves scope set home pending
  generalize (resolve scope set home pending).set = after at outcome ⊢
  cases outcome with
  | passed lost => exact ordered
  | reported here asked fruitless =>
    refine (ordered_candidates ordered asked).modify fun resource kept after reported => ?_
    obtain ⟨content, held, rfl⟩ := Option.map_eq_some_iff.mp reported
    exact kept content held
  | bound here asked member fits warns =>
    exact (ordered_candidates ordered asked).modify fun _ kept =>
      kept.update fun _ _ before done => before.bind done

/-- What the turns of a run take is in the order of the document, and what they leave is too. -/
theorem ordered_link (ordered : set.Ordered) (scope : Scope) (stop : Progress → Bool)
    (turns : Nat) : (linkWithin scope stop turns set).Ordered :=
  @linkWithin_induction scope set ResourceSet.Ordered (fun _ _ _ => True) stop (fun _ => trivial)
    (fun kept _ => ⟨ordered_resolve kept, trivial⟩) turns ordered

end Linking

namespace ResourceSet

variable {set : ResourceSet}

/-- An action leaves an ordered set ordered exactly if it is orderly. -/
theorem ordered_act_iff (ordered : set.Ordered) (action : Action) :
    (set.act action).Ordered ↔ set.Orderly action := by
  cases action with
  | provide registry languages loader => exact iff_of_true ordered trivial
  | add resource => exact ordered_add_iff ordered
  | create uri =>
    refine iff_of_true ?_ trivial
    cases done : set.create uri with
    | error fault => simpa [act, done, Except.toOption] using ordered
    | ok next => simpa [act, done, Except.toOption] using ordered.create done
  | alone uri action => exact ordered_alone_iff ordered action
  | load uri text => exact iff_of_true (ordered.load uri text) trivial
  | unload uri => exact iff_of_true (ordered.unload uri) trivial
  | remove uri => exact iff_of_true (ordered.remove uri) trivial
  | edit uri change => exact ordered_edit_iff ordered change
  | ensureLoaded uri => exact iff_of_true (ordered.ensureLoaded uri) trivial
  | fetch target => exact iff_of_true (ordered.fetch target) trivial
  | link scope stop =>
    exact iff_of_true (Linking.ordered_link ordered scope stop (Linking.visitBound set)) trivial

theorem acts_concat (history : List Action) (action : Action) :
    set.acts (history ++ [action]) = (set.acts history).act action :=
  List.foldl_concat ..

/-- What waits is in the order of the document all along a history exactly if every action of the
history is orderly in its turn. -/
theorem ordered_throughout_iff (history : List Action) :
    (∀ before, before <+: history → (({} : ResourceSet).acts before).Ordered) ↔
      ∀ before action, before ++ [action] <+: history →
        (({} : ResourceSet).acts before).Orderly action := by
  -- the induction is on the last action: what came before has left the set ordered
  induction history using List.reverseRecOn with
  | nil =>
    refine iff_of_true ?_ ?_
    · intro before cut
      rw [List.prefix_nil.mp cut]
      exact nofun
    · intro before action cut
      simp at cut
  | append_singleton history last ih =>
    constructor
    · intro all before action cut
      have earlier : (({} : ResourceSet).acts before).Ordered :=
        all before ((List.prefix_append before [action]).trans cut)
      have later := all (before ++ [action]) cut
      rw [acts_concat] at later
      exact (ordered_act_iff earlier action).mp later
    · intro all before cut
      have earlier := ih.mpr fun before action cut' =>
        all before action (cut'.trans (List.prefix_append history [last]))
      rcases List.prefix_concat_iff.mp cut with rfl | within
      · rw [acts_concat]
        exact (ordered_act_iff (earlier history List.prefix_rfl) last).mpr
          (all history last List.prefix_rfl)
      · exact earlier before within

/-! ### Two types that change places -/

def pairUri : ResourceUri := ⟨"pair.types"⟩

def exchange : List Action :=
  [.provide {} (({} : Languages).register Types.language) none,
    .load pairUri "type A extends X type B extends Y",
    .edit pairUri fun tree => tree.run [.detach 1, .attach 0 "elements" (some 1) 1]]

/-- The first type, which is the last one now, is still the first that waits. -/
theorem exchange_unordered : ¬ (({} : ResourceSet).acts exchange).Ordered := by
  have listed : (({} : ResourceSet).acts exchange).resources.map (fun resource =>
      resource.content.map fun content => (content.tree.allNodes, content.pending)) =
      [some ([0, 2, 1],
        [⟨⟨1, 1, none⟩, .name ⟨["X"]⟩⟩, ⟨⟨2, 1, none⟩, .name ⟨["Y"]⟩⟩])] := by cbv
  intro ordered
  obtain ⟨resource, member, read⟩ := List.mem_map.mp (listed ▸ List.mem_singleton_self _)
  obtain ⟨content, held, same⟩ := Option.map_eq_some_iff.mp read
  obtain ⟨nodes, waits⟩ := Prod.mk.inj same
  have sorted := ordered resource member content held
  unfold Content.Ordered at sorted
  rw [nodes, waits] at sorted
  exact absurd (List.rel_of_pairwise_cons sorted (List.mem_singleton_self _)) (by decide)

end ResourceSet

end Crosslink
