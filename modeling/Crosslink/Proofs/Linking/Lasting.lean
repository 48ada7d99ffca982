import Crosslink.Proofs.Linking.Diagnosing
import Crosslink.Proofs.Linking.Ordering

/-! Diagnostics that last.

All that is done with a set but edits takes diagnostics away together with the
bindings that they are about, or leaves both. An edit leaves a diagnostic also
where it moves the node that the diagnostic points at, or the one it names.
-/

set_option autoImplicit false

namespace Crosslink

open Linking

namespace ResourceSet

variable {set : ResourceSet} {kind : ResourceUri → Content → Prop} {history : List Action}

/-- What takes part is fit for it: languages read texts in which all has its place, a resource
that joins is fine, and trees are edited by their operations. Members are not changed behind the
back of the set. -/
def Action.Proper : Action → Prop
  | .provide _ languages _ =>
    ∀ uri language, languages.for? uri = some language → language.Reads Content.Anchored
  | .add resource => resource.Holding Fine
  | .alone _ _ => False
  | .edit _ change => ∃ edits, change = fun tree => tree.run edits
  | _ => True

/-- An edit leaves what rests in all members undisturbed. -/
def Spares (set : ResourceSet) : Action → Prop
  | .edit uri change => ∀ {content home own}, set.content? uri = some content →
      set.content? home = some own → own.Undisturbed home uri content.tree (change content.tree)
  | _ => True

/-! ### One action -/

theorem anchored_edit (holding : set.Holding fun _ content => content.Anchored) (uri : ResourceUri)
    (edits : List Edit) : (set.edit uri fun tree => (tree.run edits, ())).1.Holding
      fun _ content => content.Anchored :=
  holding.edit uri edits () (fun _ anchored => (anchored.refreshed uri edits).relocated _)
    fun _ _ _ anchored => anchored.relocated _

theorem fine_edit (holding : set.Holding Fine) {uri : ResourceUri} {edits : List Edit}
    (spares : set.Spares (.edit uri fun tree => tree.run edits)) :
    (set.edit uri fun tree => (tree.run edits, ())).1.Holding Fine := by
  refine holding.edit uri edits () ?own ?others
  case own =>
    intro content held fine
    have undisturbed := spares held held
    have fresh := fine.anchored.refreshed uri edits
    have lasting := fine.lasting.refreshed fine.anchored undisturbed
    exact ⟨fresh.relocated _, lasting.relocated fresh (undisturbed.stays_refreshed fine.anchored)⟩
  case others =>
    intro content home other held apart held' fine
    have wellFormed := (holding.content? held).anchored.toWellFormed
    exact ⟨fine.anchored.relocated _,
      fine.lasting.relocated fine.anchored ((spares held held').stays wellFormed)⟩

theorem holding_act (persistent : Persistent kind) (holding : set.Holding kind) {action : Action}
    (proper : action.Proper)
    (edited : ∀ {uri edits}, action = .edit uri (fun tree => tree.run edits) →
      (set.edit uri fun tree => (tree.run edits, ())).1.Holding kind) :
    (set.act action).Holding kind := by
  cases action with
  | provide registry languages loader =>
    exact holding.provide registry loader fun uri language known =>
      persistent.reads (proper uri language known)
  | add resource =>
    cases done : set.add resource with
    | error fault => simpa [act, done, Except.toOption] using holding
    | ok next =>
      have fine : resource.Holding kind :=
        Resource.Holding.imp proper fun fine => persistent.lasting fine.anchored fine.lasting
      simpa [act, done, Except.toOption] using holding.add fine done
  | create uri =>
    cases done : set.create uri with
    | error fault => simpa [act, done, Except.toOption] using holding
    | ok next => simpa [act, done, Except.toOption] using holding.create done
  | alone uri action => exact proper.elim
  | load uri text => exact holding.load persistent.opens uri text
  | unload uri => exact holding.unload persistent.opens uri
  | remove uri => exact holding.remove persistent.opens uri
  | edit uri change =>
    obtain ⟨edits, rfl⟩ := proper
    exact edited rfl
  | ensureLoaded uri => exact holding.ensureLoaded persistent.opens uri
  | fetch target => exact holding.fetch persistent.opens target
  | link scope stop => exact holding_link persistent holding stop

/-! ### Histories -/

/-- What proper actions keep holds after every history, if its edits keep it too. -/
theorem holding_acts (persistent : Persistent kind) (proper : ∀ action ∈ history, action.Proper)
    (edited : ∀ {before uri edits}, before ++ [.edit uri fun tree => tree.run edits] <+: history →
      (({} : ResourceSet).acts before).Holding kind →
        ((({} : ResourceSet).acts before).edit uri fun tree => (tree.run edits, ())).1.Holding kind) :
    (({} : ResourceSet).acts history).Holding kind := by
  induction history using List.reverseRecOn with
  | nil => exact holding_empty
  | append_singleton history last ih =>
    have before : (({} : ResourceSet).acts history).Holding kind := by
      refine ih (fun action member => proper action (List.mem_append_left _ member)) fun cut => ?_
      exact edited (cut.trans (List.prefix_append history [last]))
    rw [acts_concat]
    refine holding_act persistent before (proper last (by simp)) ?_
    rintro uri edits rfl
    exact edited List.prefix_rfl before

/-- After a history that ends with a run that has finished, every diagnostic of a reference points
at its node and names its target exactly if before the run those at slots that rest did. They did
if every edit of the history has left what rested undisturbed. -/
theorem diagnosed_iff_lasting (proper : ∀ action ∈ history, action.Proper) {scope : Scope}
    {stop : Progress → Bool}
    (finished : (link scope stop (({} : ResourceSet).acts history)).2.ending = .finished) :
    ((({} : ResourceSet).acts (history ++ [.link scope stop])).IsDiagnosed ↔
      (({} : ResourceSet).acts history).Lasting) ∧
    ((∀ before action, before ++ [action] <+: history →
        (({} : ResourceSet).acts before).Spares action) →
      (({} : ResourceSet).acts history).Lasting) := by
  refine ⟨?same, fun spares uri content held => ?lasts⟩
  case same =>
    have anchored := holding_acts persistent_anchored proper
      fun _ holding => anchored_edit holding _ _
    rw [acts_concat]
    exact diagnosed_link_iff anchored finished
  case lasts =>
    have fine := holding_acts persistent_fine proper
      fun cut holding => fine_edit holding (spares _ _ cut)
    exact (fine.content? held).lasting

/-! ### A type with two candidates for the one that it extends -/

def userUri : ResourceUri := ⟨"user.types"⟩

def oneUri : ResourceUri := ⟨"one.types"⟩

def otherUri : ResourceUri := ⟨"other.types"⟩

def linkAll : Action := .link (globalScope .simple) fun _ => false

def ambiguous : List Action :=
  [.provide {} (({} : Languages).register Types.language) none, .load userUri "type A extends B",
    .load oneUri "type B", .load otherUri "type B", linkAll]

def shift (uri : ResourceUri) : Action :=
  .edit uri fun tree => tree.run [.create Types.typeClass, .attach 0 "elements" (some 0) 2]

def typeAddress (uri : ResourceUri) (index : Nat) : Uri := ⟨uri, .ofSteps [⟨"elements", some index⟩]⟩

def placed (set : ResourceSet) : Option (Option Fragment × List (SlotKey × Option Uri)) :=
  (set.content? userUri).map fun content => (content.tree.fragment? 1,
    content.linkDiagnostics.entries.map fun entry => (entry.1, entry.2.source))

theorem proper_shift (uri : ResourceUri) : ∀ action ∈ ambiguous ++ [shift uri], action.Proper := by
  have reads : Types.language.Reads Content.Anchored := by
    intro text
    have sound := (Content.sound_of_parse text (some (.ofText text))).1
    exact ⟨⟨sound.consistent, List.nodup_nil⟩, sound.waits, sound.notes⟩
  intro action member
  fin_cases member
  · intro uri language known
    cases (Types.speaks_empty {}).known known
    exact reads
  · trivial
  · trivial
  · trivial
  · trivial
  · exact ⟨_, rfl⟩

theorem rests_ambiguous {home : ResourceUri} {own : Content} {slot : SlotKey}
    (held : (({} : ResourceSet).acts ambiguous).content? home = some own) (rests : own.Rests slot) :
    home = userUri ∧ own.tree.referenceAt? slot = some (.bound (typeAddress oneUri 0)) := by
  have seen : (({} : ResourceSet).acts ambiguous).resources.map (fun resource => (resource.uri,
      resource.content.map fun content => content.linkDiagnostics.entries.map fun entry =>
        (entry.1, content.tree.referenceAt? entry.1))) =
      [(userUri, some [(⟨1, 1, none⟩, some (.bound (typeAddress oneUri 0)))]), (oneUri, some []),
        (otherUri, some [])] := by cbv
  obtain ⟨resource, found, filled⟩ := Option.bind_eq_some_iff.mp held
  obtain rfl := uri_of_get? found
  obtain ⟨⟨diagnostic, noted⟩, _⟩ := rests
  have listed := List.mem_map_of_mem (f := fun entry => (entry.1, own.tree.referenceAt? entry.1)) noted
  have among := List.mem_map_of_mem (f := fun resource : Resource => (resource.uri,
    resource.content.map fun content => content.linkDiagnostics.entries.map fun entry =>
      (entry.1, content.tree.referenceAt? entry.1))) (mem_of_get? found)
  rw [seen, filled, Option.map_some] at among
  simp only [List.mem_cons, Prod.mk.injEq, Option.some.injEq, List.not_mem_nil, or_false] at among
  rcases among with ⟨here, same⟩ | ⟨_, same⟩ | ⟨_, same⟩
  · rw [same, List.mem_singleton] at listed
    exact ⟨here, congrArg Prod.snd listed⟩
  · rw [same] at listed
    cases listed
  · rw [same] at listed
    cases listed

/-- A warning stays current where its type stays, and the one that it names. -/
theorem diagnosed_shifted_apart :
    (∀ action ∈ ambiguous ++ [shift otherUri], action.Proper) ∧
      (link (globalScope .simple) (fun _ => false)
        (({} : ResourceSet).acts (ambiguous ++ [shift otherUri]))).2.ending = .finished ∧
      (({} : ResourceSet).acts (ambiguous ++ [shift otherUri] ++ [linkAll])).IsDiagnosed ∧
      placed (({} : ResourceSet).acts (ambiguous ++ [shift otherUri] ++ [linkAll])) =
        some (some (typeAddress userUri 0).fragment, [(⟨1, 1, none⟩, some (typeAddress userUri 0))]) := by
  have seen : ((link (globalScope .simple) (fun _ => false)
      (({} : ResourceSet).acts (ambiguous ++ [shift otherUri]))).2.ending,
      placed (({} : ResourceSet).acts (ambiguous ++ [shift otherUri] ++ [linkAll]))) =
    (.finished, some (some (typeAddress userUri 0).fragment,
      [(⟨1, 1, none⟩, some (typeAddress userUri 0))])) := by
    cbv
  obtain ⟨finished, stands⟩ := Prod.mk.inj seen
  obtain ⟨diagnosed, lasts⟩ := diagnosed_iff_lasting (proper_shift otherUri) finished
  refine ⟨proper_shift otherUri, finished, diagnosed.mpr (lasts fun before action cut => ?_), stands⟩
  rcases List.prefix_concat_iff.mp cut with last | earlier
  · obtain ⟨rfl, same⟩ := List.append_inj' last rfl
    cases same
    intro content home own held held'
    have apart : otherUri ≠ oneUri ∧ otherUri ≠ userUri := by decide
    refine ⟨fun rests bound _ _ => ?_, fun here {slot path} rests _ => ?_⟩
    · have led := (rests_ambiguous held' rests).2
      rw [bound, Option.some.injEq, Reference.bound.injEq] at led
      exact absurd (congrArg Uri.resource led) apart.1
    · exact absurd (here.symm.trans (rests_ambiguous held' rests).1) apart.2
  · have member : action ∈ ambiguous := earlier.subset (by simp)
    fin_cases member <;> trivial

/-- A type that moves is still where it was, to its warning, after a run that has finished. -/
theorem shifted_not_diagnosed :
    (link (globalScope .simple) (fun _ => false)
        (({} : ResourceSet).acts (ambiguous ++ [shift userUri]))).2.ending = .finished ∧
      ¬ (({} : ResourceSet).acts (ambiguous ++ [shift userUri, linkAll])).IsDiagnosed := by
  have seen : ((link (globalScope .simple) (fun _ => false)
      (({} : ResourceSet).acts (ambiguous ++ [shift userUri]))).2.ending,
      placed (({} : ResourceSet).acts (ambiguous ++ [shift userUri, linkAll]))) =
    (.finished, some (some (typeAddress userUri 1).fragment,
      [(⟨1, 1, none⟩, some (typeAddress userUri 0))])) := by
    cbv
  obtain ⟨finished, seen⟩ := Prod.mk.inj seen
  refine ⟨finished, fun diagnosed => ?_⟩
  obtain ⟨content, held, read⟩ := Option.map_eq_some_iff.mp seen
  obtain ⟨stands, notes⟩ := Prod.mk.inj read
  obtain ⟨⟨slot, diagnostic⟩, noted, same⟩ := List.mem_map.mp (notes ▸ List.mem_singleton_self _)
  obtain ⟨rfl, told⟩ := Prod.mk.inj same
  obtain ⟨path, found, source⟩ := (diagnosed held noted).source
  cases stands.symm.trans found
  cases told.symm.trans source

end ResourceSet

end Crosslink
