import Crosslink.Proofs.ResourceSet.Loading
import Crosslink.Proofs.Tree.Edits
import Crosslink.Types.Language
import Mathlib

/-! Operations that are refused.

Every operation checks what it needs before it changes a member, but for one:
a member that is loaded is to be read anew, the references into it are opened,
and only then is its language asked for.
-/

set_option autoImplicit false

namespace Crosslink

/-- What opening the references into a resource leaves as it was. -/
theorem Resource.demote_eq_self_iff {resource : Resource} {uri : ResourceUri} :
    resource.demote uri = resource ↔
      ∀ content, resource.content = some content → content.boundInto uri = [] := by
  unfold demote update
  cases held : resource.content with
  | none => simp
  | some content =>
    simp only [Option.bind_some, Option.some.injEq, forall_eq']
    unfold Content.demote?
    cases slots : content.boundInto uri with
    | nil => simp
    | cons slot rest =>
      -- whatever is opened counts as a change
      simp only [reduceCtorEq, iff_false]
      intro same
      have counted := congrArg (fun resource => resource.stamp.revision) same
      simp [put, touch] at counted

namespace ResourceSet

variable {set next : ResourceSet} {uri : ResourceUri} {text : String} {error : Error}

inductive Operation where
  | add (resource : Resource)
  | create (uri : ResourceUri)
  | load (uri : ResourceUri) (text : String)
  | ensureLoaded (uri : ResourceUri)
  | edit (uri : ResourceUri) (change : Tree → Tree)

def perform (set : ResourceSet) : Operation → ResourceSet × Except Error Unit
  | .add resource => ((set.add resource).toOption.getD set, (set.add resource).map fun _ => ())
  | .create uri => ((set.create uri).toOption.getD set, (set.create uri).map fun _ => ())
  | .load uri text => ((set.load uri text).1, (set.load uri text).2.map fun _ => ())
  | .ensureLoaded uri => set.ensureLoaded uri
  | .edit uri change => set.edit uri fun tree => (change tree, ())

def IsReferredTo (set : ResourceSet) (uri : ResourceUri) : Prop :=
  ∃ resource ∈ set.resources, resource.uri ≠ uri ∧
    ∃ content, resource.content = some content ∧ content.boundInto uri ≠ []

/-- The operation reads a loaded member anew that another one refers to. -/
def Opens (set : ResourceSet) : Operation → Prop
  | .load uri _ => set.isLoaded uri = true ∧ set.IsReferredTo uri
  | _ => False

theorem demoteInto_eq_self_iff :
    (set.demoteInto uri).resources = set.resources ↔ ¬ set.IsReferredTo uri := by
  have same : (set.demoteInto uri).resources = set.resources ↔
      ∀ resource ∈ set.resources, resource.uri ≠ uri → resource.demote uri = resource := by
    unfold demoteInto modifyOthers
    dsimp only
    conv_lhs => rhs; rw [← List.map_id set.resources]
    rw [List.map_inj_left]
    refine forall₂_congr fun resource _ => ?_
    by_cases here : resource.uri = uri <;> simp [here]
  rw [same]
  simp only [IsReferredTo, Resource.demote_eq_self_iff, ne_eq, not_exists, not_and, not_not]

theorem load_refused (refused : (set.load uri text).2 = .error error) :
    set.isLoaded uri = false ∧ (set.load uri text).1 = set ∨
      set.isLoaded uri = true ∧ (set.load uri text).1 = set.demoteInto uri := by
  cases loaded : set.isLoaded uri with
  | false =>
    have outcome := load_of_closed loaded text
    split at outcome
    · obtain ⟨fault, failed⟩ := outcome
      exact .inl ⟨rfl, by rw [failed]⟩
    · obtain ⟨report, done⟩ := outcome
      rw [done] at refused
      cases refused
  | true =>
    have outcome := load_of_loaded loaded text
    split at outcome
    · exact .inr ⟨rfl, by rw [outcome]⟩
    · obtain ⟨report, done⟩ := outcome
      rw [done] at refused
      cases refused

theorem ensureLoaded_refused (refused : (set.ensureLoaded uri).2 = .error error) :
    (set.ensureLoaded uri).1.resources = set.resources := by
  cases closed : set.isLoaded uri with
  | true =>
    rw [ensureLoaded_of_loaded closed] at refused
    cases refused
  | false =>
    cases had : set.supply? uri with
    | none =>
      obtain ⟨requests, fault, asked⟩ := ensureLoaded_of_missing closed had
      rw [asked]
    | some content =>
      have done := isOk_ensureLoaded closed had
      rw [refused] at done
      cases done

theorem edit_refused {α : Type} {change : Tree → Tree × α}
    (refused : (set.edit uri change).2 = .error error) :
    (set.edit uri change).1 = set := by
  unfold edit at refused ⊢
  split
  · rfl
  · next resource found =>
    split
    · rfl
    · next edited answer relocation done =>
      rw [found] at refused
      simp only [done] at refused
      cases refused

/-- An operation that is refused leaves every member as it was, exactly if it does not read a loaded
member anew that another one refers to. -/
theorem unchanged_of_refused {operation : Operation}
    (refused : (set.perform operation).2 = .error error) :
    (set.perform operation).1.resources = set.resources ↔ ¬ set.Opens operation := by
  have spared : ∀ {next : ResourceSet} {other : Operation}, next.resources = set.resources →
      set.Opens other = False → (next.resources = set.resources ↔ ¬ set.Opens other) := by
    intro next other same none
    simp [same, none]
  cases operation with
  | add resource =>
    cases done : set.add resource with
    | ok next => simp [perform, done, Except.map] at refused
    | error fault => exact spared (by simp [perform, done, Except.toOption]) rfl
  | create uri =>
    cases done : set.create uri with
    | ok next => simp [perform, done, Except.map] at refused
    | error fault => exact spared (by simp [perform, done, Except.toOption]) rfl
  | ensureLoaded uri => exact spared (ensureLoaded_refused refused) rfl
  | edit uri change => exact spared (congrArg resources (edit_refused refused)) rfl
  | load uri text =>
    have failed : (set.load uri text).2 = .error error := by
      unfold perform at refused
      cases result : (set.load uri text).2 with
      | ok report => simp [result, Except.map] at refused
      | error fault => simpa [result, Except.map] using refused
    rcases load_refused failed with ⟨closed, same⟩ | ⟨loaded, same⟩
    · have idle : ¬ set.Opens (.load uri text) := fun opens => by simp [Opens, closed] at opens
      simp [perform, same, idle]
    · have opens : set.Opens (.load uri text) ↔ set.IsReferredTo uri := and_iff_right loaded
      rw [opens, ← demoteInto_eq_self_iff, perform, same]

/-! ### A member without a language -/

def plainUri : ResourceUri := ⟨"plain.items"⟩

def textUri : ResourceUri := ⟨"text.types"⟩

def mixed : ResourceSet :=
  let tree := Tree.empty.run [.create Types.typeClass, .setRoot 0]
  let plain : Resource := { uri := plainUri, content := some { tree }, stamp := ⟨0, 0⟩ }
  let start : ResourceSet :=
    { resources := [plain], languages := ({} : Languages).register Types.language, serial := 1 }
  (start.load textUri "type A").1

/-- Nothing refers to the tree, and a text for it is refused without a trace. -/
theorem unchanged_mixed :
    (mixed.perform (.load plainUri "type B")).2 = .error (.noLanguage plainUri) ∧
      (mixed.perform (.load plainUri "type B")).1.resources = mixed.resources := by
  have seen : ((mixed.perform (.load plainUri "type B")).2, mixed.resources.all fun resource =>
      (resource.content.map (·.boundInto plainUri)).getD [] = []) =
      (.error (.noLanguage plainUri), true) := by
    cbv
  obtain ⟨refused, idle⟩ := Prod.mk.inj seen
  refine ⟨refused, (unchanged_of_refused refused).mpr ?_⟩
  rintro ⟨_, resource, member, _, content, held, bound⟩
  have free := List.all_eq_true.mp idle resource member
  simp [held, bound] at free

def mixedBound : ResourceSet :=
  (mixed.edit textUri fun tree =>
    (tree.run [.setReference 1 "extends" (.bound plainUri.rootUri)], ())).1

/-- The text for the tree is refused, and still what was bound to it waits afterwards. -/
theorem refused_opens_mixedBound :
    (mixedBound.perform (.load plainUri "type B")).2 = .error (.noLanguage plainUri) ∧
      (mixedBound.perform (.load plainUri "type B")).1.resources ≠ mixedBound.resources := by
  have seen : (mixedBound.resources.map Resource.pending,
      (mixedBound.perform (.load plainUri "type B")).1.resources.map Resource.pending,
      (mixedBound.perform (.load plainUri "type B")).2) =
      ([[], []], [[], [⟨⟨1, 1, none⟩, .uri plainUri.rootUri⟩]], .error (.noLanguage plainUri)) := by
    cbv
  simp only [Prod.mk.injEq] at seen
  obtain ⟨before, after, refused⟩ := seen
  refine ⟨refused, fun same => ?_⟩
  rw [same, before] at after
  cases after

end ResourceSet

end Crosslink
