import Crosslink.Proofs.Tree.Paths
import Crosslink.Types.Metamodel

/-! Trees of the types language.

Their nodes are instances of four classifiers, whose features have names that can
stand in paths.
-/

set_option autoImplicit false

namespace Crosslink.Types

instance (name : String) : Decidable (IsPathName name) :=
  inferInstanceAs (Decidable (_ ∧ _ ∧ _))

def Typed (tree : Tree) : Prop :=
  ∀ id classifier, tree.classifier? id = some classifier → classifier ∈ classes

theorem isPathName_of_classes :
    ∀ classifier ∈ classes, ∀ feature ∈ classifier.features, IsPathName feature.name := by
  decide

theorem Typed.pathNamed {tree : Tree} (typed : Typed tree) : tree.PathNamed := by
  intro id position feature found
  obtain ⟨classifier, own, declared⟩ := Option.bind_eq_some_iff.mp found
  exact isPathName_of_classes classifier (typed _ _ own) feature (List.mem_of_getElem? declared)

theorem typed_empty : Typed Tree.empty := by
  intro id classifier found
  simp [Tree.empty, Tree.classifier?, Tree.node?] at found

theorem typed_of_classifiers {tree : Tree} (all : ∀ classifier ∈ tree.nodes.toList.map (·.classifier),
    classifier ∈ classes) : Typed tree := by
  intro id classifier found
  obtain ⟨node, held, rfl⟩ := Option.map_eq_some_iff.mp found
  exact all _ (List.mem_map_of_mem (Array.mem_def.mp (Array.mem_of_getElem? held)))

theorem Typed.create {tree : Tree} (typed : Typed tree) {classifier : Classifier}
    (member : classifier ∈ classes) : Typed (tree.create classifier).1 := by
  intro id own found
  unfold Tree.classifier? at found
  rw [Tree.node?_create] at found
  split at found
  · cases found
    exact member
  · exact typed id _ found

/-- A change that adds no node keeps all classifiers. -/
theorem Typed.change {tree next : Tree} (typed : Typed tree) (change : Tree.Change tree next)
    (same : next.size = tree.size) : Typed next := by
  intro id classifier found
  cases change with
  | created added => simp [Tree.create, Tree.size] at same
  | rooted inside free => exact typed id _ found
  | attached => exact typed id _ (by rwa [Tree.classifier?_relink] at found)
  | detached => exact typed id _ (by rwa [Tree.classifier?_relink] at found)
  | written => exact typed id _ (by rwa [Tree.classifier?_setSlot] at found)
  | ranged other range =>
    rw [Tree.setRange, Tree.classifier?_modify] at found
    · exact typed id _ found
    · exact fun _ => rfl

end Crosslink.Types
