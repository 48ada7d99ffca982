import Crosslink.Naming
import Crosslink.Proofs.Tree.Shape

/-! Names and the values of references.

A policy may look at everything in the tree of a node. What it says of a node
outlasts linking if it does not look at the values of references.
-/

set_option autoImplicit false

namespace Crosslink.Naming

variable {naming : Naming} {site : Site} {tree : Tree} {name : QualifiedName}

/-- The policy names a node alike whatever the values of references are. -/
def IgnoresReferences (naming : Naming) : Prop :=
  ∀ site tree, tree.shape = site.tree.shape → naming { site with tree } = naming site

/-- The policy names the node so for some values of the references. -/
def Reads (naming : Naming) (site : Site) (name : QualifiedName) : Prop :=
  ∃ tree, tree.shape = site.tree.shape ∧ naming { site with tree } = some name

theorem Reads.of_shape (reads : naming.Reads site name) (same : tree.shape = site.tree.shape) :
    naming.Reads { site with tree } name := by
  obtain ⟨before, shape, named⟩ := reads
  exact ⟨before, shape.trans same.symm, named⟩

theorem Reads.name_eq (reads : naming.Reads site name) (ignores : naming.IgnoresReferences) :
    naming site = some name := by
  obtain ⟨tree, same, named⟩ := reads
  rw [← ignores site tree same, named]

theorem name?_of_shape (same : tree.shape = site.tree.shape) :
    ({ site with tree } : Site).name? = site.name? := by
  unfold Site.name? Tree.attribute?
  rw [← Tree.attributes_shape, ← Tree.attributes_shape site.tree, same]

theorem simple_ignoresReferences : simple.IgnoresReferences := by
  intro site tree same
  unfold simple
  rw [name?_of_shape same]

theorem nested_ignoresReferences : nested.IgnoresReferences := by
  intro site tree same
  have above : tree.ancestors site.id = site.tree.ancestors site.id := by
    rw [← Tree.ancestors_shape, ← Tree.ancestors_shape site.tree, same]
  have names : (({ site with tree } : Site).ancestors.filterMap Site.name?) =
      site.ancestors.filterMap Site.name? := by
    unfold Site.ancestors
    dsimp only
    rw [above, List.filterMap_map, List.filterMap_map]
    congr 1
    funext id
    exact @name?_of_shape (site.move id) tree same
  unfold nested
  rw [name?_of_shape same, names]

def loosened : Naming := fun site =>
  if site.tree.referenceValues.any fun (_, value) => value.isBound then simple site
  else nested site

end Crosslink.Naming
