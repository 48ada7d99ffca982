import Crosslink.Proofs.ResourceSet.Loading

/-! Sets up to their references.

Linking changes the values of references and what is noted about them. All else
is the shape of a set, which tells where an address leads and what can be loaded.
-/

set_option autoImplicit false

namespace Crosslink

/-- The content without its references: they all read the same, and nothing is noted of them. -/
def Content.shape (content : Content) : Content :=
  { content with
    tree := content.tree.shape
    pending := []
    linkDiagnostics := {}
    writtenNames := {}
    importedNames := [] }

def Resource.shape (resource : Resource) : Resource :=
  { resource with
    content := resource.content.map Content.shape
    stamp := { resource.stamp with revision := 0 } }

namespace ResourceSet

variable {set next : ResourceSet} {uri : ResourceUri}

def shape (set : ResourceSet) : ResourceSet :=
  { set with resources := set.resources.map Resource.shape, requests := [] }

theorem get?_shape (uri : ResourceUri) :
    set.shape.get? uri = (set.get? uri).map Resource.shape :=
  @find?_map_of_uri Resource.shape (fun _ => rfl) set.resources uri

theorem content?_shape (uri : ResourceUri) :
    set.shape.content? uri = (set.content? uri).map Content.shape := by
  rw [content?, get?_shape, content?, Option.bind_map, Option.map_bind]
  rfl

theorem language?_shape (uri : ResourceUri) : set.shape.language? uri = set.language? uri := by
  rw [language?, get?_shape, Option.map_map]
  rfl

theorem uris_shape : set.shape.uris = set.uris := by
  rw [uris, shape, List.map_map]
  rfl

/-- What all members keep that one of them is changed by is kept by the set. -/
theorem shape_modify {change : Resource → Resource}
    (keeps : ∀ resource, (change resource).shape = resource.shape) :
    (set.modify uri change).shape = set.shape := by
  unfold shape modify
  rw [List.map_map]
  congr 1
  apply List.map_congr_left
  intro resource _
  rw [Function.comp_apply]
  split
  · exact keeps resource
  · rfl

section Same

variable (same : next.shape = set.shape)
include same

theorem uris_of_shape : next.uris = set.uris := by
  rw [← uris_shape, same, uris_shape]

theorem contents_of_shape (uri : ResourceUri) :
    (next.content? uri).map Content.shape = (set.content? uri).map Content.shape := by
  rw [← content?_shape, same, content?_shape]

theorem alike_of_shape : set.Alike next := by
  intro uri
  have trees := congrArg (Option.map Content.tree) (contents_of_shape same uri)
  rwa [Option.map_map, Option.map_map] at trees

theorem twins_of_shape : set.Twins next where
  alike := alike_of_shape same
  loader := (congrArg ResourceSet.loader same :)
  languages uri := by rw [← language?_shape, same, language?_shape]

end Same

end ResourceSet

end Crosslink
