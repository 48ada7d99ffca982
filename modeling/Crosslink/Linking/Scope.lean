import Crosslink.ResourceSet

/-! Scopes: which nodes a name denotes from where it is written. -/

set_option autoImplicit false

namespace Crosslink.Linking

/-- The addresses a name may stand for, the best first, where it is written in a
feature of a node. -/
abbrev Scope := ResourceSet → Site → Feature → QualifiedName → List Uri

/-- The nodes of one resource that have a name and may be values of a feature. -/
def candidatesIn (naming : Naming) (feature : Feature) (name : QualifiedName)
    (resource : Resource) : List Uri :=
  (resource.contents.filter fun site => site.fits feature && naming site = some name).filterMap
    Site.uri?

/-- All loaded resources: the own one first, then the others in the order of the set. -/
def globalScope (naming : Naming) : Scope := fun set source feature name =>
  let own := (set.get? source.resource).toList
  let others := set.resources.filter (·.uri ≠ source.resource)
  (own ++ others).flatMap (candidatesIn naming feature name)

end Crosslink.Linking
