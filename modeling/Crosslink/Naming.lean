import Crosslink.Site

/-! The names under which nodes are known. -/

set_option autoImplicit false

namespace Crosslink

/-- A policy that names some nodes and leaves the others without a name. -/
abbrev Naming := Site → Option QualifiedName

namespace Naming

def simple : Naming := fun site => site.name?.map QualifiedName.single

/-- The own name behind those of the named containers, the outermost first. -/
def nested : Naming := fun site =>
  site.name?.map fun own => ⟨(site.ancestors.filterMap Site.name?).reverse ++ [own]⟩

end Naming

end Crosslink
