import Crosslink.Description.Entry

/-! Strategies: which nodes and references of a resource are described. -/

set_option autoImplicit false

namespace Crosslink.Description

/-- What is said about a node, and whether the nodes below it are described too. -/
structure Yield (α : Type) where
  entries : List α
  descend : Bool := true

structure Strategy where
  naming : Naming
  /-- Nodes that count as the place of the references below them. -/
  isExported : Site → Bool
  exports : Site → Yield Export
  /-- The references of a node, which lies in the given place. -/
  links : Site → Option Uri → Yield Link

/-- Every node that has a name is exported under it. -/
def exportNamed (naming : Naming) (site : Site) : List Export :=
  match naming site, site.uri? with
  | some name, some uri => [⟨name, uri, site.className⟩]
  | _, _ => []

/-- The values of one feature that are bound to nodes elsewhere. A local target
counts only if the text alone does not lead to it. -/
def linksOf (site : Site) (source : Uri) (place : Option Uri) (feature : Feature)
    (values : List Reference) : List Link :=
  values.zipIdx.filterMap fun (value, index) =>
    match value with
    | .unresolved _ => none
    | .bound target =>
      if !target.isIn site.resource || !feature.isCross then
        some ⟨source, target, feature.name, if feature.isMany then some index else none, place⟩
      else none

/-- The references of a node in the features of interest. -/
def interestingLinks (interest : Feature → Bool) (site : Site) (place : Option Uri) : List Link :=
  match site.uri? with
  | none => []
  | some source =>
    (site.tree.referenceSlots site.id).flatMap fun (_, feature, values) =>
      if interest feature then linksOf site source place feature values else []

namespace Strategy

/-- Describe all nodes with a name and all references of interest. -/
def ofNaming (naming : Naming) (interest : Feature → Bool) : Strategy :=
  { naming
    isExported := fun site => (naming site).isSome
    exports := fun site => { entries := exportNamed naming site }
    links := fun site place => { entries := interestingLinks interest site place } }

/-- Describe lasting references, derived ones included. -/
def standard (naming : Naming) : Strategy := ofNaming naming Feature.isIndexable

/-- Describe lasting references that are not derived. -/
def withoutDerived (naming : Naming) : Strategy :=
  ofNaming naming fun feature => !feature.isDerived && feature.isIndexable

def cutExports (strategy : Strategy) (cut : Site → Bool) : Strategy :=
  { strategy with
    exports := fun site =>
      let yielded := strategy.exports site
      { yielded with descend := yielded.descend && !cut site } }

def cutLinks (strategy : Strategy) (cut : Site → Bool) : Strategy :=
  { strategy with
    links := fun site place =>
      let yielded := strategy.links site place
      { yielded with descend := yielded.descend && !cut site } }

end Strategy

end Crosslink.Description
