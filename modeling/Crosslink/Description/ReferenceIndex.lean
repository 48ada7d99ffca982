import Crosslink.Description.Basic

/-! An index over the descriptions of many resources.

It finds the references to a node, the nodes of a name, and the resources on
either side of a reference. What a resource contributed is replaced as a whole.
-/

set_option autoImplicit false

namespace Crosslink.Description

/-- The place of an export or a reference: its resource, and the position there. -/
abbrev Place := ResourceUri × Nat

structure ReferenceIndex where
  /-- The indexed descriptions; a resource keeps the place at which it first came. -/
  descriptions : OrderedMap ResourceUri Description := {}
  /-- For each target, where the references to it are. -/
  byTarget : OrderedMap Uri (List Place) := {}
  /-- For each name, where the exports of it are. -/
  byName : OrderedMap QualifiedName (List Place) := {}
  /-- For each resource, the resources it refers to. -/
  targets : OrderedMap ResourceUri (List ResourceUri) := {}

namespace ReferenceIndex

def empty : ReferenceIndex := {}

/-- Enter a place under a key, behind those that are there. -/
def enter {κ : Type} [DecidableEq κ] (map : OrderedMap κ (List Place)) (key : κ) (place : Place) :
    OrderedMap κ (List Place) :=
  map.insert key ((map.get? key).getD [] ++ [place])

/-- Enter the elements of a list under their keys, each with its position. -/
def enterAll {κ α : Type} [DecidableEq κ] (map : OrderedMap κ (List Place)) (uri : ResourceUri)
    (key : α → κ) (items : List α) : OrderedMap κ (List Place) :=
  items.zipIdx.foldl (fun map (item, position) => enter map (key item) (uri, position)) map

/-- Drop the places of a resource, and the keys that have no place left. -/
def leave {κ : Type} (map : OrderedMap κ (List Place)) (uri : ResourceUri) :
    OrderedMap κ (List Place) :=
  (map.mapValues fun places => places.filter (·.1 ≠ uri)).filter fun _ places => !places.isEmpty

/-- Drop what a resource contributed, but keep its place among the resources. -/
def withdraw (index : ReferenceIndex) (uri : ResourceUri) : ReferenceIndex :=
  if index.descriptions.contains uri then
    { index with
      byTarget := leave index.byTarget uri
      byName := leave index.byName uri
      targets := index.targets.erase uri }
  else index

/-- Replace what a resource contributes. -/
def update (index : ReferenceIndex) (description : Description) : ReferenceIndex :=
  let uri := description.uri
  let rest := index.withdraw uri
  { descriptions := rest.descriptions.insert uri description
    byTarget := enterAll rest.byTarget uri (·.target) description.links
    byName := enterAll rest.byName uri (·.name) description.exports
    targets := rest.targets.insert uri
      (description.links.map fun link => link.target.resource).eraseDups }

def remove (index : ReferenceIndex) (uri : ResourceUri) : ReferenceIndex :=
  let rest := index.withdraw uri
  { rest with descriptions := rest.descriptions.erase uri }

/-- The place of a resource among the indexed ones. -/
def rank (index : ReferenceIndex) (uri : ResourceUri) : Nat := index.descriptions.keys.idxOf uri

/-- Places by resource, then by position. -/
def inOrder (index : ReferenceIndex) (places : List Place) : List Place :=
  places.mergeSort fun first second =>
    index.rank first.1 < index.rank second.1 ||
      index.rank first.1 = index.rank second.1 && first.2 ≤ second.2

def at? {α : Type} (index : ReferenceIndex) (items : Description → List α) (place : Place) :
    Option α :=
  (index.descriptions.get? place.1).bind fun description => (items description)[place.2]?

def linksTo (index : ReferenceIndex) (target : Uri) : List Link :=
  (index.inOrder ((index.byTarget.get? target).getD [])).filterMap (index.at? Description.links)

def linksInto (index : ReferenceIndex) (target : ResourceUri) : List Link :=
  (index.descriptions.values.flatMap (·.links)).filter (·.target.isIn target)

def exportsNamed (index : ReferenceIndex) (name : QualifiedName) : List Export :=
  (index.inOrder ((index.byName.get? name).getD [])).filterMap (index.at? Description.exports)

def refers (index : ReferenceIndex) (source target : ResourceUri) : Bool :=
  ((index.targets.get? source).getD []).contains target

def referenced (index : ReferenceIndex) (source : ResourceUri) : List ResourceUri :=
  index.descriptions.keys.filter (index.refers source)

def referencing (index : ReferenceIndex) (target : ResourceUri) : List ResourceUri :=
  index.descriptions.keys.filter (index.refers · target)

def resourceCount (index : ReferenceIndex) : Nat := index.descriptions.size

def targetCount (index : ReferenceIndex) : Nat := index.byTarget.size

def linkCount (index : ReferenceIndex) : Nat := index.byTarget.values.flatten.length

end ReferenceIndex

end Crosslink.Description
