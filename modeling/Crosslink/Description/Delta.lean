import Crosslink.Description.Basic

/-! How the description of a resource changed between two moments. -/

set_option autoImplicit false

namespace Crosslink.Description

structure Delta where
  uri : ResourceUri
  /-- The description before; none for a resource that was not there. -/
  old : Option Description
  /-- The description after; none for a resource that is gone. -/
  new : Option Description

namespace Delta

/-- The exports changed. References alone concern nobody else. -/
def hasChanges (delta : Delta) : Bool :=
  match delta.old, delta.new with
  | none, none => false
  | some old, some new => old.exports ≠ new.exports
  | _, _ => true

def exports (delta : Delta) : List Export :=
  (delta.old.toList ++ delta.new.toList).flatMap (·.exports)

end Delta

/-- A resource may have to be linked again: another one changed that it refers
to, or that exports, before or after the change, a name it imports. -/
def isAffected (deltas : List Delta) (candidate : Description) : Bool :=
  let changed := deltas.filter fun delta => delta.hasChanges && delta.uri ≠ candidate.uri
  let exported := changed.flatMap fun delta => delta.exports.map (·.name)
  candidate.importedNames.any (exported.contains ·) ||
    changed.any fun delta => candidate.refersTo delta.uri

end Crosslink.Description
