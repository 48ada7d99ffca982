import Crosslink.Resource.Content
import Crosslink.Tree.Path

/-! Which nodes an edit gave another address, and how references follow. -/

set_option autoImplicit false

namespace Crosslink

/-- The addresses that became others, and those that no longer lead anywhere. -/
structure Relocation where
  moved : List (Uri × Uri)
  detached : List Uri

namespace Relocation

/-- The nodes that can be reached, with their addresses. -/
abbrev Addresses := List (NodeId × Uri)

def between (before after : Addresses) : Relocation :=
  { moved := before.filterMap fun (id, old) =>
      match after.lookup id with
      | some new => if new ≠ old then some (old, new) else none
      | none => none
    detached := before.filterMap fun (id, old) =>
      if (after.lookup id).isNone then some old else none }

def isEmpty (relocation : Relocation) : Bool :=
  relocation.moved.isEmpty && relocation.detached.isEmpty

/-- The reference as it has to read now, if it led to a node that moved. -/
def follow? (relocation : Relocation) : Reference → Option Reference
  | .bound target =>
    if target ∈ relocation.detached then none
    else (relocation.moved.lookup target).map Reference.bound
  | .unresolved (.uri target) =>
    (relocation.moved.lookup target).map fun new => .unresolved (.uri new)
  | .unresolved (.name _) => none

/-- The target of the reference, if it is bound to a node that was detached. -/
def lost? (relocation : Relocation) : Reference → Option Uri
  | .bound target => if target ∈ relocation.detached then some target else none
  | .unresolved _ => none

end Relocation

namespace Content

def addresses (content : Content) (resource : ResourceUri) : Relocation.Addresses :=
  content.tree.allNodes.filterMap fun id =>
    (content.tree.fragment? id).map fun path => (id, ⟨resource, path⟩)

/-- Drop what is noted about slots of nodes that cannot be reached any more,
and written names that no longer belong to what their slot holds. -/
def forgetStale (content : Content) (reachable : Relocation.Addresses) : Content :=
  let isReachable := fun (slot : SlotKey) => (reachable.lookup slot.source).isSome
  { content with
    pending := content.pending.filter (isReachable ·.slot)
    linkDiagnostics := content.linkDiagnostics.filter fun slot _ => isReachable slot
    writtenNames := content.writtenNames.filter fun slot (_, led) =>
      content.tree.referenceAt? slot = some (.bound led) }

/-- Put the new form of a reference in its slot and in what is noted about it. -/
def redirect (content : Content) (slot : SlotKey) (value : Reference) : Content :=
  let content := { content with tree := content.tree.replaceReference slot value }
  match value with
  | .bound target =>
    { content with
      writtenNames := content.writtenNames.modify slot fun (name, _) => (name, target) }
  | .unresolved proxy =>
    { content with
      pending := content.pending.map fun pending =>
        if pending.slot = slot then { pending with proxy } else pending }

/-- Let every reference follow its target, and open those whose target is gone,
if there are any of either. -/
def relocate? (content : Content) (relocation : Relocation) : Option Content :=
  let values := content.tree.referenceValues
  let moves := values.filterMap fun (slot, value) =>
    (relocation.follow? value).map fun value => (slot, value)
  let losses := values.filterMap fun (slot, value) =>
    (relocation.lost? value).map fun target => (slot, target)
  if moves.isEmpty && losses.isEmpty then none
  else
    some ((moves.foldl (fun content (slot, value) => content.redirect slot value) content).reopenAll
      losses)

end Content

end Crosslink
