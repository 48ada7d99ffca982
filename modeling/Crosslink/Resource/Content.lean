import Crosslink.Language
import Crosslink.Tree.Features

/-! What a loaded resource holds besides its tree.

The open references of the tree are listed in the order of the document, and
each may carry a diagnostic. A reference that was bound from a written name
keeps that name, so that it can be opened again under it.
-/

set_option autoImplicit false

namespace Crosslink

structure Content where
  tree : Tree
  pending : List Pending := []
  textDiagnostics : List Diagnostic := []
  /-- What is wrong with references, by slot. -/
  linkDiagnostics : OrderedMap SlotKey Diagnostic := {}
  /-- For slots bound from a name: the name, and the target it led to. -/
  writtenNames : OrderedMap SlotKey (QualifiedName × Uri) := {}
  /-- The names looked up so far, each once. -/
  importedNames : List QualifiedName := []
  /-- The lines of the text, when there is one. -/
  lines : Option LineIndex := none

namespace Pending

/-- The place of an open reference in the document; what is not in it comes last. -/
def rank (order : List NodeId) (pending : Pending) : Nat × Nat × Nat :=
  (order.idxOf pending.source, pending.feature, (pending.index.map (· + 1)).getD 0)

/-- The order of ranks: node, then feature, then position. -/
def notAfter (first second : Nat × Nat × Nat) : Bool :=
  first.1 < second.1 || first.1 = second.1 && (first.2.1 < second.2.1 ||
    first.2.1 = second.2.1 && first.2.2 ≤ second.2.2)

end Pending

namespace Content

/-- Open references by their place in the document; of one slot, as they were given. -/
def inDocumentOrder (tree : Tree) (pending : List Pending) : List Pending :=
  let order := tree.allNodes
  pending.mergeSort fun first second => Pending.notAfter (first.rank order) (second.rank order)

/-- The content as it comes out of a text or a hand-made tree. -/
def ofParsed (parsed : Parsed) (lines : Option LineIndex) : Content :=
  { tree := parsed.tree
    pending := inDocumentOrder parsed.tree parsed.pending
    textDiagnostics := parsed.diagnostics
    lines }

/-- What is wrong with the text, then what is wrong with references. -/
def diagnostics (content : Content) : List Diagnostic :=
  content.textDiagnostics ++ content.linkDiagnostics.values

def hasTextErrors (content : Content) : Bool := content.textDiagnostics.any Diagnostic.isError

/-- Bind an open reference, unless its slot holds no reference value. -/
def bind? (content : Content) (pending : Pending) (target : Uri) (warning : Option Diagnostic) :
    Option Content :=
  (content.tree.replaceReference? pending.slot (.bound target)).map fun tree =>
    { content with
      tree
      writtenNames :=
        match pending.proxy with
        | .name name => content.writtenNames.insert pending.slot (name, target)
        | .uri _ => content.writtenNames.erase pending.slot
      pending := content.pending.filter (·.slot ≠ pending.slot)
      linkDiagnostics :=
        match warning with
        | some warning => content.linkDiagnostics.insert pending.slot warning
        | none => content.linkDiagnostics.erase pending.slot }

def report (content : Content) (slot : SlotKey) (diagnostic : Diagnostic) : Content :=
  { content with linkDiagnostics := content.linkDiagnostics.insert slot diagnostic }

/-- Note a name that was looked up, unless it has been noted before. -/
def importName? (content : Content) (name : QualifiedName) : Option Content :=
  if name ∈ content.importedNames then none
  else some { content with importedNames := content.importedNames ++ [name] }

/-- What a bound reference is opened to: the name that led to its target, if
one did, and else the target. -/
def reopened (content : Content) (slot : SlotKey) (target : Uri) : Proxy :=
  match content.writtenNames.get? slot with
  | some (name, led) => if led = target then .name name else .uri target
  | none => .uri target

def reopen (content : Content) (slot : SlotKey) (target : Uri) : Content :=
  let proxy := content.reopened slot target
  { content with
    tree := content.tree.replaceReference slot (.unresolved proxy)
    writtenNames := content.writtenNames.erase slot
    linkDiagnostics := content.linkDiagnostics.erase slot
    pending := content.pending ++ [⟨slot, proxy⟩] }

/-- Open bound references again, each given by its slot and its target. -/
def reopenAll (content : Content) : List (SlotKey × Uri) → Content
  | [] => content
  | slots =>
    let opened := slots.foldl (fun content (slot, target) => content.reopen slot target) content
    { opened with pending := inDocumentOrder opened.tree opened.pending }

def boundInto (content : Content) (resource : ResourceUri) : List (SlotKey × Uri) :=
  content.tree.referenceValues.filterMap fun (slot, value) =>
    match value with
    | .bound target => if target.isIn resource then some (slot, target) else none
    | .unresolved _ => none

/-- Open the references into a resource again, if there are any. -/
def demote? (content : Content) (resource : ResourceUri) : Option Content :=
  match content.boundInto resource with
  | [] => none
  | slots => some (content.reopenAll slots)

end Content

end Crosslink
