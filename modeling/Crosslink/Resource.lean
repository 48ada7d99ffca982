import Crosslink.Naming
import Crosslink.Resource.Relocation

/-! Resources: addressable trees that can be loaded, changed and unloaded.

A resource that is not loaded holds nothing. Every change of what a resource
holds gives it a stamp that it never had before.
-/

set_option autoImplicit false

namespace Crosslink

/-- One state of one resource: no two resources share a serial number, and
each counts its own changes. -/
structure Stamp where
  serial : Nat
  revision : Nat := 0
  deriving DecidableEq, Repr

structure Resource where
  uri : ResourceUri
  language : Option Language := none
  content : Option Content := none
  stamp : Stamp

inductive LoadState where
  | unloaded
  | loaded
  | loadedWithErrors
  deriving DecidableEq, Repr

def LoadState.text : LoadState → String
  | unloaded => "Unloaded"
  | loaded => "Loaded"
  | loadedWithErrors => "LoadedWithErrors"

structure LoadReport where
  root : Option NodeId
  errors : List Diagnostic
  pending : Nat
  deriving Repr

def LoadReport.isSuccess (report : LoadReport) : Bool := report.errors.isEmpty

namespace Resource

def isLoaded (resource : Resource) : Bool := resource.content.isSome

def state (resource : Resource) : LoadState :=
  match resource.content with
  | none => .unloaded
  | some content => if content.hasTextErrors then .loadedWithErrors else .loaded

def tree? (resource : Resource) : Option Tree := resource.content.map (·.tree)

def pending (resource : Resource) : List Pending :=
  (resource.content.map (·.pending)).getD []

def diagnostics (resource : Resource) : List Diagnostic :=
  (resource.content.map Content.diagnostics).getD []

def errors (resource : Resource) : List Diagnostic := resource.diagnostics.filter (·.isError)

def importedNames (resource : Resource) : List QualifiedName :=
  (resource.content.map (·.importedNames)).getD []

/-- The position of an offset in the text that was loaded. -/
def position? (resource : Resource) (offset : Nat) : Option Position :=
  (resource.content.bind (·.lines)).map fun lines => lines.position offset

def site? (resource : Resource) (id : NodeId) : Option Site :=
  resource.tree?.bind fun tree => Site.at? resource.uri tree id

def root? (resource : Resource) : Option Site :=
  resource.tree?.bind fun tree => tree.root.bind fun root => Site.at? resource.uri tree root

/-- Every node that can be reached, in the order of the document. -/
def contents (resource : Resource) : List Site :=
  match resource.tree? with
  | none => []
  | some tree => tree.allNodes.filterMap fun id => Site.at? resource.uri tree id

/-- The address of a node, unless it cannot be reached. -/
def uriOf? (resource : Resource) (id : NodeId) : Option Uri :=
  (resource.tree?.bind (·.fragment? id)).map fun path => ⟨resource.uri, path⟩

def resolve? (resource : Resource) (uri : Uri) : Option Site :=
  if uri.isIn resource.uri then
    (resource.tree?.bind (·.resolve? uri.fragment)).bind resource.site?
  else none

def touch (resource : Resource) : Resource :=
  { resource with stamp := { resource.stamp with revision := resource.stamp.revision + 1 } }

def put (resource : Resource) (content : Content) : Resource :=
  { resource with content := some content }.touch

/-- Change the content where the change applies. -/
def update (resource : Resource) (change? : Content → Option Content) : Resource :=
  match resource.content.bind change? with
  | some content => resource.put content
  | none => resource

/-- Hold a finished tree, in place of all that was held. -/
def install (resource : Resource) (parsed : Parsed) (lines : Option LineIndex) :
    Resource × LoadReport :=
  let content := Content.ofParsed parsed lines
  (resource.put content,
    { root := parsed.tree.root
      errors := parsed.diagnostics.filter (·.isError)
      pending := content.pending.length })

def load (resource : Resource) (text : String) : Except Error (Resource × LoadReport) :=
  match resource.language with
  | none => .error (.noLanguage resource.uri)
  | some language => .ok (resource.install (language.parse text) (some (.ofText text)))

def unload (resource : Resource) : Resource :=
  if resource.isLoaded then { resource with content := none }.touch else resource

def demote (resource : Resource) (target : ResourceUri) : Resource :=
  resource.update fun content => content.demote? target

def relocate (resource : Resource) (relocation : Relocation) : Resource :=
  resource.update fun content => content.relocate? relocation

/-- Change the tree, let the own references follow, and tell what moved. The
change takes effect as far as it went. -/
def edit {α : Type} (resource : Resource) (change : Tree → Tree × α) :
    Except Error (Resource × α × Relocation) :=
  match resource.content with
  | none => .error (.resourceNotFound resource.uri)
  | some content =>
    let (tree, answer) := change content.tree
    let changed := { content with tree }
    let after := changed.addresses resource.uri
    let relocation := Relocation.between (content.addresses resource.uri) after
    let fresh := changed.forgetStale after
    .ok (resource.put ((fresh.relocate? relocation).getD fresh), answer, relocation)

end Resource

end Crosslink
