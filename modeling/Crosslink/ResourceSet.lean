import Crosslink.Resource

/-! Sets of resources that refer to each other.

When a resource goes away or is read anew, references into it are opened again,
and when it is edited, references into it follow.
-/

set_option autoImplicit false

namespace Crosslink

/-- Where the texts of resources come from that are not loaded yet. -/
abbrev Loader := ResourceUri → Except Error String

structure ResourceSet where
  /-- The members, the oldest first, no two with one URI. -/
  resources : List Resource := []
  registry : Registry := {}
  languages : Languages := {}
  loader : Option Loader := none
  /-- What the loader was asked for, the latest last. -/
  requests : List ResourceUri := []
  serial : Nat := 0

namespace ResourceSet

def uris (set : ResourceSet) : List ResourceUri := set.resources.map (·.uri)

def size (set : ResourceSet) : Nat := set.resources.length

def get? (set : ResourceSet) (uri : ResourceUri) : Option Resource :=
  set.resources.find? (·.uri = uri)

def contains (set : ResourceSet) (uri : ResourceUri) : Bool := (set.get? uri).isSome

def isLoaded (set : ResourceSet) (uri : ResourceUri) : Bool :=
  (set.get? uri).any Resource.isLoaded

/-- The node of an address, if its resource is a member and is loaded. -/
def node? (set : ResourceSet) (uri : Uri) : Option Site :=
  (set.get? uri.resource).bind fun resource => resource.resolve? uri

/-- A resource of its own, which is not a member yet. -/
def make (set : ResourceSet) (uri : ResourceUri) (language : Option Language) :
    ResourceSet × Resource :=
  ({ set with serial := set.serial + 1 }, { uri, language, stamp := ⟨set.serial, 0⟩ })

def modify (set : ResourceSet) (uri : ResourceUri) (change : Resource → Resource) : ResourceSet :=
  { set with resources := set.resources.map fun r => if r.uri = uri then change r else r }

def modifyOthers (set : ResourceSet) (uri : ResourceUri) (change : Resource → Resource) :
    ResourceSet :=
  { set with resources := set.resources.map fun r => if r.uri = uri then r else change r }

/-- Open the references of all others into a resource again. -/
def demoteInto (set : ResourceSet) (uri : ResourceUri) : ResourceSet :=
  set.modifyOthers uri fun resource => resource.demote uri

def add (set : ResourceSet) (resource : Resource) : Except Error ResourceSet :=
  if set.contains resource.uri then .error (.duplicateResource resource.uri)
  else .ok { set with resources := set.resources ++ [resource] }

/-- Take a new, empty resource in; its extension tells its language. -/
def create (set : ResourceSet) (uri : ResourceUri) : Except Error ResourceSet :=
  if set.contains uri then .error (.duplicateResource uri)
  else match set.languages.for? uri with
    | none => .error (.noLanguage uri)
    | some language =>
      let (set, resource) := set.make uri (some language)
      set.add resource

def loadMember (set : ResourceSet) (uri : ResourceUri) (text : String) :
    ResourceSet × Except Error LoadReport :=
  match set.get? uri with
  | none => (set, .error (.resourceNotFound uri))
  | some resource =>
    match resource.load text with
    | .error error => (set, .error error)
    | .ok (loaded, report) => (set.modify uri fun _ => loaded, .ok report)

/-- Read a text into a resource, which is made if need be. One that was loaded
is read anew, and references into it are opened first. -/
def load (set : ResourceSet) (uri : ResourceUri) (text : String) :
    ResourceSet × Except Error LoadReport :=
  if set.contains uri then
    (if set.isLoaded uri then set.demoteInto uri else set).loadMember uri text
  else match set.create uri with
    | .error error => (set, .error error)
    | .ok set => set.loadMember uri text

def remove (set : ResourceSet) (uri : ResourceUri) : ResourceSet × Option Resource :=
  match set.get? uri with
  | none => (set, none)
  | some resource =>
    let left := { set with resources := set.resources.filter (·.uri ≠ uri) }
    (left.demoteInto uri, some resource)

/-- Unload a member, and open the references into it. The answer says whether
it is a member. -/
def unload (set : ResourceSet) (uri : ResourceUri) : ResourceSet × Bool :=
  if set.contains uri then ((set.modify uri Resource.unload).demoteInto uri, true)
  else (set, false)

/-- Change the tree of a member, and let the references of all members follow. -/
def edit {α : Type} (set : ResourceSet) (uri : ResourceUri) (change : Tree → Tree × α) :
    ResourceSet × Except Error α :=
  match set.get? uri with
  | none => (set, .error (.resourceNotFound uri))
  | some resource =>
    match resource.edit change with
    | .error error => (set, .error error)
    | .ok (edited, answer, relocation) =>
      let changed := set.modify uri fun _ => edited
      (if relocation.isEmpty then changed
        else changed.modifyOthers uri fun other => other.relocate relocation, .ok answer)

/-- Ask the loader for a text, and remember that it was asked. -/
def request (set : ResourceSet) (uri : ResourceUri) : ResourceSet × Except Error String :=
  match set.loader with
  | none => (set, .error (.resourceNotFound uri))
  | some loader => ({ set with requests := set.requests ++ [uri] }, loader uri)

/-- Load a resource through the loader, unless it is loaded. -/
def ensureLoaded (set : ResourceSet) (uri : ResourceUri) : ResourceSet × Except Error Unit :=
  if set.isLoaded uri then (set, .ok ())
  else match set.request uri with
    | (set, .error error) => (set, .error error)
    | (set, .ok text) =>
      let (set, result) := set.load uri text
      (set, result.map fun _ => ())

/-- The node of an address, whose resource is loaded if need be. -/
def fetch (set : ResourceSet) (uri : Uri) : ResourceSet × Option Site :=
  match set.ensureLoaded uri.resource with
  | (set, .error _) => (set, none)
  | (set, .ok ()) => (set, set.node? uri)

end ResourceSet

end Crosslink
