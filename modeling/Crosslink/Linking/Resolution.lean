import Crosslink.Linking.Scope

/-! Resolving one open reference.

It is bound to the first candidate that exists and may be a value of its
feature; that there were others is worth a warning. A reference without such a
candidate stays open, and its slot carries an error.
-/

set_option autoImplicit false

namespace Crosslink.Linking

def wanted (feature : Feature) : String := feature.target.getD "object"

/-- A diagnostic about the references of a node. -/
def diagnosticAt (site : Site) (severity : Severity) (code message : String) : Diagnostic :=
  { severity, kind := .linking, code := some code, message, source := site.uri?,
    range := site.range? }

def unresolvedError (site : Site) (feature : Feature) (proxy : Proxy) : Diagnostic :=
  diagnosticAt site .error Diagnostic.unresolvedCode
    s!"couldn't resolve reference to {wanted feature} '{proxy.text}'"

/-- Several candidates were found, and one of them was taken. -/
def ambiguityWarning (site : Site) (feature : Feature) (proxy : Proxy) (count : Nat)
    (target : Uri) : Diagnostic :=
  let bound := s!"{count} candidates, bound to '{target.text}'"
  diagnosticAt site .warning Diagnostic.ambiguousCode
    s!"ambiguous reference to {wanted feature} '{proxy.text}': {bound}"

/-- The node that holds an open reference, and the feature it is a value of. -/
def context? (set : ResourceSet) (home : ResourceUri) (pending : Pending) :
    Option (Site × Feature) :=
  ((set.get? home).bind (·.site? pending.source)).bind fun site =>
    (site.classifier?.bind (·.feature? pending.feature)).map fun feature => (site, feature)

structure Resolution where
  set : ResourceSet
  isBound : Bool := false
  isLookup : Bool := false
  /-- The resource that was loaded for it. -/
  loaded : Option ResourceUri := none

/-- The addresses a proxy may stand for: the target of a known address is loaded
if need be, and a name is noted and looked up. -/
def candidates (scope : Scope) (set : ResourceSet) (home : ResourceUri) (site : Site)
    (feature : Feature) : Proxy → Resolution × List Uri
  | .uri target =>
    let (after, result) := set.ensureLoaded target.resource
    let isNew := !set.isLoaded target.resource && result.isOk
    ({ set := after, loaded := if isNew then some target.resource else none }, [target])
  | .name name =>
    let noted := set.modify home fun resource => resource.update fun c => c.importName? name
    ({ set := noted, isLookup := true }, scope noted site feature name)

/-- The candidate exists and may be a value of the feature. -/
def conforms (set : ResourceSet) (feature : Feature) (candidate : Uri) : Bool :=
  (set.node? candidate).any fun site => site.fits feature

def bindAt (set : ResourceSet) (home : ResourceUri) (pending : Pending) (target : Uri)
    (warning : Option Diagnostic) : ResourceSet :=
  set.modify home fun resource => resource.update fun c => c.bind? pending target warning

def hasSlot (set : ResourceSet) (home : ResourceUri) (slot : SlotKey) : Bool :=
  (((set.get? home).bind Resource.tree?).bind (·.referenceAt? slot)).isSome

/-- Note in its resource that the reference stays open. -/
def reportAt (set : ResourceSet) (home : ResourceUri) (slot : SlotKey)
    (diagnostic : Diagnostic) : ResourceSet :=
  set.modify home fun resource =>
    { resource with content := resource.content.map fun c => c.report slot diagnostic }

def resolve (scope : Scope) (set : ResourceSet) (home : ResourceUri) (pending : Pending) :
    Resolution :=
  match context? set home pending with
  | none => { set }
  | some (site, feature) =>
    let (found, uris) := candidates scope set home site feature pending.proxy
    match uris.filter (conforms found.set feature) with
    | [] =>
      { found with
        set := reportAt found.set home pending.slot (unresolvedError site feature pending.proxy) }
    | target :: others =>
      let warning :=
        if others.isEmpty then none
        else some (ambiguityWarning site feature pending.proxy (others.length + 1) target)
      { found with
        set := bindAt found.set home pending target warning
        isBound := hasSlot found.set home pending.slot }

end Crosslink.Linking
