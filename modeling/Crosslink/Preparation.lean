import Crosslink.ResourceSet

/-! Preparing a set for linking: the resources it depends on are loaded, and the
packages of their languages are registered.
-/

set_option autoImplicit false

namespace Crosslink

/-- Languages for extensions that a set does not know. -/
abbrev LanguageSource := String → Option Language

/-- What has come of a resource. -/
inductive Preparation where
  | loaded
  /-- There is no language for it. -/
  | unsupported
  /-- It could not be loaded; the set does not hold it. -/
  | removed (error : Error)

structure PreparationReport where
  loaded : List ResourceUri := []
  /-- Resources for which there is no language. -/
  unsupported : List ResourceUri := []
  /-- Resources that could not be loaded, and why; the set does not hold them. -/
  removed : List (ResourceUri × Error) := []
  packages : Nat := 0

def PreparationReport.enter (report : PreparationReport) (uri : ResourceUri) :
    Preparation → PreparationReport
  | .loaded => { report with loaded := report.loaded ++ [uri] }
  | .unsupported => { report with unsupported := report.unsupported ++ [uri] }
  | .removed error => { report with removed := report.removed ++ [(uri, error)] }

/-- Enter packages unless their namespaces are taken, and count those that are entered. -/
def Registry.registerAll (registry : Registry) : List Package → Registry × Nat
  | [] => (registry, 0)
  | package :: rest =>
    let (all, count) := (registry.registerIfAbsent package).registerAll rest
    (all, if registry.contains package.nsUri then count else count + 1)

namespace ResourceSet

/-- See to it that there is a language for a resource; the answer says whether
there is. -/
def ensureLanguage (set : ResourceSet) (fallback : Option LanguageSource) (uri : ResourceUri) :
    ResourceSet × Bool :=
  if set.languages.supports uri then (set, true)
  else
    let found := fallback.bind fun source =>
      uri.extension?.bind fun extension =>
        (source extension).map fun language => (extension, language)
    match found with
    | none => (set, false)
    | some (extension, language) =>
      ({ set with languages := set.languages.registerExtension extension language }, true)

/-- Load a resource, and remove it if it fails. -/
def prepareOne (set : ResourceSet) (fallback : Option LanguageSource) (uri : ResourceUri) :
    ResourceSet × Preparation :=
  match set.ensureLanguage fallback uri with
  | (set, false) => (set, .unsupported)
  | (set, true) =>
    match set.ensureLoaded uri with
    | (set, .ok ()) => (set, .loaded)
    | (set, .error error) => ((set.remove uri).1, .removed error)

def prepareAll (fallback : Option LanguageSource) :
    List ResourceUri → ResourceSet → PreparationReport → ResourceSet × PreparationReport
  | [], set, report => (set, report)
  | uri :: rest, set, report =>
    let (set, preparation) := set.prepareOne fallback uri
    prepareAll fallback rest set (report.enter uri preparation)

/-- The packages of the languages of all loaded resources. -/
def packagesInUse (set : ResourceSet) : List Package :=
  (set.resources.filter Resource.isLoaded).filterMap fun resource =>
    resource.language.map (·.package)

/-- Load the given resources, remove those that fail, and register the packages
of all that are loaded unless their namespaces are taken. -/
def prepare (set : ResourceSet) (fallback : Option LanguageSource) (uris : List ResourceUri) :
    ResourceSet × PreparationReport :=
  let (set, report) := prepareAll fallback uris set {}
  let (registry, packages) := set.registry.registerAll set.packagesInUse
  ({ set with registry }, { report with packages })

end ResourceSet

end Crosslink
