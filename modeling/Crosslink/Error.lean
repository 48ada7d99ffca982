import Crosslink.Tree.Value

/-! Why an operation is refused.

Names that cannot be resolved and faults in a text are not errors: they are
kept as diagnostics of the resource they belong to.
-/

set_option autoImplicit false

namespace Crosslink

/-- The rule of trees that an operation would have broken. -/
inductive Violation where
  | unknownNode (node : NodeId)
  | unknownFeature (classifier feature : String)
  | wrongFeatureKind (feature : String) (expected found : FeatureKind)
  | cycle (child container : NodeId)
  | alreadyContained (node : NodeId)
  | attachRoot
  | notContained (node : NodeId)
  | cardinalityExceeded (feature : String)
  | notSingleValued (feature : String)
  | indexOutOfBounds (feature : String) (index size : Nat)
  | typeMismatch (feature expected found : String)
  deriving DecidableEq, Repr

def Violation.message : Violation → String
  | unknownNode node => s!"node #{node} does not exist"
  | unknownFeature classifier feature => s!"classifier '{classifier}' has no feature '{feature}'"
  | wrongFeatureKind feature expected found =>
    s!"feature '{feature}' is {found.text}, expected {expected.text}"
  | cycle child container =>
    s!"attaching #{child} under #{container} would create a containment cycle"
  | alreadyContained node => s!"node #{node} already has a container"
  | attachRoot => "the root node cannot be attached to a container"
  | notContained node => s!"node #{node} has no container"
  | cardinalityExceeded feature => s!"single-valued feature '{feature}' already holds a value"
  | notSingleValued feature => s!"feature '{feature}' is multi-valued"
  | indexOutOfBounds feature index size =>
    s!"index {index} is out of bounds for feature '{feature}' of length {size}"
  | typeMismatch feature expected found =>
    s!"feature '{feature}' expects '{expected}', got '{found}'"

/-- Why the text of a resource could not be read. -/
inductive ReadFault where
  | missing
  | isDirectory
  | notDirectory
  | nameTooLong
  | notUtf8
  | other (reason : String)
  deriving DecidableEq, Repr

def ReadFault.message : ReadFault → String
  | missing => "no such file or directory"
  | isDirectory => "is a directory"
  | notDirectory => "not a directory"
  | nameTooLong => "file name too long"
  | notUtf8 => "stream did not contain valid UTF-8"
  | other reason => reason

inductive Error where
  | invalidStructure (violation : Violation)
  | duplicateResource (uri : ResourceUri)
  | resourceNotFound (uri : ResourceUri)
  | noLanguage (uri : ResourceUri)
  | invalidUri (error : UriError)
  | unreadable (fault : ReadFault)
  deriving DecidableEq, Repr

def Error.message : Error → String
  | invalidStructure violation => s!"invalid structure: {violation.message}"
  | duplicateResource uri => s!"duplicate resource: {uri.text}"
  | resourceNotFound uri => s!"resource not found: {uri.text}"
  | noLanguage uri => s!"no language registered for resource '{uri.text}'"
  | invalidUri error => s!"invalid URI '{error.text}': {error.fault.message}"
  | unreadable fault => s!"IO error: {fault.message}"

end Crosslink
