/-! What can be wrong with the text of an address. -/

set_option autoImplicit false

namespace Crosslink

/-- The first thing that keeps a text from being an address. -/
inductive UriFault where
  | missingSeparator
  | missingResource
  | missingRoot
  | missingFirstStep
  | unmarkedStep (step : String)
  | invalidIndex (step : String)
  | unnamedStep (step : String)
  deriving DecidableEq, Repr

def UriFault.message : UriFault → String
  | missingSeparator => "missing '#' fragment separator"
  | missingResource => "missing resource part"
  | missingRoot => "fragment must start with '/'"
  | missingFirstStep => "expected '/' before the first step"
  | unmarkedStep step => s!"step '{step}' must start with '@'"
  | invalidIndex step => s!"step '{step}' has an invalid index"
  | unnamedStep step => s!"step '{step}' names no feature"

/-- A text that is no address, and why. -/
structure UriError where
  text : String
  fault : UriFault
  deriving DecidableEq, Repr

end Crosslink
