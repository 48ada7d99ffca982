import Crosslink.QualifiedName
import Crosslink.Text.Lines

/-! The elements of the types language: packages, and types inside and outside of them. -/

set_option autoImplicit false

namespace Crosslink.Types

/-- A declaration as it is written. What is missing from a faulty one is left out. -/
inductive Element where
  | package (name : Option String) (elements : List Element) (range : TextRange)
  | type (name : Option String) (extended : Option QualifiedName)
      (implemented : List QualifiedName) (range : TextRange)
  deriving Repr

end Crosslink.Types
