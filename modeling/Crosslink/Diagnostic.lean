import Crosslink.Text.Lines
import Crosslink.Uri

/-! What is wrong with a text or with its references, kept beside the result. -/

set_option autoImplicit false

namespace Crosslink

inductive Severity where
  | error
  | warning
  | info
  | hint
  deriving DecidableEq, Repr

/-- The number by which editors know a severity. -/
def Severity.level : Severity → Nat
  | error => 1
  | warning => 2
  | info => 3
  | hint => 4

inductive DiagnosticKind where
  | syntactic
  | linking
  deriving DecidableEq, Repr

structure Diagnostic where
  severity : Severity
  kind : DiagnosticKind
  code : Option String := none
  message : String
  source : Option Uri := none
  range : Option TextRange := none
  deriving DecidableEq, Repr

namespace Diagnostic

def unresolvedCode : String := "E0001"

def ambiguousCode : String := "E0002"

def syntaxCode : String := "S0001"

def isError (diagnostic : Diagnostic) : Bool := diagnostic.severity = .error

/-- The message behind its code. -/
def text (diagnostic : Diagnostic) : String :=
  match diagnostic.code with
  | some code => s!"[{code}] {diagnostic.message}"
  | none => diagnostic.message

def ofSyntax (message : String) (range : TextRange) : Diagnostic :=
  { severity := .error, kind := .syntactic, code := some syntaxCode, message, range := some range }

end Diagnostic

end Crosslink
