import Crosslink.Text.Split
import Crosslink.Text.Decimal
import Crosslink.Uri.Fault

/-! Containment paths from the root of a resource to one of its nodes.

The root is `/`. Every further step is `/@feature` through a feature with one
value and `/@feature.index` through a feature with many, so that the first
element of the list `types` of the root is `//@types.0`.
-/

set_option autoImplicit false

namespace Crosslink

/-- One step down: the feature, and the position in it if it holds many. -/
structure Step where
  feature : String
  index : Option Nat
  deriving DecidableEq, Repr

/-- A containment path in its written form, by which paths are compared. -/
structure Fragment where
  text : String
  deriving DecidableEq, Repr

namespace Step

/-- A step as it is written behind its slash. -/
def text (step : Step) : String :=
  match step.index with
  | some index => s!"@{step.feature}.{index}"
  | none => s!"@{step.feature}"

def read (written : List Char) : Except UriFault Step :=
  match written with
  | '@' :: body =>
    match Text.splitFirst '.' body with
    | some (feature, digits) =>
      match Text.readIndex digits with
      | none => .error (.invalidIndex (String.ofList written))
      | some index =>
        if feature = [] then .error (.unnamedStep (String.ofList written))
        else .ok ⟨String.ofList feature, some index⟩
    | none =>
      if body = [] then .error (.unnamedStep (String.ofList written))
      else .ok ⟨String.ofList body, none⟩
  | _ => .error (.unmarkedStep (String.ofList written))

end Step

namespace Fragment

def root : Fragment := ⟨"/"⟩

def isRoot (fragment : Fragment) : Bool := fragment = root

def child (fragment : Fragment) (feature : String) (index : Option Nat) : Fragment :=
  ⟨fragment.text ++ "/" ++ (Step.mk feature index).text⟩

/-- The steps from the root down, or the fault of the first one that has one. -/
def steps (fragment : Fragment) : Except UriFault (List Step) :=
  match fragment.text.toList with
  | ['/'] => .ok []
  | '/' :: '/' :: rest => (rest.splitOn '/').mapM Step.read
  | '/' :: _ => .error .missingFirstStep
  | _ => .error .missingRoot

/-- Accept a text whose steps can be read. -/
def parse (text : String) : Except UriError Fragment :=
  match (Fragment.mk text).steps with
  | .ok _ => .ok ⟨text⟩
  | .error fault => .error ⟨text, fault⟩

end Fragment

end Crosslink
