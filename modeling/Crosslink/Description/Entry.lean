import Crosslink.Naming

/-! What a description says about single nodes and references. -/

set_option autoImplicit false

namespace Crosslink.Description

/-- A node that other resources can reach by name. -/
structure Export where
  name : QualifiedName
  uri : Uri
  classifier : String
  deriving DecidableEq, Repr

structure Link where
  source : Uri
  target : Uri
  feature : String
  /-- The position in a feature with many values. -/
  index : Option Nat
  /-- The nearest node with a name that holds the source or is the source. -/
  container : Option Uri
  deriving DecidableEq, Repr

/-- The position as a number, which is -1 for a feature with one value. -/
def Link.listIndex (link : Link) : Int :=
  match link.index with
  | some index => index
  | none => -1

end Crosslink.Description
