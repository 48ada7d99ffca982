/-! The features a classifier gives to its nodes. -/

set_option autoImplicit false

namespace Crosslink

/-- The position of a feature among all features of its classifier. -/
abbrev FeatureId := Nat

/-- What the values of a feature are: scalars, child nodes or references. -/
inductive FeatureKind where
  | attr
  | containment
  | reference
  deriving DecidableEq, Repr

def FeatureKind.text : FeatureKind → String
  | attr => "Attribute"
  | containment => "Containment"
  | reference => "Reference"

/-- A feature with one value, or many, of one kind. -/
structure Feature where
  name : String
  kind : FeatureKind
  /-- The classifier that children and reference targets have to conform to. -/
  target : Option String := none
  isMany : Bool := false
  isTransient : Bool := false
  isVolatile : Bool := false
  isDerived : Bool := false
  isCross : Bool := false
  deriving DecidableEq, Repr

namespace Feature

def attr (name : String) : Feature := { name, kind := .attr }

def containment (name target : String) : Feature :=
  { name, kind := .containment, target := some target }

def reference (name target : String) : Feature :=
  { name, kind := .reference, target := some target }

def many (feature : Feature) : Feature := { feature with isMany := true }

/-- The value is also written in the text, so a local one is found again by linking. -/
def cross (feature : Feature) : Feature := { feature with isCross := true }

def isContainment (feature : Feature) : Bool := feature.kind = .containment

def isReference (feature : Feature) : Bool := feature.kind = .reference

/-- References whose values are lasting state. -/
def isIndexable (feature : Feature) : Bool :=
  feature.isReference && !feature.isTransient && !feature.isVolatile

end Feature

end Crosslink
