import Crosslink.Metamodel.Feature

/-! Classifiers: a name, direct supers, and the features of every instance. -/

set_option autoImplicit false

namespace Crosslink

structure Classifier where
  name : String
  supers : List Classifier
  /-- Inherited features first, then those the classifier declares. -/
  features : List Feature
  deriving Repr, Inhabited

namespace Classifier

/-- The features of the supers in order; of two with one name the first is inherited. -/
def inherit : List Feature → List Feature → List Feature
  | features, [] => features
  | features, next :: rest =>
    if features.any (·.name = next.name) then inherit features rest
    else inherit (features ++ [next]) rest

/-- A classifier below `supers` that declares the features `declared`. -/
def build (name : String) (supers : List Classifier) (declared : List Feature) : Classifier :=
  { name, supers, features := inherit [] (supers.flatMap (·.features)) ++ declared }

def feature? (classifier : Classifier) (id : FeatureId) : Option Feature :=
  classifier.features[id]?

def featureNamed? (classifier : Classifier) (name : String) : Option (FeatureId × Feature) :=
  (classifier.features.findIdx? (·.name = name)).bind fun id =>
    (classifier.feature? id).map fun feature => (id, feature)

mutual

/-- The classifier or one above it has the name. -/
def conformsTo (name : String) : Classifier → Bool
  | ⟨own, supers, _⟩ => own = name || anyConformsTo name supers

def anyConformsTo (name : String) : List Classifier → Bool
  | [] => false
  | classifier :: rest => classifier.conformsTo name || anyConformsTo name rest

end

mutual

/-- The same name, the same features, and equal supers in the same order. -/
def same : Classifier → Classifier → Bool
  | ⟨name, supers, features⟩, ⟨otherName, otherSupers, otherFeatures⟩ =>
    name = otherName && allSame supers otherSupers && features = otherFeatures

def allSame : List Classifier → List Classifier → Bool
  | [], [] => true
  | first :: rest, other :: others => first.same other && allSame rest others
  | _, _ => false

end

/-- The target of a feature admits the classifier; no target admits every one. -/
def fits (classifier : Classifier) (feature : Feature) : Bool :=
  feature.target.all fun target => classifier.conformsTo target

end Classifier

end Crosslink
