import Crosslink.Metamodel.Classifier
import Crosslink.OrderedMap

/-! Packages of classifiers, and the registry of the packages in use. -/

set_option autoImplicit false

namespace Crosslink

/-- Classifiers by name under one namespace. -/
structure Package where
  nsUri : String
  name : String
  classifiers : OrderedMap String Classifier := {}

namespace Package

def add (package : Package) (classifier : Classifier) : Package :=
  { package with classifiers := package.classifiers.insert classifier.name classifier }

def ofList (nsUri name : String) (classifiers : List Classifier) : Package :=
  classifiers.foldl add { nsUri, name }

end Package

/-- Packages by namespace, in the order in which the namespaces first came. -/
structure Registry where
  packages : OrderedMap String Package := {}

namespace Registry

def contains (registry : Registry) (nsUri : String) : Bool := registry.packages.contains nsUri

def get? (registry : Registry) (nsUri : String) : Option Package := registry.packages.get? nsUri

/-- Enter a package; one of the same namespace is replaced. -/
def register (registry : Registry) (package : Package) : Registry :=
  ⟨registry.packages.insert package.nsUri package⟩

/-- Enter a package unless its namespace is taken. -/
def registerIfAbsent (registry : Registry) (package : Package) : Registry :=
  if registry.contains package.nsUri then registry else registry.register package

/-- The first classifier of a name, in the order of the packages. -/
def classifier? (registry : Registry) (name : String) : Option Classifier :=
  registry.packages.values.findSome? fun package => package.classifiers.get? name

end Registry

end Crosslink
