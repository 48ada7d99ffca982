import Crosslink.Metamodel.Package

/-! The classifiers of the types language. -/

set_option autoImplicit false

namespace Crosslink.Types

def elementClass : Classifier := .build "Element" [] [.attr "name"]

def modelClass : Classifier := .build "Model" [] [(Feature.containment "elements" "Element").many]

def packageClass : Classifier :=
  .build "Package" [elementClass] [(Feature.containment "elements" "Element").many]

def typeClass : Classifier :=
  .build "Type" [elementClass]
    [(Feature.reference "extends" "Type").cross, (Feature.reference "implements" "Type").many.cross]

def namespaceUri : String := "http://loom/types"

def classes : List Classifier := [modelClass, elementClass, packageClass, typeClass]

def package : Package := .ofList namespaceUri "types" classes

end Crosslink.Types
