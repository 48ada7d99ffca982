import Crosslink.Diagnostic
import Crosslink.Metamodel.Package
import Crosslink.OrderedMap
import Crosslink.Tree.Features

/-! Languages: how a text becomes a tree, and which files they are for. -/

set_option autoImplicit false

namespace Crosslink

structure Parsed where
  tree : Tree := {}
  /-- The references written in the text, in any order. -/
  pending : List Pending := []
  diagnostics : List Diagnostic := []

def Parsed.hasErrors (parsed : Parsed) : Bool := parsed.diagnostics.any Diagnostic.isError

structure Language where
  /-- The classifiers that the nodes are instances of. -/
  package : Package
  /-- The extensions of its files, without the dot. -/
  extensions : List String
  /-- Every text has a tree; what is wrong with it is among the diagnostics. -/
  parse : String → Parsed

structure Languages where
  byExtension : OrderedMap String Language := {}

namespace Languages

def extensions (languages : Languages) : List String := languages.byExtension.keys

/-- Use a language for an extension; dots in front of the extension do not count. -/
def registerExtension (languages : Languages) (extension : String) (language : Language) :
    Languages :=
  ⟨languages.byExtension.insert
    (String.ofList (extension.toList.dropWhile (· = '.'))) language⟩

def register (languages : Languages) (language : Language) : Languages :=
  language.extensions.foldl (·.registerExtension · language) languages

def forExtension? (languages : Languages) (extension : String) : Option Language :=
  languages.byExtension.get? extension

def for? (languages : Languages) (uri : ResourceUri) : Option Language :=
  uri.extension?.bind languages.forExtension?

def supports (languages : Languages) (uri : ResourceUri) : Bool := (languages.for? uri).isSome

end Languages

end Crosslink
