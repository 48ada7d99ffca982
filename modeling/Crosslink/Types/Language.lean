import Crosslink.Language
import Crosslink.Types.Lexer
import Crosslink.Types.Metamodel
import Crosslink.Types.Reading

/-! The types language: packages of types that extend and implement each other.

The names behind `extends` and `implements` become open references; binding
them is the business of linking.
-/

set_option autoImplicit false

namespace Crosslink.Types

/-- A tree under construction with the open references entered so far. -/
structure Draft where
  tree : Tree
  pending : List Pending

namespace Draft

/-- A new node under a container, at the end of its elements. -/
def add (draft : Draft) (container : NodeId) (classifier : Classifier) :
    Except Violation (Draft × NodeId) :=
  let (tree, id) := draft.tree.create classifier
  (tree.attach container "elements" none id).map fun tree => ({ draft with tree }, id)

def setName (draft : Draft) (id : NodeId) : Option String → Except Violation Draft
  | none => .ok draft
  | some name =>
    (draft.tree.setAttribute id "name" (.string name)).map fun tree => { draft with tree }

def addName (draft : Draft) (id : NodeId) (feature : String) (name : QualifiedName) :
    Except Violation Draft :=
  (draft.tree.addProxy id feature (.name name)).map fun (tree, pending) =>
    ⟨tree, draft.pending ++ [pending]⟩

def setRange (draft : Draft) (id : NodeId) (range : TextRange) : Draft :=
  { draft with tree := draft.tree.setRange id range }

end Draft

mutual

/-- Enter an element and all it contains below a container. -/
def enter (draft : Draft) (container : NodeId) : Element → Except Violation Draft
  | .package name elements range => do
    let (draft, id) ← draft.add container packageClass
    let draft ← draft.setName id name
    let draft ← enterAll draft id elements
    return draft.setRange id range
  | .type name extended implemented range => do
    let (draft, id) ← draft.add container typeClass
    let draft ← draft.setName id name
    let draft ← extended.toList.foldlM (fun draft name => draft.addName id "extends" name) draft
    let draft ← implemented.foldlM (fun draft name => draft.addName id "implements" name) draft
    return draft.setRange id range

def enterAll (draft : Draft) (container : NodeId) : List Element → Except Violation Draft
  | [] => .ok draft
  | element :: rest => do
    let draft ← enter draft container element
    enterAll draft container rest

end

/-- The tree of the elements of a text of `size` bytes. -/
def build (size : Nat) (elements : List Element) : Except Violation Draft := do
  let (tree, root) := Tree.empty.create modelClass
  let tree ← tree.setRoot root
  enterAll ⟨tree.setRange root ⟨0, size⟩, []⟩ root elements

/-- The tree of a text with its open references, and the faults of the text. -/
def parse (text : String) : Parsed :=
  let size := text.utf8ByteSize
  let read := readModel ((tokenize text).filter fun token => !token.kind.isTrivia)
  let faults := read.faults.map (·.diagnostic size)
  match build size read.value with
  | .ok draft => { tree := draft.tree, pending := draft.pending, diagnostics := faults }
  | .error violation =>
    let message := (Error.invalidStructure violation).message
    { diagnostics := faults ++
        [.ofSyntax s!"cannot build node: {message}" ⟨0, 0⟩] }

def language : Language := { package, extensions := ["types"], parse }

end Crosslink.Types
