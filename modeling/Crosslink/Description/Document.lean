import Crosslink.Description.Basic
import Crosslink.Json.Reader

/-! Descriptions as JSON documents, for other tools to read.

A document holds texts only. It is read strictly: every field has to be there
once, save that a link may lack its container, and fields of other names are
passed over. An object may also be given as the array of its fields.
-/

set_option autoImplicit false

namespace Crosslink.Description

structure ExportText where
  name : String
  uri : String
  classifier : String
  deriving DecidableEq, Repr

structure LinkText where
  source : String
  target : String
  feature : String
  /-- The position in a list, or -1. -/
  listIndex : Int
  container : Option String
  deriving DecidableEq, Repr

structure Document where
  uri : String
  exports : List ExportText
  links : List LinkText
  importedNames : List String
  deriving DecidableEq, Repr

namespace ExportText

def ofExport (item : Export) : ExportText := ⟨item.name.text, item.uri.text, item.classifier⟩

def toJson (item : ExportText) : Json :=
  .ofFields [("name", .ofText item.name), ("uri", .ofText item.uri),
    ("classifier", .ofText item.classifier)]

end ExportText

namespace LinkText

def ofLink (link : Link) : LinkText :=
  { source := link.source.text
    target := link.target.text
    feature := link.feature
    listIndex := link.listIndex
    container := link.container.map Uri.text }

def toJson (link : LinkText) : Json :=
  .ofFields ([("source", .ofText link.source), ("target", .ofText link.target),
      ("feature", .ofText link.feature), ("indexInList", .ofInt link.listIndex)] ++
    link.container.toList.map fun container => ("container", .ofText container))

end LinkText

namespace Document

def ofDescription (description : Description) : Document :=
  { uri := description.uri.text
    exports := description.exports.map ExportText.ofExport
    links := description.links.map LinkText.ofLink
    importedNames := description.importedNames.map QualifiedName.text }

def toJson (document : Document) : Json :=
  .ofFields [("uri", .ofText document.uri),
    ("exported", .array (document.exports.map ExportText.toJson)),
    ("references", .array (document.links.map LinkText.toJson)),
    ("importedNames", .array (document.importedNames.map Json.ofText))]

def render (document : Document) : String := document.toJson.render

def readName? (field : List Nat × Json) : Option (String × Json) :=
  (Json.textOf? field.1).map fun name => (name, field.2)

/-- The value of one name among fields: none if it is missing, and no answer if
it is there twice. -/
def fieldNamed? (fields : List (String × Json)) (name : String) : Option (Option Json) :=
  match fields.filter (·.1 = name) with
  | [] => some none
  | [field] => some (some field.2)
  | _ => none

/-- The values of an object for a list of names, or the elements of an array
that has one for each. -/
def fieldsOf? (names : List String) : Json → Option (List (Option Json))
  | .object fields =>
    (fields.mapM readName?).bind fun fields => names.mapM (fieldNamed? fields)
  | .array items => if items.length = names.length then some (items.map some) else none
  | _ => none

def readText? : Json → Option String
  | .string units => Json.textOf? units
  | _ => none

def readOptionalText? : Json → Option (Option String)
  | .null => some none
  | value => (readText? value).map some

def readList? {α : Type} (readItem? : Json → Option α) : Json → Option (List α)
  | .array items => items.mapM readItem?
  | _ => none

/-- A whole number of 64 bits with a sign, written without point and exponent. -/
def readInteger? : Json → Option Int
  | .number ('-' :: digits) =>
    let size := Nat.ofDigitChars 10 digits 0
    if digits.all Char.isDigit ∧ size ≠ 0 ∧ size ≤ UInt64.size / 2 then some (-size) else none
  | .number digits =>
    let size := Nat.ofDigitChars 10 digits 0
    if digits.all Char.isDigit ∧ size < UInt64.size / 2 then some size else none
  | _ => none

def readExport? (json : Json) : Option ExportText := do
  match ← fieldsOf? ["name", "uri", "classifier"] json with
  | [some name, some uri, some classifier] =>
    return ⟨← readText? name, ← readText? uri, ← readText? classifier⟩
  | _ => none

def readLink? (json : Json) : Option LinkText := do
  match ← fieldsOf? ["source", "target", "feature", "indexInList", "container"] json with
  | [some source, some target, some feature, some listIndex, container] =>
    return ⟨← readText? source, ← readText? target, ← readText? feature,
      ← readInteger? listIndex, ← readOptionalText? (container.getD .null)⟩
  | _ => none

def ofJson? (json : Json) : Option Document := do
  match ← fieldsOf? ["uri", "exported", "references", "importedNames"] json with
  | [some uri, some exports, some links, some importedNames] =>
    return ⟨← readText? uri, ← readList? readExport? exports, ← readList? readLink? links,
      ← readList? readText? importedNames⟩
  | _ => none

/-- The document that a text spells, if it does. -/
def read? (text : String) : Option Document := (Json.read? text).bind ofJson?

end Document

end Crosslink.Description
