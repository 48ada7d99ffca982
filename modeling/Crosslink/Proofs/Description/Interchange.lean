import Crosslink.Description.Document
import Crosslink.Proofs.Json.RoundTrip
import Mathlib

/-! Descriptions that go out as documents and come back.

Every text can stand in a document, and every position that is a machine word with a
sign. What is read from a printed document is the document.
-/

set_option autoImplicit false

namespace Crosslink

namespace Json

/-! ### Texts and numbers -/

theorem isPrintable_ofText (text : String) : IsPrintable (ofText text) :=
  .string (forall_isUnit_unitsOf text)

theorem isPrintable_ofFields {fields : List (String × Json)}
    (each : ∀ field ∈ fields, IsPrintable field.2) : IsPrintable (ofFields fields) := by
  refine .object (fun field member => ?_) fun field member => ?_
  · obtain ⟨⟨name, value⟩, _, rfl⟩ := List.mem_map.mp member
    exact forall_isUnit_unitsOf name
  · obtain ⟨pair, listed, rfl⟩ := List.mem_map.mp member
    exact each pair listed

theorem isPrintable_array_map {α : Type} {write : α → Json} (printable : ∀ item, IsPrintable (write item))
    (items : List α) : IsPrintable (.array (items.map write)) := by
  refine .array fun value member => ?_
  obtain ⟨item, _, rfl⟩ := List.mem_map.mp member
  exact printable item

-- A character is no half of a surrogate pair.
theorem not_surrogate (c : Char) : isHighSurrogate c.toNat = false ∧ isLowSurrogate c.toNat = false := by
  have valid : c.toNat.isValidChar := c.valid
  unfold Nat.isValidChar at valid
  simp only [isHighSurrogate, isLowSurrogate, Bool.and_eq_false_iff, decide_eq_false_iff_not]
  omega

theorem charsOf?_map_toNat (chars : List Char) : charsOf? (chars.map Char.toNat) = some chars := by
  induction chars with
  | nil => rfl
  | cons c rest ih =>
    obtain ⟨high, low⟩ := not_surrogate c
    cases rest with
    | nil => simp [charsOf?, high, low]
    | cons next rest =>
      rw [List.map_cons] at ih
      rw [List.map_cons, List.map_cons]
      simp [charsOf?, high, low, ih]

theorem textOf?_unitsOf (text : String) : textOf? (unitsOf text) = some text := by
  rw [textOf?, unitsOf, charsOf?_map_toNat, Option.map_some, String.ofList_toList]

end Json

namespace Description.Document

open Json

theorem readText?_ofText (text : String) : readText? (ofText text) = some text :=
  textOf?_unitsOf text

/-- A whole number that fits a machine word with its sign is read from its digits. -/
theorem readInteger?_ofInt {number : Int} (low : -2 ^ 63 ≤ number) (high : number < 2 ^ 63) :
    readInteger? (ofInt number) = some number := by
  have all : (Nat.toDigits 10 number.natAbs).all Char.isDigit = true :=
    List.all_eq_true.mpr fun c => Text.isDigit_toDigits
  have size : UInt64.size / 2 = 2 ^ 63 := rfl
  rw [ofInt, toList_toString]
  split
  · rw [readInteger?]
    simp only [Nat.ofDigitChars_ten_toDigits, all, true_and, size]
    rw [if_pos (by omega)]
    congr 1
    omega
  · cases written : Nat.toDigits 10 number.natAbs with
    | nil => exact absurd written Nat.toDigits_ne_nil
    | cons c others =>
      have unsigned : c ≠ '-' := by
        rintro rfl
        exact absurd (Text.isDigit_toDigits (written ▸ List.mem_cons_self)) (by decide)
      rw [← written, readInteger?.eq_2]
      · simp only [Nat.ofDigitChars_ten_toDigits, all, true_and, size]
        rw [if_pos (by omega)]
        congr 1
        omega
      · intro digits same
        rw [written] at same
        exact unsigned (List.cons.inj same).1

/-! ### Fields and lists -/

theorem fieldsOf?_ofFields (names : List String) (fields : List (String × Json)) :
    fieldsOf? names (ofFields fields) = names.mapM (fieldNamed? fields) := by
  have read : (fields.map fun field => (unitsOf field.1, field.2)).mapM readName? = some fields := by
    induction fields with
    | nil => rfl
    | cons field rest ih => simp [List.mapM_cons, readName?, textOf?_unitsOf, ih]
  rw [ofFields, fieldsOf?, read]
  rfl

theorem readList?_map {α : Type} {read : Json → Option α} {write : α → Json} (items : List α)
    (back : ∀ item ∈ items, read (write item) = some item) :
    readList? read (.array (items.map write)) = some items := by
  show (items.map write).mapM read = some items
  induction items with
  | nil => rfl
  | cons item rest ih =>
    rw [List.forall_mem_cons] at back
    simp [List.mapM_cons, back.1, ih back.2]

theorem readExport?_toJson (item : ExportText) : readExport? item.toJson = some item := by
  have found : fieldsOf? ["name", "uri", "classifier"] item.toJson =
      some [some (.ofText item.name), some (.ofText item.uri), some (.ofText item.classifier)] := by
    rw [ExportText.toJson, fieldsOf?_ofFields]
    rfl
  simp [readExport?, found, readText?_ofText]

def LinkFits (link : LinkText) : Prop := -2 ^ 63 ≤ link.listIndex ∧ link.listIndex < 2 ^ 63

theorem readLink?_toJson {link : LinkText} (fits : LinkFits link) :
    readLink? link.toJson = some link := by
  obtain ⟨source, target, feature, listIndex, container⟩ := link
  have position : readInteger? (ofInt listIndex) = some listIndex := readInteger?_ofInt fits.1 fits.2
  have found : fieldsOf? ["source", "target", "feature", "indexInList", "container"]
      (LinkText.toJson ⟨source, target, feature, listIndex, container⟩) =
        some [some (.ofText source), some (.ofText target), some (.ofText feature),
          some (.ofInt listIndex), container.map .ofText] := by
    rw [LinkText.toJson, fieldsOf?_ofFields]
    cases container <;> rfl
  cases container with
  | none => simp [readLink?, found, readText?_ofText, position, readOptionalText?]
  | some container =>
    have place : readOptionalText? (ofText container) = some (some container) := by
      rw [ofText, readOptionalText?, ← ofText, readText?_ofText, Option.map_some]
      rintro ⟨⟩
    simp [readLink?, found, readText?_ofText, position, place]

theorem ofJson?_toJson {document : Document} (fits : ∀ link ∈ document.links, LinkFits link) :
    ofJson? document.toJson = some document := by
  obtain ⟨uri, exports, links, importedNames⟩ := document
  have found : fieldsOf? ["uri", "exported", "references", "importedNames"]
      (toJson ⟨uri, exports, links, importedNames⟩) =
        some [some (.ofText uri), some (.array (exports.map ExportText.toJson)),
          some (.array (links.map LinkText.toJson)), some (.array (importedNames.map ofText))] := by
    rw [toJson, fieldsOf?_ofFields]
    rfl
  have exported := readList?_map exports fun item _ => readExport?_toJson item
  have linked := readList?_map links fun link member => readLink?_toJson (fits link member)
  have imported := readList?_map importedNames fun name _ => readText?_ofText name
  simp [ofJson?, found, readText?_ofText, exported, linked, imported]

/-! ### Whole documents -/

theorem isPrintable_export (item : ExportText) : IsPrintable item.toJson := by
  refine isPrintable_ofFields fun field member => ?_
  simp only [List.mem_cons, List.not_mem_nil, or_false] at member
  rcases member with rfl | rfl | rfl <;> exact isPrintable_ofText _

theorem isPrintable_link (link : LinkText) : IsPrintable link.toJson := by
  refine isPrintable_ofFields fun field member => ?_
  rcases List.mem_append.mp member with always | optional
  · simp only [List.mem_cons, List.not_mem_nil, or_false] at always
    rcases always with rfl | rfl | rfl | rfl
    · exact isPrintable_ofText _
    · exact isPrintable_ofText _
    · exact isPrintable_ofText _
    · exact .int _
  · obtain ⟨container, _, rfl⟩ := List.mem_map.mp optional
    exact isPrintable_ofText container

theorem isPrintable_toJson (document : Document) : IsPrintable document.toJson := by
  refine isPrintable_ofFields fun field member => ?_
  simp only [List.mem_cons, List.not_mem_nil, or_false] at member
  rcases member with rfl | rfl | rfl | rfl
  · exact isPrintable_ofText _
  · exact isPrintable_array_map isPrintable_export _
  · exact isPrintable_array_map isPrintable_link _
  · exact isPrintable_array_map isPrintable_ofText _

theorem read?_render {document : Document} (fits : ∀ link ∈ document.links, LinkFits link) :
    read? document.render = some document := by
  rw [read?, render, Json.read?_render (isPrintable_toJson document), Option.bind_some,
    ofJson?_toJson fits]

theorem index_eq_some_iff {link : Link} {index : Nat} :
    link.index = some index ↔ (LinkText.ofLink link).listIndex = index := by
  show _ ↔ link.listIndex = index
  unfold Link.listIndex
  cases link.index with
  | none => simp
  | some own => rw [Option.some.injEq, Int.natCast_inj]

theorem index_eq_none_iff {link : Link} :
    link.index = none ↔ (LinkText.ofLink link).listIndex = -1 := by
  show _ ↔ link.listIndex = -1
  unfold Link.listIndex
  cases link.index with
  | none => simp
  | some own => simp

theorem linkFits_ofLink {link : Link} (fits : ∀ index ∈ link.index, index < 2 ^ 63) :
    LinkFits (.ofLink link) := by
  show -2 ^ 63 ≤ link.listIndex ∧ link.listIndex < 2 ^ 63
  unfold Link.listIndex
  cases position : link.index with
  | none => decide
  | some index =>
    have bound := fits index position
    dsimp only
    omega

/-- The printed form of a description is read back as the texts of the description, whatever
characters are in them: those of the resource, of the exports, of the links and of the imported
names, each in its order. A link has the position -1 exactly if its feature has one value, and no
container exactly if it lies in none. Positions have to fit a machine word with a sign. -/
theorem read?_render_ofDescription (description : Description)
    (fits : ∀ link ∈ description.links, ∀ index ∈ link.index, index < 2 ^ 63) :
    ∃ document, read? (ofDescription description).render = some document ∧
      document.uri = description.uri.text ∧
      document.exports = description.exports.map (fun item =>
        ⟨item.name.text, item.uri.text, item.classifier⟩) ∧
      List.Forall₂ (fun link (written : LinkText) =>
        written.source = link.source.text ∧ written.target = link.target.text ∧
        written.feature = link.feature ∧
        (∀ index : Nat, link.index = some index ↔ written.listIndex = index) ∧
        (link.index = none ↔ written.listIndex = -1) ∧
        written.container = link.container.map Uri.text)
        description.links document.links ∧
      document.importedNames = description.importedNames.map QualifiedName.text := by
  refine ⟨ofDescription description, read?_render ?fits, rfl, rfl, ?links, rfl⟩
  case fits =>
    intro written member
    obtain ⟨link, listed, rfl⟩ := List.mem_map.mp member
    exact linkFits_ofLink (fits link listed)
  case links =>
    refine List.forall₂_map_right_iff.mpr (List.forall₂_same.mpr fun link _ => ?_)
    refine ⟨rfl, rfl, rfl, fun index => ?_, ?_, rfl⟩
    · exact index_eq_some_iff
    · exact index_eq_none_iff

def quotedDescription : Description :=
  { uri := ⟨"a\"b\\c"⟩
    stamp := ⟨0, 0⟩
    exports := [⟨⟨["line\n", "\x01ß𝄞"]⟩, ⟨⟨"a"⟩, ⟨"/"⟩⟩, "Part"⟩]
    links := [⟨⟨⟨"a"⟩, ⟨"/"⟩⟩, ⟨⟨"b"⟩, ⟨"/"⟩⟩, "uses", some 12, some ⟨⟨"a"⟩, ⟨"/"⟩⟩⟩,
      ⟨⟨⟨"a"⟩, ⟨"/"⟩⟩, ⟨⟨"b"⟩, ⟨"/"⟩⟩, "near", none, none⟩]
    importedNames := [⟨["\t"]⟩] }

theorem quotedDescription_read : ∃ document,
    read? (ofDescription quotedDescription).render = some document ∧
      document.uri = "a\"b\\c" ∧ document.links.map (·.listIndex) = [12, -1] ∧
      document.links.map (·.container) = [some "a#/", none] := by
  have fits : ∀ link ∈ quotedDescription.links, ∀ index ∈ link.index, index < 2 ^ 63 := by
    intro link member index listed
    simp only [quotedDescription, List.mem_cons, List.not_mem_nil, or_false] at member
    rcases member with rfl | rfl
    · obtain rfl : 12 = index := Option.some.inj listed
      omega
    · cases listed
  obtain ⟨document, read, uri, _, links, _⟩ := read?_render_ofDescription quotedDescription fits
  refine ⟨document, read, uri, ?_⟩
  match document.links, links with
  | [_, _], .cons ⟨_, _, _, first, _, inner⟩ (.cons ⟨_, _, _, _, second, outer⟩ .nil) =>
    have position := (first 12).mp rfl
    have single := second.mp rfl
    exact ⟨by simp [position, single], by simp [inner, outer]; rfl⟩

end Description.Document

end Crosslink
