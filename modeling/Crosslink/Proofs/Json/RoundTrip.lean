import Crosslink.Proofs.Json.Tokens
import Mathlib

/-! JSON values, printed and read again.

The printer puts every element on a line of its own, and the reader passes over
line ends and blanks. How many parts of a value have to be opened is bounded by the
length of its text.
-/

set_option autoImplicit false

namespace Crosslink.Json

variable {value : Json} {text rest : List Char} {level bound : Nat}

/-- Values that can be printed as texts: their strings consist of code points, and their numbers are
whole. -/
inductive IsPrintable : Json → Prop where
  | null : IsPrintable .null
  | bool (truth : Bool) : IsPrintable (.bool truth)
  | int (number : Int) : IsPrintable (ofInt number)
  | string {units : List Nat} (proper : ∀ unit ∈ units, IsUnit unit) : IsPrintable (.string units)
  | array {items : List Json} (each : ∀ item ∈ items, IsPrintable item) : IsPrintable (.array items)
  | object {fields : List (List Nat × Json)} (names : ∀ field ∈ fields, ∀ unit ∈ field.1, IsUnit unit)
      (each : ∀ field ∈ fields, IsPrintable field.2) : IsPrintable (.object fields)

def Reads (value : Json) : Prop :=
  ∀ level bound rest, EndsNumber rest → (renderAt level value).length ≤ bound →
    readValueWithin bound (renderAt level value ++ rest) = some (value, rest)

/-! ### Blanks -/

theorem skipBlanks_cons {c : Char} (visible : isJsonBlank c = false) (text : List Char) :
    skipBlanks (c :: text) = c :: text :=
  List.dropWhile_cons_of_neg (by simp [visible])

theorem skipBlanks_blank (text : List Char) : skipBlanks (' ' :: text) = skipBlanks text :=
  List.dropWhile_cons_of_pos rfl

theorem skipBlanks_newline (level : Nat) (text : List Char) :
    skipBlanks (newline level ++ text) = skipBlanks text := by
  refine List.dropWhile_append_of_pos fun c member => ?_
  rcases List.mem_cons.mp member with rfl | blank
  · rfl
  · rw [List.eq_of_mem_replicate blank]
    rfl

theorem readValueWithin_of_skipBlanks {other : List Char} (same : skipBlanks text = skipBlanks other) :
    readValueWithin bound text = readValueWithin bound other := by
  cases bound with
  | zero => rfl
  | succ bound => rw [readValueWithin, readValueWithin, same]

theorem readItemsWithin_newline :
    readItemsWithin bound (newline level ++ text) = readItemsWithin bound text := by
  cases bound with
  | zero => rfl
  | succ bound =>
    rw [readItemsWithin, readItemsWithin,
      readValueWithin_of_skipBlanks (skipBlanks_newline level text)]

theorem readFieldsWithin_newline :
    readFieldsWithin bound (newline level ++ text) = readFieldsWithin bound text := by
  cases bound with
  | zero => rfl
  | succ bound => rw [readFieldsWithin, readFieldsWithin, skipBlanks_newline]

theorem endsNumber_cons {c : Char} (other : c.isDigit = false ∧ c ≠ '.' ∧ c ≠ 'e' ∧ c ≠ 'E') :
    EndsNumber (c :: rest) := by
  rintro _ ⟨⟩
  exact other

theorem endsNumber_newline : EndsNumber (newline level ++ rest) :=
  endsNumber_cons (by decide)

/-! ### Single values -/

/-- The text of a value starts with neither a blank nor a closing bracket. -/
theorem renderAt_starts (printable : IsPrintable value) (level : Nat) :
    ∃ c text, renderAt level value = c :: text ∧ isJsonBlank c = false ∧ c ≠ ']' := by
  cases printable with
  | null => exact ⟨_, _, by rw [renderAt], by decide, by decide⟩
  | bool truth => cases truth <;> exact ⟨_, _, by rw [renderAt], by decide, by decide⟩
  | int number =>
    obtain ⟨c, text, written, first⟩ := toString_starts number
    refine ⟨c, text, by rw [ofInt, renderAt, written], ?_, ne_of_starts first (by decide)⟩
    simp only [isJsonBlank, Bool.or_eq_false_iff, decide_eq_false_iff_not]
    exact ⟨⟨⟨ne_of_starts first (by decide), ne_of_starts first (by decide)⟩,
      ne_of_starts first (by decide)⟩, ne_of_starts first (by decide)⟩
  | string => exact ⟨_, _, by rw [renderAt, renderString, List.cons_append], by decide, by decide⟩
  | @array items _ =>
    cases items <;> simp only [renderAt, List.cons_append] <;> exact ⟨_, _, rfl, by decide, by decide⟩
  | @object fields _ _ =>
    cases fields <;> simp only [renderAt, List.cons_append] <;> exact ⟨_, _, rfl, by decide, by decide⟩

theorem reads_null : Reads .null := by
  intro level bound rest _ enough
  rw [renderAt] at enough ⊢
  cases bound with
  | zero => exact absurd enough (by decide)
  | succ bound => rfl

theorem reads_bool (truth : Bool) : Reads (.bool truth) := by
  intro level bound rest _ enough
  cases truth <;> rw [renderAt] at enough ⊢ <;> cases bound
  · exact absurd enough (by decide)
  · rfl
  · exact absurd enough (by decide)
  · rfl

theorem reads_ofInt (number : Int) : Reads (ofInt number) := by
  intro level bound rest ended enough
  obtain ⟨c, text, written, first⟩ := toString_starts number
  obtain ⟨_, _, start, visible, _⟩ := renderAt_starts (.int number) level
  have read := readNumber?_ofInt number ended
  rw [ofInt, renderAt, written] at start enough
  cases start
  rw [ofInt, renderAt]
  rw [ofInt, written, List.cons_append] at read
  rw [written, List.cons_append]
  cases bound with
  | zero => exact absurd enough (by simp)
  | succ bound =>
    rw [readValueWithin, skipBlanks_cons visible]
    split
    · next same => exact absurd (List.cons.inj same).1 (ne_of_starts first (by decide))
    · next same => exact absurd (List.cons.inj same).1 (ne_of_starts first (by decide))
    · next same => exact absurd (List.cons.inj same).1 (ne_of_starts first (by decide))
    · next same => exact absurd (List.cons.inj same).1 (ne_of_starts first (by decide))
    · next same => exact absurd (List.cons.inj same).1 (ne_of_starts first (by decide))
    · next same => exact absurd (List.cons.inj same).1 (ne_of_starts first (by decide))
    · exact read

theorem reads_string {units : List Nat} (proper : ∀ unit ∈ units, IsUnit unit) :
    Reads (.string units) := by
  intro level bound rest _ enough
  rw [renderAt, renderString] at enough ⊢
  cases bound with
  | zero => exact absurd enough (by simp)
  | succ bound =>
    have read : readString? (units.flatMap renderUnit ++ '"' :: rest) = some (units, rest) :=
      readString?_render proper
    rw [List.append_assoc, List.cons_append, readValueWithin, skipBlanks_cons rfl]
    simp only [List.singleton_append, read, Option.map_some]

/-! ### Arrays and objects -/

theorem newline_length : 0 < (newline level).length := Nat.succ_pos _

theorem endsNumber_renderItems {items : List Json} {outer : Nat} :
    EndsNumber (renderItems level items ++ (newline outer ++ ']' :: rest)) := by
  cases items with
  | nil =>
    rw [renderItems, List.nil_append]
    exact endsNumber_newline
  | cons item items =>
    rw [renderItems]
    exact endsNumber_cons (by decide)

theorem readValueWithin_array {c : Char} {other : List Char} (opened : skipBlanks text = c :: other)
    (unclosed : c ≠ ']') : readValueWithin (bound + 1) ('[' :: text) =
      (readItemsWithin bound (c :: other)).map fun (items, rest) => (.array items, rest) := by
  rw [readValueWithin, skipBlanks_cons rfl]
  simp only [opened]
  split
  · next same => exact absurd (List.cons.inj same).1 unclosed
  · rfl

/-- The elements of an array are read one after another, up to the closing bracket. -/
theorem readItemsWithin_render {item : Json} {items : List Json} {outer : Nat}
    (each : ∀ value ∈ item :: items, Reads value)
    (enough : (renderAt level item).length + (renderItems level items).length < bound) :
    readItemsWithin bound (renderAt level item ++
        (renderItems level items ++ (newline outer ++ ']' :: rest))) = some (item :: items, rest) := by
  induction items generalizing item bound with
  | nil =>
    cases bound with
    | zero => omega
    | succ bound =>
      rw [readItemsWithin, each item List.mem_cons_self level bound _ endsNumber_renderItems (by omega)]
      dsimp only
      rw [renderItems, List.nil_append, skipBlanks_newline, skipBlanks_cons rfl]
      rfl
  | cons next items ih =>
    rw [List.forall_mem_cons] at each
    cases bound with
    | zero => omega
    | succ bound =>
      rw [readItemsWithin, each.1 level bound _ endsNumber_renderItems (by omega)]
      dsimp only
      have positive : 0 < (newline level).length := newline_length
      rw [renderItems] at enough ⊢
      simp only [List.length_append, List.length_cons] at enough
      simp only [List.cons_append, List.append_assoc]
      rw [skipBlanks_cons rfl]
      show (readItemsWithin bound _).map _ = _
      rw [readItemsWithin_newline, ih each.2 (by omega), Option.map_some]

theorem reads_array {items : List Json} (printable : ∀ item ∈ items, IsPrintable item)
    (each : ∀ item ∈ items, Reads item) : Reads (.array items) := by
  intro level bound rest _ enough
  cases bound with
  | zero =>
    obtain ⟨_, _, start, _⟩ := renderAt_starts (.array printable) level
    rw [start] at enough
    exact absurd enough (by simp)
  | succ bound =>
    cases items with
    | nil =>
      rw [renderAt]
      rfl
    | cons item items =>
      obtain ⟨c, text, start, visible, unclosed⟩ :=
        renderAt_starts (printable item List.mem_cons_self) (level + 1)
      have positive : 0 < (newline level).length := newline_length
      rw [renderAt] at enough ⊢
      simp only [List.length_append, List.length_cons] at enough
      have read : readItemsWithin bound (renderAt (level + 1) item ++
          (renderItems (level + 1) items ++ (newline level ++ ']' :: rest))) =
            some (item :: items, rest) := readItemsWithin_render each (by omega)
      simp only [List.cons_append, List.append_assoc, List.nil_append]
      rw [start, List.cons_append] at read ⊢
      have opened := skipBlanks_newline (level + 1) (c :: (text ++
        (renderItems (level + 1) items ++ (newline level ++ ']' :: rest))))
      rw [skipBlanks_cons visible] at opened
      rw [readValueWithin_array opened unclosed, read, Option.map_some]

theorem endsNumber_renderFields {fields : List (List Nat × Json)} {outer : Nat} :
    EndsNumber (renderFields level fields ++ (newline outer ++ '\x7d' :: rest)) := by
  cases fields with
  | nil =>
    rw [renderFields, List.nil_append]
    exact endsNumber_newline
  | cons field fields =>
    rw [renderFields]
    exact endsNumber_cons (by decide)

def fieldsFrom (bound : Nat) (field : List Nat × Json) (rest : List Char) :
    Option (List (List Nat × Json) × List Char) :=
  match skipBlanks rest with
  | '\x7d' :: rest => some ([field], rest)
  | ',' :: rest => (readFieldsWithin bound rest).map fun (fields, rest) => (field :: fields, rest)
  | _ => none

/-- A field is its name, a colon and its value, and the reader goes on behind it. -/
theorem readFieldsWithin_field {name : List Nat} (proper : ∀ unit ∈ name, IsUnit unit)
    (reads : Reads value) (ended : EndsNumber rest) (enough : (renderAt level value).length ≤ bound) :
    readFieldsWithin (bound + 1) (renderString name ++ ':' :: ' ' :: (renderAt level value ++ rest)) =
      fieldsFrom bound (name, value) rest := by
  have key : readString? (name.flatMap renderUnit ++
      '"' :: ':' :: ' ' :: (renderAt level value ++ rest)) =
        some (name, ':' :: ' ' :: (renderAt level value ++ rest)) := readString?_render proper
  have colon := skipBlanks_cons rfl (' ' :: (renderAt level value ++ rest)) (c := ':')
  have inner := reads level bound rest ended enough
  rw [← readValueWithin_of_skipBlanks (skipBlanks_blank _)] at inner
  rw [readFieldsWithin, renderString, List.append_assoc, List.cons_append, skipBlanks_cons rfl,
    List.singleton_append]
  simp only [key, colon, inner]
  rfl

/-- The fields of an object are read one after another, up to the closing brace. -/
theorem readFieldsWithin_render {name : List Nat} {fields : List (List Nat × Json)} {outer : Nat}
    (names : ∀ field ∈ (name, value) :: fields, ∀ unit ∈ field.1, IsUnit unit)
    (each : ∀ field ∈ (name, value) :: fields, Reads field.2)
    (enough : (renderAt level value).length + (renderFields level fields).length < bound) :
    readFieldsWithin bound (renderString name ++ ':' :: ' ' :: (renderAt level value ++
        (renderFields level fields ++ (newline outer ++ '\x7d' :: rest)))) =
      some ((name, value) :: fields, rest) := by
  induction fields generalizing name value bound with
  | nil =>
    rw [List.forall_mem_cons] at names each
    cases bound with
    | zero => omega
    | succ bound =>
      have room : (renderAt level value).length ≤ bound := by omega
      rw [readFieldsWithin_field names.1 each.1 endsNumber_renderFields room, fieldsFrom, renderFields,
        List.nil_append, skipBlanks_newline, skipBlanks_cons rfl]
      rfl
  | cons next fields ih =>
    obtain ⟨nextName, nextValue⟩ := next
    rw [List.forall_mem_cons] at names each
    cases bound with
    | zero => omega
    | succ bound =>
      have positive : 0 < (newline level).length := newline_length
      have room : (renderAt level value).length ≤ bound := by omega
      rw [readFieldsWithin_field names.1 each.1 endsNumber_renderFields room, fieldsFrom]
      rw [renderFields] at enough ⊢
      simp only [List.length_append, List.length_cons] at enough
      simp only [List.cons_append, List.append_assoc, List.nil_append]
      rw [skipBlanks_cons rfl]
      show (readFieldsWithin bound _).map _ = _
      rw [readFieldsWithin_newline, ih names.2 each.2 (by omega), Option.map_some]

theorem readValueWithin_object (opened : skipBlanks text = '"' :: rest) :
    readValueWithin (bound + 1) ('\x7b' :: text) =
      (readFieldsWithin bound ('"' :: rest)).map fun (fields, rest) => (.object fields, rest) := by
  rw [readValueWithin, skipBlanks_cons rfl]
  simp only [opened]
  rfl

theorem reads_object {fields : List (List Nat × Json)}
    (names : ∀ field ∈ fields, ∀ unit ∈ field.1, IsUnit unit)
    (each : ∀ field ∈ fields, Reads field.2) : Reads (.object fields) := by
  intro level bound rest _ enough
  match fields with
  | [] =>
    rw [renderAt] at enough ⊢
    cases bound with
    | zero => exact absurd enough (by decide)
    | succ bound => rfl
  | (name, value) :: fields =>
    rw [renderAt] at enough ⊢
    simp only [List.length_append, List.length_cons] at enough
    have positive : 0 < (newline level).length := newline_length
    cases bound with
    | zero => omega
    | succ bound =>
      have read : readFieldsWithin bound (renderString name ++ ':' :: ' ' ::
          (renderAt (level + 1) value ++
            (renderFields (level + 1) fields ++ (newline level ++ '\x7d' :: rest)))) =
              some ((name, value) :: fields, rest) :=
        readFieldsWithin_render names each (by omega)
      have opened := skipBlanks_newline (level + 1) (renderString name ++ ':' :: ' ' ::
        (renderAt (level + 1) value ++
          (renderFields (level + 1) fields ++ (newline level ++ '\x7d' :: rest))))
      rw [renderString, List.append_assoc, List.cons_append, skipBlanks_cons rfl] at opened
      rw [renderString, List.append_assoc, List.cons_append] at read
      simp only [renderString, List.cons_append, List.append_assoc, List.nil_append] at opened read ⊢
      rw [readValueWithin_object opened, read, Option.map_some]

/-! ### All values -/

theorem IsPrintable.reads (printable : IsPrintable value) : Reads value := by
  induction printable with
  | null => exact reads_null
  | bool truth => exact reads_bool truth
  | int number => exact reads_ofInt number
  | string proper => exact reads_string proper
  | array each ih => exact reads_array each ih
  | object names _ ih => exact reads_object names ih

/-- Whatever is printed is read again. -/
theorem read?_render (printable : IsPrintable value) : read? value.render = some value := by
  have read := printable.reads 0 (2 * (renderAt 0 value).length + 1) [] (by simp [EndsNumber]) (by omega)
  rw [List.append_nil] at read
  simp only [read?, render, String.toList_ofList, read]
  rfl

end Crosslink.Json
