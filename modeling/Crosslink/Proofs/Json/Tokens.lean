import Crosslink.Json.Reader
import Crosslink.Proofs.Uri.Spellings

/-! Strings and numbers of JSON, printed and read again.

Whatever code points a string consists of, the reader undoes the escapes that the
printer has put in. A whole number is read up to the end of its digits.
-/

set_option autoImplicit false

namespace Crosslink.Json

variable {unit : Nat} {units : List Nat} {text rest : List Char}

/-! ### Strings -/

def IsUnit (unit : Nat) : Prop := unit < 0x110000

theorem isUnit_toNat (c : Char) : IsUnit c.toNat := by
  have valid : c.toNat.isValidChar := c.valid
  unfold Nat.isValidChar at valid
  unfold IsUnit
  omega

theorem forall_isUnit_unitsOf (text : String) : ∀ unit ∈ unitsOf text, IsUnit unit := by
  intro unit member
  obtain ⟨c, _, rfl⟩ := List.mem_map.mp member
  exact isUnit_toNat c

theorem hexValue?_hexDigit : ∀ value < 16, hexValue? (hexDigit value) = some value := by decide

theorem readString?_escapeUnit (small : unit < 0x10000) :
    readString? (escapeUnit unit ++ text) =
      (readString? text).map fun (units, rest) => (unit :: units, rest) := by
  have spelled : unitOf? (hexDigit (unit / 0x1000 % 16)) (hexDigit (unit / 0x100 % 16))
      (hexDigit (unit / 0x10 % 16)) (hexDigit (unit % 16)) = some unit := by
    simp only [unitOf?, hexValue?_hexDigit _ (Nat.mod_lt _ (by decide : 0 < 16)), Option.bind_eq_bind,
      Option.bind_some, Option.pure_def, Option.some.injEq]
    omega
  simp only [escapeUnit, List.cons_append, List.nil_append, readString?, spelled]

-- A backslash is followed by the letter of an escape, which is no `u`.
theorem readString?_escaped {letter : Char} (means : (escaped? letter).map Char.toNat = some unit) :
    readString? ('\\' :: letter :: text) =
      (readString? text).map fun (units, rest) => (unit :: units, rest) := by
  obtain ⟨c, stands, rfl⟩ := Option.map_eq_some_iff.mp means
  have other : letter ≠ 'u' := by
    rintro rfl
    cases stands
  rw [readString?, stands]
  all_goals simp [other]

theorem readString?_plain {c : Char} (unquoted : c ≠ '"') (unescaped : c ≠ '\\')
    (visible : ¬ c.toNat < 0x20) : readString? (c :: text) =
      (readString? text).map fun (units, rest) => (c.toNat :: units, rest) := by
  rw [readString?, if_neg (by simp [visible, unescaped])]
  all_goals simp [unquoted, unescaped]

/-- A code point is read as it was printed. -/
theorem readString?_renderUnit (proper : IsUnit unit) :
    readString? (renderUnit unit ++ text) =
      (readString? text).map fun (units, rest) => (unit :: units, rest) := by
  unfold renderUnit
  split
  · next same => exact readString?_escaped (same ▸ rfl)
  split
  · next same => exact readString?_escaped (same ▸ rfl)
  split
  · next same => exact readString?_escaped (same ▸ rfl)
  split
  · next same => exact readString?_escaped (same ▸ rfl)
  split
  · next same => exact readString?_escaped (same ▸ rfl)
  split
  · next same => exact readString?_escaped (same ▸ rfl)
  split
  · next same => exact readString?_escaped (same ▸ rfl)
  split
  · next escaped =>
    simp only [isHighSurrogate, isLowSurrogate, Bool.or_eq_true, Bool.and_eq_true,
      decide_eq_true_eq] at escaped
    exact readString?_escapeUnit (by omega)
  · next unquoted unescaped _ _ _ _ _ plain =>
    simp only [isHighSurrogate, isLowSurrogate, Bool.or_eq_true, Bool.and_eq_true,
      decide_eq_true_eq] at plain
    have valid : unit.isValidChar := by
      unfold IsUnit at proper
      unfold Nat.isValidChar
      omega
    have same : (Char.ofNat unit).toNat = unit := by
      rw [Char.ofNat, dif_pos valid]
      rfl
    have visible : ¬ (Char.ofNat unit).toNat < 0x20 := by omega
    rw [List.singleton_append, readString?_plain ?_ ?_ visible, same]
    · intro quote
      exact unquoted (same ▸ congrArg Char.toNat quote)
    · intro backslash
      exact unescaped (same ▸ congrArg Char.toNat backslash)

/-- A string is read up to its closing quote, as it was printed. -/
theorem readString?_render (proper : ∀ unit ∈ units, IsUnit unit) :
    readString? (units.flatMap renderUnit ++ '"' :: rest) = some (units, rest) := by
  induction units with
  | nil => rfl
  | cons unit units ih =>
    rw [List.forall_mem_cons] at proper
    rw [List.flatMap_cons, List.append_assoc, readString?_renderUnit proper.1, ih proper.2]
    rfl

/-! ### Numbers -/

/-- What can follow a number: nothing that would be read as a part of it. -/
def EndsNumber (rest : List Char) : Prop :=
  ∀ c ∈ rest.head?, c.isDigit = false ∧ c ≠ '.' ∧ c ≠ 'e' ∧ c ≠ 'E'

theorem readSomeDigits?_toDigits (number : Nat) (ended : EndsNumber rest) :
    readSomeDigits? (Nat.toDigits 10 number ++ rest) = some (Nat.toDigits 10 number, rest) := by
  have digits : ∀ c ∈ Nat.toDigits 10 number, c.isDigit = true := fun c => Text.isDigit_toDigits
  have taken : rest.takeWhile Char.isDigit = [] := by
    cases rest with
    | nil => rfl
    | cons c rest => rw [List.takeWhile_cons_of_neg (by simp [(ended c rfl).1])]
  have dropped : rest.dropWhile Char.isDigit = rest := by
    cases rest with
    | nil => rfl
    | cons c rest => rw [List.dropWhile_cons_of_neg (by simp [(ended c rfl).1])]
  simp only [readSomeDigits?, List.takeWhile_append_of_pos digits, taken, List.append_nil,
    List.dropWhile_append_of_pos digits, dropped]
  exact if_neg (by simp [Nat.toDigits_ne_nil])

theorem readWhole?_toDigits (number : Nat) (ended : EndsNumber rest) :
    readWhole? (Nat.toDigits 10 number ++ rest) = some (Nat.toDigits 10 number, rest) := by
  unfold readWhole?
  rw [readSomeDigits?_toDigits number ended]
  split
  · next next tail _ read =>
    -- more than one digit does not start with a zero
    have written : Nat.toDigits 10 number = '0' :: next :: tail := congrArg Prod.fst (Option.some.inj read)
    have alone := (Text.isPlain_toDigits number).2 (by rw [written, List.head?_cons])
    rw [written] at alone
    cases alone
  · rfl

theorem readUnsigned?_toDigits (number : Nat) (ended : EndsNumber rest) :
    readUnsigned? (Nat.toDigits 10 number ++ rest) = some (Nat.toDigits 10 number, rest) := by
  have fraction : readFraction? rest = some ([], rest) := by
    cases rest with
    | nil => rfl
    | cons c rest =>
      rw [readFraction?]
      intro _ same
      exact (ended c rfl).2.1 (List.cons.inj same).1
  have exponent : readExponent? rest = some ([], rest) := by
    match rest, ended with
    | [], _ => rfl
    | [mark], ended => simp [readExponent?, (ended mark rfl).2.2]
    | mark :: sign :: rest, ended => simp [readExponent?, (ended mark rfl).2.2]
  simp [readUnsigned?, readWhole?_toDigits number ended, fraction, exponent]

theorem toList_toString (number : Int) : (toString number).toList =
    if number < 0 then '-' :: Nat.toDigits 10 number.natAbs else Nat.toDigits 10 number.natAbs := by
  cases number with
  | ofNat number => simp [toString, Int.repr]
  | negSucc number => simp [toString, Int.repr]

theorem toString_starts (number : Int) :
    ∃ c text, (toString number).toList = c :: text ∧ (c = '-' ∨ c.isDigit = true) := by
  rw [toList_toString]
  split
  · exact ⟨_, _, rfl, .inl rfl⟩
  · cases written : Nat.toDigits 10 number.natAbs with
    | nil => exact absurd written Nat.toDigits_ne_nil
    | cons c others => exact ⟨c, others, rfl, .inr (Text.isDigit_toDigits (written ▸ List.mem_cons_self))⟩

-- No other value starts in the way that a number starts.
theorem ne_of_starts {c mark : Char} (first : c = '-' ∨ c.isDigit = true)
    (other : mark ≠ '-' ∧ mark.isDigit = false) : c ≠ mark := by
  rintro rfl
  rcases first with minus | digit
  · exact other.1 minus
  · exact absurd digit (by simp [other.2])

/-- A whole number is read as it was printed. -/
theorem readNumber?_ofInt (number : Int) (ended : EndsNumber rest) :
    readNumber? ((toString number).toList ++ rest) = some (ofInt number, rest) := by
  have digits := readUnsigned?_toDigits number.natAbs ended
  rw [ofInt, toList_toString]
  split
  · rw [List.cons_append, readNumber?, digits]
    rfl
  · cases written : Nat.toDigits 10 number.natAbs with
    | nil => exact absurd written Nat.toDigits_ne_nil
    | cons c others =>
      have unsigned : c ≠ '-' := by
        rintro rfl
        exact absurd (Text.isDigit_toDigits (written ▸ List.mem_cons_self)) (by decide)
      rw [← written, readNumber?.eq_2, digits]
      · rfl
      · intro text same
        rw [written] at same
        exact unsigned (List.cons.inj same).1

end Crosslink.Json
