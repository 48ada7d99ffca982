import Crosslink.Proofs.Text.Splitting
import Crosslink.Proofs.Uri.Steps
import Mathlib.Data.List.Forall2

/-! The ways to write one containment path.

Only steps whose names hold no separators are ever read, and all of these are
read back from their path. Steps that are read from two texts are the same only
if the texts name the same features. What the texts can differ in are the digits
of the positions, which are read with a sign and with zeros before them.
-/

set_option autoImplicit false

namespace Crosslink

namespace Text

variable {digits : List Char} {number : Nat}

/-- Digits as a position is written: no sign, and no zero before other digits. -/
def IsPlain (digits : List Char) : Prop :=
  digits.head? ≠ some '+' ∧ (digits.head? = some '0' → digits = ['0'])

instance : DecidablePred IsPlain := fun _ => inferInstanceAs (Decidable (_ ∧ _))

theorem digitChar_of_isDigit {c : Char} (digit : c.isDigit = true) :
    c.toNat - '0'.toNat < 10 ∧ Nat.digitChar (c.toNat - '0'.toNat) = c := by
  have bounds : 48 ≤ c.toNat ∧ c.toNat ≤ 57 := Char.isDigit_iff_toNat.mp digit
  have zero : '0'.toNat = 48 := rfl
  have small : c.toNat - '0'.toNat < 10 := by omega
  refine ⟨small, Char.toNat_inj.mp ?_⟩
  rw [Nat.toNat_digitChar_of_lt_ten small]
  omega

theorem toDigits_ofDigitChars_of_pos (all : ∀ c ∈ digits, c.isDigit = true) (positive : 0 < number) :
    Nat.toDigits 10 (Nat.ofDigitChars 10 digits number) = Nat.toDigits 10 number ++ digits := by
  induction digits generalizing number with
  | nil => simp
  | cons c rest ih =>
    rw [List.forall_mem_cons] at all
    obtain ⟨small, same⟩ := digitChar_of_isDigit all.1
    rw [Nat.ofDigitChars_cons, ih all.2 (by omega),
      ← Nat.toDigits_append_toDigits (by decide) positive small, Nat.toDigits_of_lt_base small, same]
    simp

theorem toDigits_ofDigitChars (all : ∀ c ∈ digits, c.isDigit = true) (present : digits ≠ [])
    (plain : IsPlain digits) : Nat.toDigits 10 (Nat.ofDigitChars 10 digits 0) = digits := by
  cases digits with
  | nil => exact absurd rfl present
  | cons c rest =>
    rw [List.forall_mem_cons] at all
    obtain ⟨small, same⟩ := digitChar_of_isDigit all.1
    rw [Nat.ofDigitChars_cons, Nat.mul_zero, Nat.zero_add]
    by_cases zero : c = '0'
    · -- a zero stands alone
      obtain rfl : rest = [] := (List.cons.inj (plain.2 (by rw [zero, List.head?_cons]))).2
      rw [Nat.ofDigitChars_nil, Nat.toDigits_of_lt_base small, same]
    · have positive : 0 < c.toNat - '0'.toNat := by
        rcases Nat.eq_zero_or_pos (c.toNat - '0'.toNat) with none | some
        · rw [none] at same
          exact absurd same.symm zero
        · exact some
      rw [toDigits_ofDigitChars_of_pos all.2 positive, Nat.toDigits_of_lt_base small, same,
        List.singleton_append]

theorem isPlain_toDigits (number : Nat) : IsPlain (Nat.toDigits 10 number) := by
  induction number using Nat.strongRecOn with
  | ind number ih =>
    by_cases small : number < 10
    · rw [Nat.toDigits_of_lt_base small]
      exact (by decide : ∀ digit < 10, IsPlain [Nat.digitChar digit]) number small
    · -- the first digit is that of the number without its last digit
      have lower : number / 10 < number := by omega
      have written := Nat.toDigits_of_base_le (b := 10) (n := number) (by decide) (by omega)
      have present : Nat.toDigits 10 (number / 10) ≠ [] := Nat.toDigits_ne_nil
      have nonzero : Nat.toDigits 10 (number / 10) ≠ ['0'] := by
        intro zero
        have value : number / 10 = 0 := by
          rw [← Nat.ofDigitChars_ten_toDigits (n := number / 10), zero]
          rfl
        omega
      obtain ⟨unsigned, unpadded⟩ := ih _ lower
      have first : (Nat.toDigits 10 number).head? = (Nat.toDigits 10 (number / 10)).head? := by
        rw [written, List.head?_append_of_ne_nil _ present]
      rw [IsPlain, first]
      exact ⟨unsigned, fun first => absurd (unpadded first) nonzero⟩

theorem readDigits_eq_some (read : readDigits digits = some number) :
    digits ≠ [] ∧ (∀ c ∈ digits, c.isDigit = true) ∧ Nat.ofDigitChars 10 digits 0 = number := by
  unfold readDigits at read
  split at read
  · next accepted => exact ⟨accepted.1, List.all_eq_true.mp accepted.2.1, Option.some.inj read⟩
  · cases read

theorem lt_indexBound_of_readIndex (read : readIndex digits = some number) :
    number < indexBound := by
  have bounded : ∀ {digits}, readDigits digits = some number → number < indexBound := by
    intro digits read
    unfold readDigits at read
    split at read
    · next accepted => exact Option.some.inj read ▸ accepted.2.2
    · cases read
  unfold readIndex at read
  split at read <;> exact bounded read

/-- The digits that a position is written with are the plain ones among those it is read from. -/
theorem toDigits_eq_iff_isPlain (read : readIndex digits = some number) :
    Nat.toDigits 10 number = digits ↔ IsPlain digits := by
  constructor
  · intro written
    exact written ▸ isPlain_toDigits number
  · intro plain
    unfold readIndex at read
    split at read
    · exact absurd rfl plain.1
    · obtain ⟨present, all, rfl⟩ := readDigits_eq_some read
      exact toDigits_ofDigitChars all present plain

end Text

namespace Step

variable {step other : Step} {written again : List Char}

/-- The digits of the position that a written step gives. -/
def numeral? (written : List Char) : Option (List Char) :=
  (Text.splitFirst '.' written).map fun (_, digits) => digits

theorem numeral?_eq {feature : List Char} (digits : List Char) (undotted : '.' ∉ feature) :
    numeral? ('@' :: (feature ++ '.' :: digits)) = some digits := by
  have clear : '.' ∉ '@' :: feature := by simp [undotted]
  rw [numeral?, ← List.cons_append, Text.splitFirst_append '.' digits clear, Option.map_some]

theorem numeral?_eq_none {feature : List Char} (undotted : '.' ∉ feature) :
    numeral? ('@' :: feature) = none := by
  rw [numeral?, Text.splitFirst_eq_none.mpr (by simp [undotted]), Option.map_none]

/-- A step that can be read consists of the name of the feature and the digits of the position. -/
theorem written_of_read (done : read written = .ok step) :
    step.feature ≠ "" ∧ '.' ∉ step.feature.toList ∧
      written = '@' :: (step.feature.toList ++ ((numeral? written).map ('.' :: ·)).getD []) ∧
      (numeral? written).map Text.readIndex = step.index.map some := by
  unfold read at done
  split at done
  · next body =>
    split at done
    · next feature digits cut =>
      obtain ⟨rfl, undotted⟩ := Text.append_of_splitFirst cut
      rw [numeral?_eq digits undotted]
      split at done
      · cases done
      · next index number =>
        split at done
        · cases done
        · next present =>
          cases done
          exact ⟨by simpa using present, by simpa using undotted, by simp, by simp [number]⟩
    · next uncut =>
      have undotted := Text.splitFirst_eq_none.mp uncut
      rw [numeral?_eq_none undotted]
      split at done
      · cases done
      · next present =>
        cases done
        exact ⟨by simpa using present, by simpa using undotted, by simp, rfl⟩
  · cases done

theorem isPathName_of_read (done : read written = .ok step) (slashless : '/' ∉ written) :
    IsPathName step.feature := by
  obtain ⟨present, undotted, form, _⟩ := written_of_read done
  refine ⟨present, fun slash => slashless ?_, undotted⟩
  rw [form]
  exact List.mem_cons_of_mem _ (List.mem_append_left _ slash)

theorem index_lt_of_read (done : read written = .ok step) :
    ∀ index, step.index = some index → index < Text.indexBound := by
  intro index position
  obtain ⟨_, _, _, number⟩ := written_of_read done
  rw [position] at number
  obtain ⟨digits, _, read⟩ := Option.map_eq_some_iff.mp number
  exact Text.lt_indexBound_of_readIndex read

theorem eq_of_reads (first : read written = .ok step) (second : read again = .ok step)
    (same : numeral? written = numeral? again) : written = again := by
  obtain ⟨_, _, form, _⟩ := written_of_read first
  obtain ⟨_, _, formAgain, _⟩ := written_of_read second
  rw [form, formAgain, same]

/-- What is read is written in the same way again unless its position has a sign or zeros before it. -/
theorem toList_text_eq_iff (done : read written = .ok step) :
    step.text.toList = written ↔ ∀ digits ∈ numeral? written, Text.IsPlain digits := by
  obtain ⟨_, _, form, number⟩ := written_of_read done
  rw [toList_text]
  cases numeral : numeral? written with
  | none =>
    rw [numeral] at form number
    have single : step.index = none := by simpa using number.symm
    rw [single, form]
    simp
  | some digits =>
    rw [numeral] at form number
    obtain ⟨index, position, read⟩ : ∃ index, step.index = some index ∧
        Text.readIndex digits = some index := by
      cases position : step.index with
      | none => simp [position] at number
      | some index => exact ⟨index, rfl, by simpa [position] using number⟩
    rw [position, form]
    simp [Text.toDigits_eq_iff_isPlain read]

end Step

namespace Fragment

variable {path other : Fragment} {steps : List Step}

def writtenSteps (path : Fragment) : List (List Char) :=
  match path.text.toList with
  | '/' :: '/' :: rest => rest.splitOn '/'
  | _ => []

def numerals (path : Fragment) : List (Option (List Char)) := path.writtenSteps.map Step.numeral?

/-- No position in a path has a sign or zeros before it. -/
def IsPlain (path : Fragment) : Prop :=
  ∀ numeral ∈ path.numerals, ∀ digits ∈ numeral, Text.IsPlain digits

instance : DecidablePred IsPlain := fun path =>
  inferInstanceAs (Decidable (∀ numeral ∈ path.numerals, ∀ digits ∈ numeral, Text.IsPlain digits))

theorem slash_not_mem_writtenSteps : ∀ written ∈ path.writtenSteps, '/' ∉ written := by
  unfold writtenSteps
  split
  · exact fun written member => Text.not_mem_of_mem_splitOn member
  · simp

abbrev Reads : List (List Char) → List Step → Prop :=
  List.Forall₂ fun written step => Step.read written = .ok step

theorem reads_of_mapM {written : List (List Char)} (done : written.mapM Step.read = .ok steps) :
    Reads written steps := by
  induction written generalizing steps with
  | nil =>
    cases done
    exact .nil
  | cons first rest ih =>
    rw [List.mapM_cons] at done
    cases read : Step.read first with
    | error fault =>
      rw [read] at done
      cases done
    | ok step =>
      rw [read] at done
      cases more : rest.mapM Step.read with
      | error fault =>
        rw [more] at done
        cases done
      | ok others =>
        rw [more] at done
        cases done
        exact .cons read (ih more)

theorem writtenSteps_eq {rest : List Char} (text : path.text.toList = '/' :: '/' :: rest) :
    path.writtenSteps = rest.splitOn '/' := by
  unfold writtenSteps
  rw [text]
  rfl

/-- A path that can be followed is a slash and its written steps, each of which can be read. -/
theorem written_of_steps (decoded : path.steps = .ok steps) :
    path.text.toList = '/' :: path.writtenSteps.flatMap (fun written => '/' :: written) ∧
      Reads path.writtenSteps steps := by
  unfold Fragment.steps at decoded
  split at decoded
  · next alone =>
    cases decoded
    unfold writtenSteps
    rw [alone]
    exact ⟨rfl, .nil⟩
  · next _ rest text =>
    rw [text, writtenSteps_eq text]
    refine ⟨?_, reads_of_mapM decoded⟩
    have joined : ['/'].intercalate (rest.splitOn '/') = rest := List.intercalate_splitOn '/'
    cases parts : rest.splitOn '/' with
    | nil => exact absurd parts (List.splitOn_ne_nil _ _)
    | cons first others =>
      rw [parts, intercalate_slash] at joined
      rw [← joined, List.flatMap_cons, List.cons_append]
  · cases decoded
  · cases decoded

theorem written_eq_of_reads {written again : List (List Char)} (first : Reads written steps)
    (second : Reads again steps) (same : written.map Step.numeral? = again.map Step.numeral?) :
    written = again := by
  induction first generalizing again with
  | nil =>
    cases second
    rfl
  | cons read _ ih =>
    cases second with
    | cons readAgain restAgain =>
      rw [List.map_cons, List.map_cons, List.cons.injEq] at same
      rw [Step.eq_of_reads read readAgain same.1, ih restAgain same.2]

theorem texts_eq_iff_of_reads {written : List (List Char)} (reads : Reads written steps) :
    steps.map (fun step => step.text.toList) = written ↔
      ∀ numeral ∈ written.map Step.numeral?, ∀ digits ∈ numeral, Text.IsPlain digits := by
  induction reads with
  | nil => simp
  | cons read _ ih =>
    rw [List.map_cons, List.cons.injEq, Step.toList_text_eq_iff read, ih, List.map_cons,
      List.forall_mem_cons]

theorem names_of_reads {written : List (List Char)} (reads : Reads written steps)
    (slashless : ∀ text ∈ written, '/' ∉ text) : ∀ step ∈ steps, IsPathName step.feature := by
  induction reads with
  | nil => simp
  | cons read _ ih =>
    rw [List.forall_mem_cons] at slashless ⊢
    exact ⟨Step.isPathName_of_read read slashless.1, ih slashless.2⟩

theorem positions_of_reads {written : List (List Char)} (reads : Reads written steps) :
    ∀ step ∈ steps, ∀ index, step.index = some index → index < Text.indexBound := by
  induction reads with
  | nil => simp
  | cons read _ ih =>
    rw [List.forall_mem_cons]
    exact ⟨Step.index_lt_of_read read, ih⟩

/-- A list of steps is read back from its path exactly if every feature has a name in which there is
no separator, positions being machine words. -/
theorem steps_ofSteps_iff (steps : List Step) : (ofSteps steps).steps = .ok steps ↔
    (∀ step ∈ steps, step.feature ≠ "" ∧ '/' ∉ step.feature.toList ∧ '.' ∉ step.feature.toList) ∧
      ∀ step ∈ steps, ∀ index, step.index = some index → index < Text.indexBound := by
  constructor
  · intro decoded
    obtain ⟨_, reads⟩ := written_of_steps decoded
    exact ⟨names_of_reads reads slash_not_mem_writtenSteps, positions_of_reads reads⟩
  · rintro ⟨named, fits⟩
    exact steps_ofSteps named fits

/-- Two paths of the same steps are written alike exactly if they have the same digits. -/
theorem eq_iff_numerals (first : path.steps = .ok steps) (second : other.steps = .ok steps) :
    path = other ↔ path.numerals = other.numerals := by
  constructor
  · intro same
    rw [same]
  · intro same
    obtain ⟨text, reads⟩ := written_of_steps first
    obtain ⟨textOther, readsOther⟩ := written_of_steps second
    rw [written_eq_of_reads reads readsOther same, ← textOther, String.toList_inj] at text
    cases path
    cases other
    exact congrArg Fragment.mk text

theorem writtenSteps_ofSteps (named : ∀ step ∈ steps, IsPathName step.feature) :
    (ofSteps steps).writtenSteps = steps.map fun step => step.text.toList := by
  unfold writtenSteps
  rw [toList_ofSteps]
  cases steps with
  | nil => rfl
  | cons first rest => exact splitOn_ofSteps named

/-- What is read from a path is written as the path again exactly if its positions are plain. -/
theorem ofSteps_eq_iff_isPlain (decoded : path.steps = .ok steps) :
    ofSteps steps = path ↔ path.IsPlain := by
  obtain ⟨text, reads⟩ := written_of_steps decoded
  rw [IsPlain, numerals, ← texts_eq_iff_of_reads reads]
  constructor
  · intro same
    rw [← writtenSteps_ofSteps (names_of_reads reads slash_not_mem_writtenSteps), same]
  · intro same
    rw [← same, List.flatMap_map, ← toList_ofSteps, String.toList_inj] at text
    cases path
    exact congrArg Fragment.mk text.symm

end Fragment

end Crosslink
