import Crosslink.Uri.Fragment

/-! The written form of containment paths.

A path whose steps are named without separators can be cut into its steps again,
and no other such path is written in the same way.
-/

set_option autoImplicit false

namespace Crosslink

def IsPathName (name : String) : Prop := name ≠ "" ∧ '/' ∉ name.toList ∧ '.' ∉ name.toList

namespace Text

theorem isDigit_toDigits {c : Char} {number : Nat} (member : c ∈ Nat.toDigits 10 number) :
    c.isDigit = true :=
  Nat.isDigit_of_mem_toDigits (by decide) (by decide) member

-- A position reads back from its digits as long as it fits a machine word.
theorem readIndex_toDigits (number : Nat) :
    readIndex (Nat.toDigits 10 number) = if number < indexBound then some number else none := by
  have digits : readDigits (Nat.toDigits 10 number) =
      if number < indexBound then some number else none := by
    have all : (Nat.toDigits 10 number).all Char.isDigit = true :=
      List.all_eq_true.mpr fun c member => isDigit_toDigits member
    simp [readDigits, Nat.ofDigitChars_ten_toDigits, Nat.toDigits_ne_nil, all]
  cases written : Nat.toDigits 10 number with
  | nil => exact absurd written Nat.toDigits_ne_nil
  | cons c rest =>
    have first : c.isDigit = true := isDigit_toDigits (written ▸ List.mem_cons_self)
    have unsigned : c ≠ '+' := by
      rintro rfl
      exact absurd first (by decide)
    rw [readIndex.eq_2 _ fun digits same => unsigned (List.cons.inj same).1, ← written]
    exact digits

end Text

namespace Step

theorem toList_text (step : Step) : step.text.toList = '@' :: (step.feature.toList ++
    (step.index.map fun index => '.' :: Nat.toDigits 10 index).getD []) := by
  obtain ⟨feature, index⟩ := step
  cases index with
  | none => simp [text, toString]
  | some index => simp [text, toString, Nat.toList_repr]

theorem slash_not_mem_text {step : Step} (named : IsPathName step.feature) :
    '/' ∉ step.text.toList := by
  rw [toList_text, List.mem_cons, List.mem_append, not_or, not_or]
  refine ⟨by decide, named.2.1, ?_⟩
  cases step.index with
  | none => simp
  | some index =>
    rw [Option.map_some, Option.getD_some, List.mem_cons, not_or]
    exact ⟨by decide, fun member => absurd (Text.isDigit_toDigits member) (by decide)⟩

theorem feature_ne_nil {step : Step} (named : IsPathName step.feature) :
    step.feature.toList ≠ [] := by
  simpa using named.1

theorem read_text {step : Step} (named : IsPathName step.feature) :
    read step.text.toList = if ∀ index, step.index = some index → index < Text.indexBound then
      .ok step else .error (.invalidIndex step.text) := by
  have back : String.ofList step.text.toList = step.text := String.ofList_toList
  rw [toList_text] at back ⊢
  obtain ⟨feature, index⟩ := step
  have present : feature.toList ≠ [] := feature_ne_nil named
  cases index with
  | none =>
    have undotted : Text.splitFirst '.' feature.toList = none :=
      Text.splitFirst_eq_none.mpr named.2.2
    simp [read, undotted, present]
  | some index =>
    have cut := Text.splitFirst_append '.' (Nat.toDigits 10 index) named.2.2
    have number := Text.readIndex_toDigits index
    by_cases fits : index < Text.indexBound
    · rw [if_pos fits] at number
      simp [read, cut, number, present, fits]
    · rw [if_neg fits] at number
      simp only [Option.map_some, Option.getD_some] at back ⊢
      simp [read, cut, number, fits, back]

theorem eq_of_read {step other : Step} (named : IsPathName step.feature)
    (done : read step.text.toList = .ok other) : other = step := by
  rw [read_text named] at done
  split at done
  · cases done
    rfl
  · cases done

theorem text_injective {first second : Step} (left : IsPathName first.feature)
    (right : IsPathName second.feature) (same : first.text = second.text) : first = second := by
  have chars := congrArg String.toList same
  rw [toList_text, toList_text, List.cons.injEq] at chars
  obtain ⟨firstName, firstIndex⟩ := first
  obtain ⟨secondName, secondIndex⟩ := second
  -- the first dot is the one behind the name
  have cut : ∀ {name : String} {index : Option Nat}, IsPathName name →
      Text.splitFirst '.' (name.toList ++
        (index.map fun index => '.' :: Nat.toDigits 10 index).getD []) =
        index.map fun index => (name.toList, Nat.toDigits 10 index) := by
    intro name index named
    cases index with
    | none => simpa using Text.splitFirst_eq_none.mpr named.2.2
    | some index => exact Text.splitFirst_append '.' _ named.2.2
  have split := congrArg (Text.splitFirst '.') chars.2
  rw [cut left, cut right] at split
  cases firstIndex with
  | none =>
    cases secondIndex with
    | none => simpa [String.toList_inj] using chars.2
    | some index => simp at split
  | some index =>
    cases secondIndex with
    | none => simp at split
    | some other =>
      simp only [Option.map_some, Option.some.injEq, Prod.mk.injEq, String.toList_inj] at split
      have numbers := congrArg (Nat.ofDigitChars 10 · 0) split.2
      simp only [Nat.ofDigitChars_ten_toDigits] at numbers
      rw [split.1, numbers]

theorem eq_of_texts {first second : List Step} (left : ∀ step ∈ first, IsPathName step.feature)
    (right : ∀ step ∈ second, IsPathName step.feature)
    (same : first.map (fun step => step.text.toList) = second.map fun step => step.text.toList) :
    first = second := by
  induction first generalizing second with
  | nil =>
    rw [List.map_nil] at same
    exact (List.map_eq_nil_iff.mp same.symm).symm
  | cons step rest ih =>
    cases second with
    | nil => cases same
    | cons other others =>
      rw [List.map_cons, List.map_cons, List.cons.injEq, String.toList_inj] at same
      rw [List.forall_mem_cons] at left right
      rw [text_injective left.1 right.1 same.1, ih left.2 right.2 same.2]

end Step

namespace Fragment

def ofSteps (steps : List Step) : Fragment :=
  steps.foldl (fun path step => path.child step.feature step.index) root

theorem toList_ofSteps (steps : List Step) :
    (ofSteps steps).text.toList = '/' :: steps.flatMap fun step => '/' :: step.text.toList := by
  suffices ∀ path : Fragment,
      (steps.foldl (fun path step => path.child step.feature step.index) path).text.toList =
        path.text.toList ++ steps.flatMap fun step => '/' :: step.text.toList from this root
  induction steps with
  | nil => simp
  | cons step rest ih =>
    intro path
    rw [List.foldl_cons, ih, List.flatMap_cons]
    simp [child]

theorem ofSteps_concat (steps : List Step) (step : Step) :
    ofSteps (steps ++ [step]) = (ofSteps steps).child step.feature step.index := by
  simp [ofSteps]

theorem intercalate_slash (first : List Char) (rest : List (List Char)) :
    ['/'].intercalate (first :: rest) = first ++ rest.flatMap fun written => '/' :: written := by
  induction rest generalizing first with
  | nil => simp
  | cons second rest ih => simp [List.intercalate_cons_cons, ih second]

theorem splitOn_ofSteps {first : Step} {steps : List Step}
    (named : ∀ step ∈ first :: steps, IsPathName step.feature) :
    (first.text.toList ++ steps.flatMap fun step => '/' :: step.text.toList).splitOn '/' =
      (first :: steps).map fun step => step.text.toList := by
  have joined := intercalate_slash first.text.toList (steps.map fun step => step.text.toList)
  rw [List.flatMap_map, ← List.map_cons (f := fun step : Step => step.text.toList)] at joined
  rw [← joined, List.splitOn_intercalate _ _ (by simp)]
  intro written member
  obtain ⟨step, listed, rfl⟩ := List.mem_map.mp member
  exact Step.slash_not_mem_text (named step listed)

-- Paths whose names hold no separators are read step by step.
theorem steps_eq_mapM {steps : List Step} (named : ∀ step ∈ steps, IsPathName step.feature) :
    (ofSteps steps).steps = steps.mapM fun step => Step.read step.text.toList := by
  cases steps with
  | nil =>
    rw [Fragment.steps, toList_ofSteps]
    rfl
  | cons first rest =>
    rw [Fragment.steps, toList_ofSteps, List.flatMap_cons, List.cons_append]
    show ((first.text.toList ++ rest.flatMap fun step => '/' :: step.text.toList).splitOn '/').mapM
      Step.read = _
    rw [splitOn_ofSteps named, List.mapM_map]
    rfl

theorem steps_ofSteps {steps : List Step} (named : ∀ step ∈ steps, IsPathName step.feature)
    (fits : ∀ step ∈ steps, ∀ index, step.index = some index → index < Text.indexBound) :
    (ofSteps steps).steps = .ok steps := by
  rw [steps_eq_mapM named]
  induction steps with
  | nil => rfl
  | cons step rest ih =>
    rw [List.forall_mem_cons] at named fits
    rw [List.mapM_cons, Step.read_text named.1, if_pos fits.1, ih named.2 fits.2]
    rfl

-- A position that is too large for a machine word is refused, and not read as another one.
theorem eq_of_steps {steps others : List Step} (named : ∀ step ∈ steps, IsPathName step.feature)
    (done : (ofSteps steps).steps = .ok others) : others = steps := by
  rw [steps_eq_mapM named] at done
  induction steps generalizing others with
  | nil =>
    cases done
    rfl
  | cons step rest ih =>
    rw [List.forall_mem_cons] at named
    rw [List.mapM_cons] at done
    cases first : Step.read step.text.toList with
    | error fault =>
      rw [first] at done
      cases done
    | ok other =>
      rw [first] at done
      cases more : rest.mapM fun step => Step.read step.text.toList with
      | error fault =>
        rw [more] at done
        cases done
      | ok last =>
        rw [more] at done
        cases done
        rw [Step.eq_of_read named.1 first, ih named.2 more]

/-- Paths whose names hold no separators are written alike only if they are the same. -/
theorem ofSteps_injective {first second : List Step}
    (left : ∀ step ∈ first, IsPathName step.feature)
    (right : ∀ step ∈ second, IsPathName step.feature)
    (same : ofSteps first = ofSteps second) : first = second := by
  have chars := congrArg (fun path => path.text.toList.tail) same
  simp only [toList_ofSteps, List.tail_cons] at chars
  cases first with
  | nil =>
    cases second with
    | nil => rfl
    | cons step rest => simp at chars
  | cons step rest =>
    cases second with
    | nil => simp at chars
    | cons other others =>
      simp only [List.flatMap_cons, List.cons_append, List.cons.injEq, true_and] at chars
      have texts := congrArg (List.splitOn '/') chars
      rw [splitOn_ofSteps left, splitOn_ofSteps right] at texts
      exact Step.eq_of_texts left right texts

end Fragment

end Crosslink
