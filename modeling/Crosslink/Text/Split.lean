/-! Cutting a text at a separator character. -/

set_option autoImplicit false

namespace Crosslink.Text

/-- What stands before and after the first separator. -/
def splitFirst (sep : Char) : List Char → Option (List Char × List Char)
  | [] => none
  | c :: rest =>
    if c = sep then some ([], rest)
    else (splitFirst sep rest).map fun (before, after) => (c :: before, after)

/-- What stands before and after the last separator. -/
def splitLast (sep : Char) : List Char → Option (List Char × List Char)
  | [] => none
  | c :: rest =>
    match splitLast sep rest with
    | some (before, after) => some (c :: before, after)
    | none => if c = sep then some ([], rest) else none

theorem splitFirst_append (sep : Char) {before : List Char} (after : List Char)
    (clear : sep ∉ before) : splitFirst sep (before ++ sep :: after) = some (before, after) := by
  induction before with
  | nil => simp [splitFirst]
  | cons c rest ih =>
    simp only [List.mem_cons, not_or] at clear
    simp [splitFirst, Ne.symm clear.1, ih clear.2]

theorem splitFirst_eq_none {sep : Char} {text : List Char} :
    splitFirst sep text = none ↔ sep ∉ text := by
  induction text with
  | nil => simp [splitFirst]
  | cons c rest ih =>
    by_cases same : c = sep
    · simp [splitFirst, same]
    · simp [splitFirst, same, ih, Ne.symm same]

theorem append_of_splitFirst {sep : Char} {text before after : List Char}
    (cut : splitFirst sep text = some (before, after)) :
    text = before ++ sep :: after ∧ sep ∉ before := by
  induction text generalizing before with
  | nil => simp [splitFirst] at cut
  | cons c rest ih =>
    by_cases same : c = sep
    · simp [splitFirst, same] at cut
      obtain ⟨rfl, rfl⟩ := cut
      simp [same]
    · simp only [splitFirst, same, if_false, Option.map_eq_some_iff, Prod.mk.injEq] at cut
      obtain ⟨⟨first, last⟩, inner, rfl, rfl⟩ := cut
      obtain ⟨rfl, clear⟩ := ih inner
      exact ⟨rfl, by simp [clear, Ne.symm same]⟩

end Crosslink.Text
