import Crosslink.Text.Split

/-! Cutting a text at every separator, and joining pieces with separators. -/

set_option autoImplicit false

namespace Crosslink.Text

variable {sep : Char} {before behind : List Char}

theorem not_mem_of_mem_splitOn {α : Type} [BEq α] [LawfulBEq α] {sep : α} {text piece : List α}
    (member : piece ∈ text.splitOn sep) : sep ∉ piece := by
  induction text generalizing piece with
  | nil =>
    rw [List.splitOn_eq_splitOnP, List.splitOnP_nil, List.mem_singleton] at member
    rw [member]
    exact List.not_mem_nil
  | cons c rest ih =>
    rw [List.splitOn_cons_eq_if_modifyHead] at member
    split at member
    · rcases List.mem_cons.mp member with rfl | later
      · exact List.not_mem_nil
      · exact ih later
    · next other =>
      cases parts : rest.splitOn sep with
      | nil => exact absurd parts (List.splitOn_ne_nil _ _)
      | cons first others =>
        rw [parts] at member ih
        rcases List.mem_cons.mp member with rfl | later
        · rw [List.mem_cons, not_or]
          exact ⟨fun same => other (beq_iff_eq.mpr same.symm), ih List.mem_cons_self⟩
        · exact ih (List.mem_cons_of_mem _ later)

/-- What stands before the first separator is in the first piece. -/
theorem splitOn_append_of_clear {α : Type} [BEq α] [LawfulBEq α] {sep : α} {front : List α}
    (clear : sep ∉ front) (rest : List α) :
    (front ++ rest).splitOn sep = (rest.splitOn sep).modifyHead (front ++ ·) := by
  induction front with
  | nil => exact (congrFun List.modifyHead_id (rest.splitOn sep)).symm
  | cons first front ih =>
    simp only [List.mem_cons, not_or] at clear
    rw [List.cons_append, List.splitOn_cons_eq_if_modifyHead, ih clear.2,
      if_neg (by simpa using Ne.symm clear.1), List.modifyHead_modifyHead]
    rfl

/-- Pieces without the separator are found again in the text that they are joined to. -/
theorem splitOn_intercalate {separator : String} (single : separator.toList = [sep])
    {pieces : List String} (clear : ∀ piece ∈ pieces, sep ∉ piece.toList) (present : pieces ≠ []) :
    (separator.intercalate pieces).toList.splitOn sep = pieces.map String.toList := by
  rw [String.toList_intercalate, single]
  refine List.splitOn_intercalate sep (fun written member => ?_) (by simpa using present)
  obtain ⟨piece, listed, rfl⟩ := List.mem_map.mp member
  exact clear piece listed

theorem not_mem_of_splitLast_eq_none {text : List Char} (whole : splitLast sep text = none) :
    sep ∉ text := by
  induction text with
  | nil => exact List.not_mem_nil
  | cons c rest ih =>
    unfold splitLast at whole
    split at whole
    · cases whole
    · next clear =>
      split at whole
      · cases whole
      · next apart => exact List.not_mem_cons_of_ne_of_not_mem (Ne.symm apart) (ih clear)

/-- No separator follows the last one. -/
theorem not_mem_of_splitLast {text : List Char} (cut : splitLast sep text = some (before, behind)) :
    sep ∉ behind := by
  induction text generalizing before with
  | nil => cases cut
  | cons c rest ih =>
    unfold splitLast at cut
    split at cut
    · next later =>
      cases cut
      exact ih later
    · next clear =>
      split at cut
      · cases cut
        exact not_mem_of_splitLast_eq_none clear
      · cases cut

end Crosslink.Text
