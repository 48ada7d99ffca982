import Crosslink.Proofs.Text.Splitting
import Crosslink.QualifiedName

/-! The dotted texts of qualified names.

A name is read back from its text exactly if its segments can be told apart from
the dots between them. What is read from a text is always such a name.
-/

set_option autoImplicit false

namespace Crosslink

def IsSegment (segment : String) : Prop := segment ≠ "" ∧ '.' ∉ segment.toList

namespace QualifiedName

variable {name : QualifiedName} {text segment : String}

/-- The segments that are read from a text can be told apart from the dots. -/
theorem isSegment_of_mem_ofDotted (member : segment ∈ (ofDotted text).segments) :
    IsSegment segment := by
  obtain ⟨piece, kept, rfl⟩ := List.mem_map.mp member
  obtain ⟨listed, present⟩ := List.mem_filter.mp kept
  constructor
  · simpa using present
  · rw [String.toList_ofList]
    exact Text.not_mem_of_mem_splitOn listed

theorem ofDotted_text (plain : ∀ segment ∈ name.segments, IsSegment segment) :
    ofDotted name.text = name := by
  obtain ⟨segments⟩ := name
  by_cases none : segments = []
  · subst none
    rfl
  · have cut : (".".intercalate segments).toList.splitOn '.' = segments.map String.toList :=
      Text.splitOn_intercalate rfl (fun segment member => (plain segment member).2) none
    have kept : (segments.map String.toList).filter (· ≠ []) = segments.map String.toList := by
      apply List.filter_eq_self.mpr
      intro written member
      obtain ⟨segment, listed, rfl⟩ := List.mem_map.mp member
      simpa using (plain segment listed).1
    have back : String.ofList ∘ String.toList = id := funext fun _ => String.ofList_toList
    unfold ofDotted text
    rw [cut, kept, List.map_map, back, List.map_id]

/-- A name is read back from its text exactly if no segment is empty or has a dot in it. Whatever
name is read from a text is read back from its own text. -/
theorem reads_back_iff : (∀ name : QualifiedName, ofDotted name.text = name ↔
      ∀ segment ∈ name.segments, segment ≠ "" ∧ '.' ∉ segment.toList) ∧
    ∀ text, ofDotted (ofDotted text).text = ofDotted text := by
  refine ⟨fun name => ⟨fun same segment member => ?_, ofDotted_text⟩, fun text => ?_⟩
  · rw [← same] at member
    exact isSegment_of_mem_ofDotted member
  · exact ofDotted_text fun segment => isSegment_of_mem_ofDotted

end QualifiedName

end Crosslink
