import Crosslink.Proofs.Types.Numbering
import Crosslink.Proofs.Types.Readings

/-! Ranges.

An element covers the tokens it was read from. So the elements inside it lie in its
range, one behind the other, whatever is missing or was skipped between them.
-/

set_option autoImplicit false

namespace Crosslink.Types

def Element.range : Element → TextRange
  | .package _ _ range => range
  | .type _ _ _ range => range

mutual

def Element.Nests : Element → Prop
  | .package _ elements range => InOrder range.start range.stop elements
  | .type .. => True

/-- The ranges of elements lie between two offsets, one behind the other. -/
def InOrder (low high : Nat) : List Element → Prop
  | [] => True
  | element :: rest =>
    low ≤ element.range.start ∧ element.range.start ≤ element.range.stop ∧
      element.range.stop ≤ high ∧ element.Nests ∧ InOrder element.range.stop high rest

end

variable {tokens between rest : List Token} {low middle high : Nat} {elements more : List Element}

theorem InOrder.wider {lower higher : Nat} (order : InOrder low high elements) (left : lower ≤ low)
    (right : high ≤ higher) : InOrder lower higher elements := by
  induction elements generalizing low lower with
  | nil => trivial
  | cons element rest ih =>
    obtain ⟨begins, goes, ends, nests, later⟩ := order
    exact ⟨left.trans begins, goes, ends.trans right, nests, ih later (Nat.le_refl _)⟩

theorem InOrder.append (first : InOrder low middle elements) (second : InOrder middle high more)
    (left : low ≤ middle) (right : middle ≤ high) : InOrder low high (elements ++ more) := by
  induction elements generalizing low with
  | nil => exact second.wider left (Nat.le_refl _)
  | cons element rest ih =>
    obtain ⟨begins, goes, ends, nests, later⟩ := first
    exact ⟨begins, goes, ends.trans right, nests, ih later ends⟩

/-! ### What tokens cover -/

def Between (low high : Nat) (tokens rest : List Token) : Prop :=
  ∃ taken, tokens = taken ++ rest ∧ ∀ token ∈ taken, low ≤ token.offset ∧ token.stop ≤ high

variable {first : Token} {stop : Nat}

/-- A part of tokens between two offsets. -/
theorem Between.part {start last : List Token} (all : Between low high tokens rest)
    (begins : start <:+ tokens) (goes : last <:+ start) (ends : rest <:+ last) :
    Between low high start last := by
  obtain ⟨front, rfl⟩ := begins
  obtain ⟨taken, rfl⟩ := goes
  obtain ⟨back, rfl⟩ := ends
  obtain ⟨whole, same, inside⟩ := all
  refine ⟨taken, rfl, fun token member => inside token ?_⟩
  have parts : front ++ (taken ++ back) = whole := by
    refine (List.append_left_inj rest).mp ?_
    simpa only [List.append_assoc] using same
  rw [← parts]
  simp [member]

theorem Between.later (all : Between low high tokens rest)
    (begins : ∀ token ∈ tokens, stop ≤ token.offset) : Between stop high tokens rest := by
  obtain ⟨taken, rfl, inside⟩ := all
  exact ⟨taken, rfl, fun token member =>
    ⟨begins token (List.mem_append_left _ member), (inside token member).2⟩⟩

structure Covers (range : TextRange) (tokens rest : List Token) : Prop where
  goes : range.start ≤ range.stop
  around : Between range.start range.stop tokens rest
  behind : ∀ token ∈ rest, range.stop ≤ token.offset
  least : ∀ {low high}, Between low high tokens rest → low ≤ range.start ∧ range.stop ≤ high

theorem covered_append {taken : List Token} {last : Token} (head : taken.head? = some first)
    (ends : taken.getLast? = some last) :
    covered (taken ++ rest) rest = ⟨first.offset, last.stop⟩ := by
  simp [covered, head, ends]

/-- Tokens that follow each other cover what lies between the first and the last of them. -/
theorem covers_covered (spaced : Spaced (first :: tokens)) (behind : rest <:+ tokens) :
    Covers (covered (first :: tokens) rest) (first :: tokens) rest := by
  obtain ⟨front, rfl⟩ := behind
  obtain ⟨earlier, last, taken⟩ : ∃ earlier last, first :: front = earlier ++ [last] :=
    (List.eq_nil_or_concat' _).resolve_left (List.cons_ne_nil _ _)
  have range : covered ((first :: front) ++ rest) rest = ⟨first.offset, last.stop⟩ :=
    covered_append rfl (by simp [taken])
  rw [← List.cons_append] at spaced ⊢
  rw [range]
  have before := (List.pairwise_cons.mp spaced).1
  have starts : ∀ token ∈ first :: front, first.offset ≤ token.offset := by
    intro token member
    rcases List.mem_cons.mp member with rfl | later
    · exact Nat.le_refl _
    · exact first.offset_le_stop.trans (before token (List.mem_append_left _ later))
  rw [taken, List.append_assoc] at spaced
  obtain ⟨_, ending, across⟩ := List.pairwise_append.mp spaced
  have stops : ∀ token ∈ first :: front, token.stop ≤ last.stop := by
    intro token member
    rw [taken] at member
    rcases List.mem_append.mp member with inner | final
    · exact (across token inner last (by simp)).trans last.offset_le_stop
    · rw [List.mem_singleton.mp final]
  have final : last ∈ first :: front := by simp [taken]
  exact {
    goes := (starts last final).trans last.offset_le_stop
    around := ⟨first :: front, rfl, fun token member => ⟨starts token member, stops token member⟩⟩
    behind := (List.pairwise_cons.mp ending).1
    least := by
      rintro low high ⟨whole, same, inside⟩
      obtain rfl : first :: front = whole := List.append_cancel_right same
      exact ⟨(inside first List.mem_cons_self).1, (inside last final).2⟩ }

/-! ### What is read -/

theorem inOrder_of_reads {reading : Reading (List Element)} (reads : ReadsElements tokens reading)
    (spaced : Spaced tokens) (between : Between low high tokens reading.rest) :
    InOrder low high reading.value := by
  induction reads generalizing low high with
  | nothing => trivial
  | closing kind => trivial
  | @type word following more kind later ih =>
    have behind := (way_readType word following).suffix
    have onward := behind.trans (List.suffix_cons word following)
    have ends := later.way.suffix
    have covers := covers_covered spaced behind
    obtain ⟨begins, stops⟩ := covers.least (between.part (List.suffix_refl _) onward ends)
    exact ⟨begins, covers.goes, stops, trivial, ih (spaced.suffix onward)
      ((between.part onward ends (List.suffix_refl _)).later covers.behind)⟩
  | @package word following name opened closed body more kind named opens inner closes later first
      second =>
    have opening : opened.rest <:+ following := by
      rw [← opens, ← named]
      exact ((way_readName .packageName following).trans (way_require _ _ _)).suffix
    have closing : closed.rest <:+ body.rest := closes ▸ (way_require _ _ _).suffix
    have inside := inner.way.suffix
    have behind := (closing.trans inside).trans opening
    have onward := behind.trans (List.suffix_cons word following)
    have inward := opening.trans (List.suffix_cons word following)
    have ends := later.way.suffix
    have covers := covers_covered spaced behind
    obtain ⟨begins, stops⟩ := covers.least (between.part (List.suffix_refl _) onward ends)
    exact ⟨begins, covers.goes, stops,
      first (spaced.suffix inward) (covers.around.part inward inside closing),
      second (spaced.suffix onward)
        ((between.part onward ends (List.suffix_refl _)).later covers.behind)⟩
  | @skipped other following more kind later ih =>
    have onward := (suffix_recover following).trans (List.suffix_cons other following)
    exact ih (spaced.suffix onward) (between.part onward later.way.suffix (List.suffix_refl _))

theorem inOrder_of_readsModel {reading : Reading (List Element)} (reads : ReadsModel tokens reading)
    (spaced : Spaced tokens) (inside : ∀ token ∈ tokens, low ≤ token.offset ∧ token.stop ≤ high) :
    InOrder low high reading.value := by
  induction reads generalizing low with
  | whole reads all =>
    exact inOrder_of_reads reads spaced ⟨_, by rw [all, List.append_nil], inside⟩
  | @across tokens rest brace read more reads left kind later ih =>
    obtain ⟨taken, rfl⟩ := left ▸ reads.way.suffix
    obtain ⟨_, ending, across⟩ := List.pairwise_append.mp spaced
    obtain ⟨begins, stops⟩ := inside brace (by simp)
    have first : InOrder low brace.offset read.value := by
      refine inOrder_of_reads reads spaced ⟨taken, by rw [left], fun token member => ?_⟩
      exact ⟨(inside token (List.mem_append_left _ member)).1, across token member brace (by simp)⟩
    refine first.append (ih ending.of_cons fun token member => ⟨?_, ?_⟩) begins
      (brace.offset_le_stop.trans stops)
    · exact brace.offset_le_stop.trans ((List.pairwise_cons.mp ending).1 token member)
    · exact (inside token (by simp [member])).2

/-! ### Nodes -/

def NodesInOrder (tree : Tree) (low high : Nat) : List NodeId → Prop
  | [] => True
  | id :: rest => ∃ range, tree.range? id = some range ∧ low ≤ range.start ∧
    range.start ≤ range.stop ∧ range.stop ≤ high ∧ NodesInOrder tree range.stop high rest

def Encloses (tree : Tree) (id : NodeId) : Prop :=
  ∃ range, tree.range? id = some range ∧ NodesInOrder tree range.start range.stop (tree.contents id)

theorem Stands.range? {tree : Tree} {place : NodeId × FeatureId} {id : Nat} {element : Element}
    (stands : Stands tree place id element) : tree.range? id = some element.range := by
  rw [Tree.range?, stands.node?]
  cases element <;> rfl

mutual

theorem Stands.encloses {tree : Tree} {place : NodeId × FeatureId} {id : Nat} {element : Element}
    (stands : Stands tree place id element) (nests : element.Nests) :
    ∀ other ∈ List.range' id element.size, Encloses tree other := by
  cases element with
  | package name elements range =>
    obtain ⟨order, below⟩ := StandAll.encloses stands.2 nests
    rw [Element.size, List.range'_succ, List.forall_mem_cons]
    refine ⟨⟨range, stands.range?, ?_⟩, below⟩
    rwa [contents_of_package stands]
  | type name extended implemented range =>
    intro other member
    rw [Element.size, List.range'_one, List.mem_singleton] at member
    subst member
    refine ⟨range, stands.range?, ?_⟩
    rw [contents_of_type stands]
    trivial

theorem StandAll.encloses {tree : Tree} {place : NodeId × FeatureId} {first low high : Nat}
    {elements : List Element} (stand : StandAll tree place first elements)
    (order : InOrder low high elements) :
    NodesInOrder tree low high (idsFrom first elements) ∧
      ∀ other ∈ List.range' first (sizeAll elements), Encloses tree other := by
  cases elements with
  | nil => exact ⟨trivial, nofun⟩
  | cons element rest =>
    obtain ⟨begins, goes, ends, nests, later⟩ := order
    obtain ⟨follow, others⟩ := StandAll.encloses stand.2 later
    refine ⟨⟨element.range, stand.1.range?, begins, goes, ends, follow⟩, ?_⟩
    rw [sizeAll, ← List.range'_append_1]
    intro other member
    rcases List.mem_append.mp member with inner | outer
    · exact Stands.encloses stand.1 nests other inner
    · exact others other outer

end

theorem Lays.encloses {tree : Tree} {bytes : Nat} (lays : Lays tree bytes elements)
    (order : InOrder 0 bytes elements) : ∀ id, tree.contains id = true → Encloses tree id := by
  obtain ⟨follow, others⟩ := lays.stand.encloses order
  intro id inside
  have bound := Tree.lt_size_of_contains inside
  rw [lays.size] at bound
  rcases Nat.eq_zero_or_pos id with rfl | later
  · refine ⟨⟨0, bytes⟩, by rw [Tree.range?, lays.model]; rfl, ?_⟩
    rwa [lays.contents]
  · exact others id (List.mem_range'_1.mpr ⟨later, by rwa [Nat.add_comm]⟩)

end Crosslink.Types
