import Crosslink.Proofs.Types.Ranges

/-! Texts with faults.

Reading goes on behind a fault, to the end of the text. Whatever the text is, its tree is
in order, its references are names that wait, and its diagnostics follow each other in it.
-/

set_option autoImplicit false

namespace Crosslink.Types

variable {tokens rest : List Token} {faults : List Fault} {size low : Nat}

/-! ### Names -/

def IsWritten (pending : Pending) : Prop :=
  ∃ name, pending.proxy = .name name ∧ name.segments ≠ []

theorem segments_of_readQualifiedName? {name : Reading QualifiedName}
    (read : readQualifiedName? tokens = some name) : name.value.segments ≠ [] := by
  obtain ⟨_, _, rfl⟩ := Option.map_eq_some_iff.mp read
  exact List.cons_ne_nil _ _

theorem segments_of_readExtended (tokens : List Token) :
    ∀ name ∈ (readExtended tokens).value, name.segments ≠ [] := by
  unfold readExtended
  split
  · exact nofun
  · split
    · next name read =>
      rintro _ ⟨⟩
      exact segments_of_readQualifiedName? read
    · exact nofun

theorem segments_of_readNamesWithin (bound : Nat) (tokens : List Token) :
    ∀ name ∈ (readNamesWithin bound tokens).value, name.segments ≠ [] := by
  induction bound generalizing tokens with
  | zero => exact nofun
  | succ bound ih =>
    unfold readNamesWithin
    split
    · exact nofun
    · next name read =>
      have first := segments_of_readQualifiedName? read
      split
      · exact List.forall_mem_singleton.mpr first
      · exact List.forall_mem_cons.mpr ⟨first, ih _⟩

theorem segments_of_readImplemented (tokens : List Token) :
    ∀ name ∈ (readImplemented tokens).value, name.segments ≠ [] := by
  unfold readImplemented
  split
  · exact nofun
  · exact segments_of_readNamesWithin _ _

theorem isWritten_of_readType (id : Nat) (tokens : List Token) :
    ∀ pending ∈ (readType tokens).value.waits id, IsWritten pending := by
  intro pending member
  unfold readType at member
  rw [Element.waits] at member
  rcases List.mem_append.mp member with extended | implemented
  · obtain ⟨name, written, rfl⟩ := List.mem_map.mp extended
    exact ⟨name, rfl, segments_of_readExtended _ name (Option.mem_toList.mp written)⟩
  · obtain ⟨⟨name, index⟩, written, rfl⟩ := List.mem_map.mp implemented
    exact ⟨name, rfl, segments_of_readImplemented _ name (List.fst_mem_of_mem_zipIdx written)⟩

theorem waitsAll_append (first : Nat) (elements more : List Element) :
    waitsAll first (elements ++ more) =
      waitsAll first elements ++ waitsAll (first + sizeAll elements) more := by
  induction elements generalizing first with
  | nil => rfl
  | cons element others ih =>
    simp only [List.cons_append, waitsAll, sizeAll, ih, List.append_assoc, Nat.add_assoc]

theorem isWritten_of_reads {reading : Reading (List Element)} (reads : ReadsElements tokens reading)
    (first : Nat) : ∀ pending ∈ waitsAll first reading.value, IsWritten pending := by
  induction reads generalizing first with
  | nothing => exact nofun
  | closing kind => exact nofun
  | type kind later ih =>
    exact List.forall_mem_append.mpr ⟨isWritten_of_readType first _, ih _⟩
  | package kind named opens inner closes later body more =>
    exact List.forall_mem_append.mpr ⟨body (first + 1), more _⟩
  | skipped kind later ih => exact ih first

theorem isWritten_of_readsModel {reading : Reading (List Element)}
    (reads : ReadsModel tokens reading) (first : Nat) :
    ∀ pending ∈ waitsAll first reading.value, IsWritten pending := by
  induction reads generalizing first with
  | whole reads all => exact isWritten_of_reads reads first
  | across reads left kind later ih =>
    rw [waitsAll_append]
    exact List.forall_mem_append.mpr ⟨isWritten_of_reads reads first, ih _⟩

/-! ### Faults -/

def Fault.range (fault : Fault) (size : Nat) : TextRange :=
  (fault.found.map Token.range).getD ⟨size, size⟩

theorem range_diagnostic (fault : Fault) (size : Nat) :
    (fault.diagnostic size).range = some (fault.range size) := by
  unfold Fault.diagnostic Fault.range
  split
  · next missing => rw [missing]; rfl
  · next token found =>
    rw [found]
    split <;> rfl

/-- The message begins with what was expected. -/
theorem message_diagnostic (fault : Fault) (size : Nat) :
    ∃ rest, (fault.diagnostic size).message = fault.expected.text ++ rest := by
  unfold Fault.diagnostic
  split
  · exact ⟨_, rfl⟩
  · split
    · exact ⟨_, by simp only [Diagnostic.ofSyntax, String.append_assoc]; rfl⟩
    · exact ⟨_, by simp only [Diagnostic.ofSyntax, String.append_assoc]; rfl⟩

theorem head_of_text (expected : Expectation) :
    expected.text.toList.head? = some 'e' ∨ expected.text.toList.head? = some 'u' := by
  cases expected <;> first | exact .inl rfl | exact .inr rfl

/-- No fault is one of building the tree. -/
theorem not_cannot_build (fault : Fault) (size : Nat) :
    ¬ "cannot build node".toList <+: (fault.diagnostic size).message.toList := by
  obtain ⟨rest, same⟩ := message_diagnostic fault size
  rw [same, String.toList_append]
  rintro ⟨more, whole⟩
  have heads := congrArg List.head? whole
  have head : "cannot build node".toList.head? = some 'c' := rfl
  rw [List.head?_append, List.head?_append, head] at heads
  rcases head_of_text fault.expected with first | first <;>
  · rw [first] at heads
    cases heads

/-- A fault is behind an offset that no token and not the end is before. -/
theorem Way.faults_behind (way : Way tokens faults rest) (last : low ≤ size)
    (all : ∀ token ∈ tokens, low ≤ token.offset) :
    ∀ fault ∈ faults, low ≤ (fault.range size).start := by
  induction way with
  | onward suffix => exact nofun
  | @noted tokens here rest faults suffix expected way ih =>
    have further : ∀ token ∈ here, low ≤ token.offset :=
      fun token member => all token (suffix.mem member)
    refine List.forall_mem_cons.mpr ⟨?_, ih further⟩
    cases here with
    | nil => exact last
    | cons first others => exact further first List.mem_cons_self

/-- Faults are met one behind the other. -/
theorem Way.faults_ordered (way : Way tokens faults rest) (spaced : Spaced tokens)
    (inside : ∀ token ∈ tokens, token.stop ≤ size) :
    faults.Pairwise fun first second => (first.range size).start ≤ (second.range size).start := by
  induction way with
  | onward suffix => exact .nil
  | @noted tokens here rest faults suffix expected way ih =>
    have spaced := spaced.suffix suffix
    have inside : ∀ token ∈ here, token.stop ≤ size :=
      fun token member => inside token (suffix.mem member)
    refine List.pairwise_cons.mpr ⟨?_, ih spaced inside⟩
    cases here with
    | nil => exact way.faults_behind (Nat.le_refl size) nofun
    | cons token others =>
      refine way.faults_behind (token.offset_le_stop.trans (inside token List.mem_cons_self)) ?_
      refine List.forall_mem_cons.mpr ⟨Nat.le_refl _, fun later member => ?_⟩
      exact token.offset_le_stop.trans ((List.pairwise_cons.mp spaced).1 later member)

/-- Faults lie in the text. -/
theorem Way.faults_inside (way : Way tokens faults rest)
    (inside : ∀ token ∈ tokens, token.stop ≤ size) :
    ∀ fault ∈ faults, (fault.range size).start ≤ (fault.range size).stop ∧
      (fault.range size).stop ≤ size := by
  induction way with
  | onward suffix => exact nofun
  | @noted tokens here rest faults suffix expected way ih =>
    have inside : ∀ token ∈ here, token.stop ≤ size :=
      fun token member => inside token (suffix.mem member)
    refine List.forall_mem_cons.mpr ⟨?_, ih inside⟩
    cases here with
    | nil => exact ⟨Nat.le_refl _, Nat.le_refl _⟩
    | cons token others => exact ⟨token.offset_le_stop, inside token List.mem_cons_self⟩

/-! ### Texts -/

/-- What is in order in the outcome of reading a text, whatever the text is. -/
structure InGoodOrder (text : String) (parsed : Parsed) : Prop where
  /-- Reading ends behind the last token. -/
  whole : (readModel (visible text)).rest = []
  consistent : parsed.tree.Consistent
  /-- All nodes can be reached, and the order of the document is that of their numbers. -/
  numbered : parsed.tree.allNodes = List.range parsed.tree.size
  /-- What waits are the reference values of the tree, in the order of the document. -/
  values : parsed.tree.referenceValues = parsed.pending.map waiting
  /-- A name that is extended has no index, and names that are implemented count from zero. -/
  waits : parsed.pending = parsed.tree.allNodes.flatMap (waitsAt parsed.tree)
  written : ∀ pending ∈ parsed.pending, IsWritten pending
  /-- No node was refused. -/
  built : ∀ diagnostic ∈ parsed.diagnostics,
    ¬ "cannot build node".toList <+: diagnostic.message.toList
  /-- Every node has a range, in which its children lie one behind the other. -/
  encloses : ∀ id, parsed.tree.contains id = true → Encloses parsed.tree id
  /-- Every diagnostic has a range in the text. -/
  inside : ∀ diagnostic ∈ parsed.diagnostics, ∃ range, diagnostic.range = some range ∧
    range.start ≤ range.stop ∧ range.stop ≤ text.utf8ByteSize
  /-- No diagnostic starts before an earlier one. -/
  ordered : parsed.diagnostics.Pairwise fun first second =>
    ∀ range ∈ first.range, ∀ following ∈ second.range, range.start ≤ following.start

/-- Every text, however faulty, is read to its end, and its tree and diagnostics are in order. -/
theorem inGoodOrder_parse (text : String) : InGoodOrder text (parse text) := by
  have consistent := (sound_of_parse text).consistent
  have lays := lays_parse text
  have reads := readsModel (visible text)
  have bounds : ∀ token ∈ visible text, token.stop ≤ text.utf8ByteSize :=
    fun token member => stop_le_of_visible member
  obtain ⟨waits, values⟩ := lays.waits consistent
  rw [← pending_parse] at waits values
  refine { whole := reads.ends, consistent, numbered := lays.allNodes consistent, values
           waits := waits.symm, written := ?written, built := ?built, encloses := ?encloses
           inside := ?inside, ordered := ?ordered }
  case written =>
    rw [pending_parse]
    exact isWritten_of_readsModel reads 1
  case built =>
    rw [diagnostics_parse]
    exact List.forall_mem_map.mpr fun fault _ => not_cannot_build fault _
  case encloses =>
    refine lays.encloses (inOrder_of_readsModel reads (spaced_visible text) fun token member => ?_)
    exact ⟨Nat.zero_le _, bounds token member⟩
  case inside =>
    rw [diagnostics_parse]
    exact List.forall_mem_map.mpr fun fault member =>
      ⟨_, range_diagnostic fault _, reads.way.faults_inside bounds fault member⟩
  case ordered =>
    rw [diagnostics_parse, List.pairwise_map]
    refine (reads.way.faults_ordered (spaced_visible text) bounds).imp ?_
    rintro first second order range held following held'
    rw [range_diagnostic] at held held'
    cases held
    cases held'
    exact order

end Crosslink.Types
