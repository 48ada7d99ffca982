import Crosslink.Proofs.Text.Bytes
import Crosslink.Text.Lines
import Mathlib.Data.List.DropRight

/-! The positions of the offsets of a text.

A position counts the newlines before an offset and the bytes behind the last of
them. It is found by halving the list of the starts of lines: a line starts with
the text or right behind a newline, so that an offset lies in the last line that
starts before it or there. No two offsets of a text have one position.
-/

set_option autoImplicit false

namespace Crosslink

namespace Text

def newline : UInt8 := 10

theorem length_take_bytes (text : String) (offset : Nat) :
    ((bytes text).take (min offset text.utf8ByteSize)).length = min offset text.utf8ByteSize :=
  List.length_take_of_le (Nat.min_le_right _ _)

theorem eq_newline_of_mem {c : Char} (member : newline ∈ String.utf8EncodeChar c) : c = '\n' :=
  Char.toNat_inj.mp (code_of_mem (by decide) member)

end Text

/-! ### What stands before an offset -/

namespace Position

variable {before behind : List UInt8}

/-- The position at the end of bytes: the newlines among them, and the bytes behind the last one. -/
def ofBytes (before : List UInt8) : Position :=
  ⟨before.count Text.newline, (before.rtakeWhile (· ≠ Text.newline)).length⟩

theorem ofBytes_concat (byte : UInt8) : ofBytes (before ++ [byte]) =
    if byte = Text.newline then ⟨(ofBytes before).line + 1, 0⟩
    else ⟨(ofBytes before).line, (ofBytes before).column + 1⟩ := by
  unfold ofBytes
  rw [List.rtakeWhile_concat, List.count_append, List.count_singleton]
  by_cases ends : byte = Text.newline <;> simp [ends]

theorem ofBytes_append_of_clear (clear : Text.newline ∉ behind) : ofBytes (before ++ behind) =
    ⟨(ofBytes before).line, (ofBytes before).column + behind.length⟩ := by
  induction behind using List.reverseRecOn with
  | nil => rw [List.append_nil]; rfl
  | append_singleton behind last ih =>
    simp only [List.mem_append, List.mem_singleton, not_or] at clear
    rw [← List.append_assoc, ofBytes_concat, if_neg (Ne.symm clear.2), ih clear.1]
    simp [Nat.add_assoc]

/-- More bytes end at a later position. -/
theorem compare_ofBytes_append (more : behind ≠ []) :
    (ofBytes before).compare (ofBytes (before ++ behind)) = .lt := by
  unfold compare
  by_cases clear : Text.newline ∈ behind
  · have further : 0 < behind.count Text.newline := List.count_pos_iff.mpr clear
    have later : (ofBytes before).line < (ofBytes (before ++ behind)).line := by
      simp only [ofBytes, List.count_append]
      omega
    rw [Nat.compare_eq_lt.mpr later]
    rfl
  · have longer : 0 < behind.length := List.length_pos_of_ne_nil more
    rw [ofBytes_append_of_clear clear, Nat.compare_eq_eq.mpr rfl, Ordering.eq_then]
    exact Nat.compare_eq_lt.mpr (Nat.lt_add_of_pos_right longer)

end Position

/-! ### The starts of lines -/

namespace LineIndex

variable {offset size : Nat} {bytes more : List UInt8}

def startsAfter : Nat → List UInt8 → List Nat
  | _, [] => []
  | offset, byte :: rest =>
    if byte = Text.newline then (offset + 1) :: startsAfter (offset + 1) rest
    else startsAfter (offset + 1) rest

theorem startsAfter_append : startsAfter offset (bytes ++ more) =
    startsAfter offset bytes ++ startsAfter (offset + bytes.length) more := by
  induction bytes generalizing offset with
  | nil => rfl
  | cons byte rest ih =>
    simp only [List.cons_append, startsAfter, ih, List.length_cons]
    rw [show offset + 1 + rest.length = offset + (rest.length + 1) by omega]
    split <;> rfl

theorem startsAfter_of_clear (clear : Text.newline ∉ bytes) : startsAfter offset bytes = [] := by
  induction bytes generalizing offset with
  | nil => rfl
  | cons byte rest ih =>
    simp only [List.mem_cons, not_or] at clear
    rw [startsAfter, if_neg (Ne.symm clear.1), ih clear.2]

theorem startsBehind_eq (chars : List Char) : startsBehind offset chars =
    startsAfter offset (chars.flatMap String.utf8EncodeChar) := by
  induction chars generalizing offset with
  | nil => rfl
  | cons c rest ih =>
    rw [List.flatMap_cons, startsAfter_append, String.length_utf8EncodeChar, ← ih, startsBehind]
    by_cases ends : c = '\n'
    · subst ends
      rfl
    · rw [startsAfter_of_clear fun member => ends (Text.eq_newline_of_mem member)]
      simp [ends]

theorem starts_ofText (text : String) :
    (ofText text).starts = 0 :: startsAfter 0 (Text.bytes text) := by
  rw [ofText, startsBehind_eq, Text.bytes_eq_flatMap]

theorem length_startsAfter : (startsAfter offset bytes).length = bytes.count Text.newline := by
  induction bytes generalizing offset with
  | nil => rfl
  | cons byte rest ih =>
    rw [startsAfter, List.count_cons]
    by_cases ends : byte = Text.newline <;> simp [ends, ih]

theorem lt_of_mem_startsAfter {start : Nat} (member : start ∈ startsAfter offset bytes) :
    offset < start := by
  induction bytes generalizing offset with
  | nil => cases member
  | cons byte rest ih =>
    unfold startsAfter at member
    split at member
    · rcases List.mem_cons.mp member with here | later
      · omega
      · exact Nat.lt_of_succ_lt (ih later)
    · exact Nat.lt_of_succ_lt (ih member)

theorem pairwise_startsAfter : (startsAfter offset bytes).Pairwise (· < ·) := by
  induction bytes generalizing offset with
  | nil => exact .nil
  | cons byte rest ih =>
    unfold startsAfter
    split
    · exact List.pairwise_cons.mpr ⟨fun _ => lt_of_mem_startsAfter, ih⟩
    · exact ih

/-- The starts up to an offset are those behind the newlines before it. -/
theorem filter_startsAfter : (startsAfter offset bytes).filter (· ≤ offset + size) =
    startsAfter offset (bytes.take size) := by
  induction bytes generalizing offset size with
  | nil => simp [startsAfter]
  | cons byte rest ih =>
    cases size with
    | zero =>
      rw [List.take_zero, startsAfter, List.filter_eq_nil_iff]
      intro start member
      have := lt_of_mem_startsAfter member
      simp
      omega
    | succ size =>
      have within : offset + 1 ≤ offset + (size + 1) := by omega
      have rest := @ih (offset + 1) size
      rw [show offset + 1 + size = offset + (size + 1) by omega] at rest
      simp only [List.take_succ_cons, startsAfter]
      split
      · rw [List.filter_cons_of_pos (by simp), rest]
      · rw [rest]

/-- The last line begins behind the last newline. -/
theorem getLastD_startsAfter : (startsAfter 0 bytes).getLastD 0 + (Position.ofBytes bytes).column =
    bytes.length := by
  induction bytes using List.reverseRecOn with
  | nil => rfl
  | append_singleton bytes last ih =>
    rw [startsAfter_append, List.length_append, Nat.zero_add, Position.ofBytes_concat]
    by_cases ends : last = Text.newline
    · simp [startsAfter, ends]
    · simp [startsAfter, ends, ← ih, Nat.add_assoc]

/-! ### The search for a line -/

variable {numbers : List Nat} {wanted place : Nat}

/-- What a search finds in a list: the number, or the place where all before are smaller and all
from there on are greater. -/
def Finds (numbers : List Nat) (wanted : Nat) : Except Nat Nat → Prop
  | .ok place => numbers[place]? = some wanted
  | .error place => place ≤ numbers.length ∧ ∀ i number, numbers[i]? = some number →
      (i < place → number < wanted) ∧ (place ≤ i → wanted < number)

-- Between the two places nothing is known yet; outside of them the numbers are smaller or greater.
theorem finds_searchBetween (increasing : numbers.Pairwise (· < ·)) {low high : Nat}
    (inside : high ≤ numbers.length) (ordered : low ≤ high)
    (known : ∀ i number, numbers[i]? = some number →
      (i < low → number < wanted) ∧ (high ≤ i → wanted < number)) :
    Finds numbers wanted (searchBetween numbers wanted low high inside) := by
  have grows : ∀ {i j first second : Nat}, i < j → numbers[i]? = some first → numbers[j]? = some second →
      first < second := by
    intro i j first second before here there
    obtain ⟨short, rfl⟩ := List.getElem?_eq_some_iff.mp here
    obtain ⟨shorter, rfl⟩ := List.getElem?_eq_some_iff.mp there
    exact List.pairwise_iff_getElem.mp increasing i j short shorter before
  fun_induction searchBetween numbers wanted low high inside with
  | case1 low high inside gap short middle found =>
    exact List.getElem?_eq_some_iff.mpr ⟨short, found⟩
  | case2 low high inside gap short middle apart smaller ih =>
    have here : numbers[(low + high) / 2]? = some middle := List.getElem?_eq_getElem short
    refine ih (by omega) fun i number held => ⟨fun before => ?_, (known i number held).2⟩
    rcases Nat.lt_or_eq_of_le (Nat.le_of_lt_succ before) with earlier | same
    · exact Nat.lt_trans (grows earlier held here) smaller
    · rw [same, here, Option.some.injEq] at held
      omega
  | case3 low high inside gap short middle apart notSmaller ih =>
    have here : numbers[(low + high) / 2]? = some middle := List.getElem?_eq_getElem short
    refine ih (by omega) fun i number held => ⟨(known i number held).1, fun behind => ?_⟩
    rcases Nat.lt_or_eq_of_le behind with later | same
    · have := grows later here held
      omega
    · rw [← same, here, Option.some.injEq] at held
      omega
  | case4 low high inside closed =>
    obtain rfl : low = high := by omega
    exact ⟨inside, known⟩

theorem finds_search (increasing : numbers.Pairwise (· < ·)) :
    Finds numbers wanted (search numbers wanted) := by
  refine finds_searchBetween increasing _ (Nat.zero_le _) fun i number held => ⟨nofun, fun beyond => ?_⟩
  rw [List.getElem?_eq_none beyond] at held
  cases held

theorem filter_eq_take {keep : Nat → Bool} {count : Nat}
    (upTo : ∀ i number, numbers[i]? = some number → (keep number = true ↔ i < count)) :
    numbers.filter keep = numbers.take count := by
  induction numbers generalizing count with
  | nil => simp
  | cons first rest ih =>
    cases count with
    | zero =>
      rw [List.take_zero, List.filter_eq_nil_iff]
      intro number member
      obtain ⟨i, held⟩ := List.mem_iff_getElem?.mp member
      simp [upTo i number held]
    | succ count =>
      have kept : keep first = true := (upTo 0 first rfl).mpr (Nat.succ_pos count)
      rw [List.filter_cons_of_pos kept, List.take_succ_cons, ih fun i number held => ?_]
      exact (upTo (i + 1) number held).trans Nat.succ_lt_succ_iff

/-- The search leads to a line, and the lines up to it are those that start up to the place. -/
theorem take_lineAt_eq_filter {index : LineIndex} (increasing : index.starts.Pairwise (· < ·))
    (first : index.starts[0]? = some 0) : search index.starts place ≠ .error 0 ∧
      index.lineAt place < index.starts.length ∧
      index.starts.filter (· ≤ place) = index.starts.take (index.lineAt place + 1) := by
  have found := @finds_search index.starts place increasing
  unfold lineAt
  cases result : search index.starts place with
  | ok line =>
    rw [result] at found
    obtain ⟨short, here⟩ := List.getElem?_eq_some_iff.mp found
    dsimp only
    refine ⟨nofun, short, filter_eq_take fun i start held => ?_⟩
    obtain ⟨shorter, rfl⟩ := List.getElem?_eq_some_iff.mp held
    rw [decide_eq_true_eq, ← here]
    -- the starts are in the order of the lines
    rcases Nat.lt_trichotomy i line with before | same | behind
    · have := List.pairwise_iff_getElem.mp increasing i line shorter short before
      omega
    · subst same
      simp
    · have := List.pairwise_iff_getElem.mp increasing line i short shorter behind
      omega
  | error next =>
    rw [result] at found
    obtain ⟨inside, apart⟩ := found
    have some_before : next ≠ 0 := by
      rintro rfl
      exact absurd ((apart 0 0 first).2 (Nat.le_refl 0)) (Nat.not_lt_zero place)
    dsimp only
    refine ⟨fun none => some_before (Except.error.inj none), by omega,
      filter_eq_take fun i start held => ?_⟩
    have := apart i start held
    rw [decide_eq_true_eq]
    omega

/-- No line starts behind the end of a text. -/
theorem le_size_of_mem_starts {text : String} {start : Nat} (member : start ∈ (ofText text).starts) :
    start ≤ text.utf8ByteSize := by
  have all := @filter_startsAfter 0 text.utf8ByteSize (Text.bytes text)
  rw [Nat.zero_add, ← Text.length_bytes, List.take_length, List.filter_eq_self] at all
  rw [starts_ofText] at member
  rcases List.mem_cons.mp member with rfl | later
  · exact Nat.zero_le _
  · exact of_decide_eq_true (all start later)

/-- In a text, the line of a place starts behind the last newline before the place. -/
theorem lineAt_ofText (text : String) (place : Nat) :
    let index := ofText text
    let before := (Text.bytes text).take place
    search index.starts place ≠ .error 0 ∧ index.lineAt place = before.count Text.newline ∧
      index.starts[index.lineAt place]? = some ((startsAfter 0 before).getLastD 0) := by
  intro index before
  have starts : index.starts = 0 :: startsAfter 0 (Text.bytes text) := starts_ofText text
  have increasing : index.starts.Pairwise (· < ·) := by
    rw [starts]
    exact List.pairwise_cons.mpr ⟨fun _ => lt_of_mem_startsAfter, pairwise_startsAfter⟩
  obtain ⟨found, short, upTo⟩ := @take_lineAt_eq_filter place index increasing (by rw [starts]; rfl)
  have begun : index.starts.take (index.lineAt place + 1) = 0 :: startsAfter 0 before := by
    have cut := @filter_startsAfter 0 place (Text.bytes text)
    rw [Nat.zero_add] at cut
    rw [← upTo, starts, List.filter_cons_of_pos (by simp), cut]
  have line : index.lineAt place = (startsAfter 0 before).length := by
    have lengths := congrArg List.length begun
    rw [List.length_take, List.length_cons] at lengths
    omega
  refine ⟨found, line.trans length_startsAfter, ?_⟩
  have last : (startsAfter 0 before).length = (0 :: startsAfter 0 before).length - 1 := rfl
  rw [← List.getElem?_take_of_lt (Nat.lt_succ_self _), begun, line, last, ← List.getLast?_eq_getElem?,
    List.getLast?_cons, List.getLastD_eq_getLast?]

/-- An offset has the position of the end of what stands before it. -/
theorem position_ofText (text : String) (offset : Nat) : (ofText text).position offset =
    .ofBytes ((Text.bytes text).take (min offset text.utf8ByteSize)) := by
  obtain ⟨_, line, start⟩ := lineAt_ofText text (min offset text.utf8ByteSize)
  have last := @getLastD_startsAfter ((Text.bytes text).take (min offset text.utf8ByteSize))
  rw [Text.length_take_bytes] at last
  have column : min offset text.utf8ByteSize - (ofText text).starts.getD
      ((ofText text).lineAt (min offset text.utf8ByteSize)) 0 =
      (Position.ofBytes ((Text.bytes text).take (min offset text.utf8ByteSize))).column := by
    rw [List.getD_eq_getElem?_getD, start, Option.getD_some]
    omega
  have size : (ofText text).size = text.utf8ByteSize := rfl
  unfold position
  rw [size]
  dsimp only
  rw [column, line]
  rfl

theorem compare_position {text : String} {offset later : Nat} (before : offset < later)
    (inside : later ≤ text.utf8ByteSize) :
    ((ofText text).position offset).compare ((ofText text).position later) = .lt := by
  have cut : (Text.bytes text).take later = (Text.bytes text).take offset ++
      ((Text.bytes text).drop offset).take (later - offset) := by
    rw [← List.take_add, Nat.add_sub_cancel' (Nat.le_of_lt before)]
  have more : ((Text.bytes text).drop offset).take (later - offset) ≠ [] := by
    apply List.ne_nil_of_length_pos
    rw [List.length_take, List.length_drop, Text.length_bytes]
    omega
  rw [position_ofText, position_ofText, Nat.min_eq_left (Nat.le_of_lt (Nat.lt_of_lt_of_le before inside)),
    Nat.min_eq_left inside, cut]
  exact Position.compare_ofBytes_append more

/-- The line of an offset is the number of newlines among the bytes before it, and its column the
number of bytes behind the last of these; an offset behind the end counts as the end. The search
leads to a line that the text has, and that starts as many bytes before the offset as the column
says. None of these numbers is larger than the text. Later offsets have later positions, and an
offset is known by its position. -/
theorem position_exact (text : String) (offset : Nat) :
    let index := ofText text
    let place := min offset text.utf8ByteSize
    let before := (Text.bytes text).take place
    let position := index.position offset
    position.line = before.count Text.newline ∧
      position.column = (before.rtakeWhile (· ≠ Text.newline)).length ∧
      search index.starts place ≠ .error 0 ∧
      (∃ start, index.starts[position.line]? = some start ∧ start + position.column = place) ∧
      (∀ start ∈ index.starts, start ≤ text.utf8ByteSize) ∧ position.line ≤ place ∧
      (∀ later, offset < later → later ≤ text.utf8ByteSize →
        position.compare (index.position later) = .lt) ∧
      ∀ other, offset ≤ text.utf8ByteSize → other ≤ text.utf8ByteSize →
        index.position other = position → other = offset := by
  intro index place before position
  have exact : position = .ofBytes before := position_ofText text offset
  have whole : before.length = place := Text.length_take_bytes text offset
  have fewer : before.count Text.newline ≤ before.length := List.count_le_length
  obtain ⟨found, line, start⟩ := lineAt_ofText text place
  rw [show index.lineAt place = position.line from rfl] at start line
  have last := @getLastD_startsAfter before
  have apart : ∀ {first second}, first < second → second ≤ text.utf8ByteSize →
      index.position first ≠ index.position second := by
    intro first second earlier inside same
    have later := compare_position earlier inside
    rw [show (ofText text).position first = (ofText text).position second from same] at later
    simp [Position.compare] at later
  refine ⟨line, congrArg Position.column exact, found, ⟨_, start, ?_⟩,
    fun _ => le_size_of_mem_starts, ?_, fun later => compare_position, fun other inside inside' same => ?_⟩
  · rw [exact, last, whole]
  · exact line.trans_le (fewer.trans_eq whole)
  · rcases Nat.lt_trichotomy other offset with earlier | same | later
    · exact absurd same (apart earlier inside)
    · exact same
    · exact absurd same.symm (apart later inside')

end LineIndex

end Crosslink
