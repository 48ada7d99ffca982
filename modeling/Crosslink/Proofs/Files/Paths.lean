import Crosslink.Files.Path
import Crosslink.Proofs.Text.Bytes
import Mathlib.Data.List.Basic

/-! Paths below a root and what is spelled from there.

Only at its beginning can a path have a slash or a dot as a component. So if something
stands in front of it, what is below is spelled by names alone. If nothing does, then the
components of the path are spelled as a path themselves, and are read from it again. An
address is a text, so that it leads to the path that it was made from just if the names in
it are texts.
-/

set_option autoImplicit false

namespace Crosslink

namespace Path

variable {base path root : Path} {first name : FileName} {names rest pieces : List FileName}
  {uri : ResourceUri}

/-- A name that is a component wherever it stands in a path. -/
def IsInner (name : FileName) : Prop := name ≠ [] ∧ name ≠ [dot] ∧ slash ∉ name

/-! ### Components -/

theorem strip?_eq_some {α : Type} [DecidableEq α] {front whole others : List α} :
    strip? front whole = some others ↔ whole = front ++ others := by
  induction front generalizing whole with
  | nil => simp [strip?]
  | cons first rest ih =>
    cases whole with
    | nil => simp [strip?]
    | cons other others' => by_cases same : first = other <;> simp [strip?, same, ih, eq_comm]

theorem innerComponents_append (first second : List FileName) :
    innerComponents (first ++ second) = innerComponents first ++ innerComponents second :=
  List.filter_append _ _

theorem isInner_of_mem_innerComponents (slashless : ∀ piece ∈ pieces, slash ∉ piece)
    (member : name ∈ innerComponents pieces) : IsInner name := by
  obtain ⟨among, apart⟩ := List.mem_filter.mp member
  obtain ⟨present, dotless⟩ := of_decide_eq_true apart
  exact ⟨present, dotless, slashless name among⟩

theorem innerComponents_of_inner (inner : ∀ name ∈ names, IsInner name) :
    innerComponents names = names :=
  List.filter_eq_self.mpr fun name among =>
    decide_eq_true ⟨(inner name among).1, (inner name among).2.1⟩

theorem exists_cut (path : Path) : ∃ first rest, path.bytes.splitOn slash = first :: rest :=
  List.exists_cons_of_ne_nil (List.splitOn_ne_nil _ _)

theorem components_of_cut (present : path.bytes ≠ [])
    (cut : path.bytes.splitOn slash = first :: rest) :
    path.components = lead first :: innerComponents rest := by
  unfold components
  rw [if_neg present, cut]

theorem components_eq_nil : path.components = [] ↔ path.bytes = [] := by
  refine ⟨fun none_there => Classical.byContradiction fun present => ?_, fun same => ?_⟩
  · obtain ⟨first, rest, cut⟩ := exists_cut path
    cases (components_of_cut present cut).symm.trans none_there
  · unfold components
    rw [if_pos same]

/-- Behind a slash, a path only adds names. -/
theorem components_append (present : base.bytes ≠ []) (more : List UInt8) :
    (⟨base.bytes ++ slash :: more⟩ : Path).components =
      base.components ++ innerComponents (more.splitOn slash) := by
  obtain ⟨first, rest, cut⟩ := exists_cut base
  have whole : (base.bytes ++ slash :: more).splitOn slash = first :: (rest ++ more.splitOn slash) := by
    rw [List.splitOn_append_cons_self, cut, List.cons_append]
  rw [components_of_cut present cut, components_of_cut (by simp) whole, innerComponents_append,
    List.cons_append]

section Cut

variable {others : List FileName} (given : path.components = first :: others)
include given

theorem exists_cut_of_components : ∃ piece pieces, path.bytes.splitOn slash = piece :: pieces ∧
    first = lead piece ∧ others = innerComponents pieces := by
  have present : path.bytes ≠ [] := fun same => nomatch given.symm.trans (components_eq_nil.mpr same)
  obtain ⟨piece, pieces, cut⟩ := exists_cut path
  rw [components_of_cut present cut, List.cons.injEq] at given
  exact ⟨piece, pieces, cut, given.1.symm, given.2.symm⟩

/-- Behind the first component of a path stand names. -/
theorem isInner_of_components (member : name ∈ others) : IsInner name := by
  obtain ⟨piece, pieces, cut, _, rfl⟩ := exists_cut_of_components given
  refine isInner_of_mem_innerComponents (fun other among => ?_) member
  exact Text.not_mem_of_mem_splitOn (cut ▸ List.mem_cons_of_mem _ among)

/-- The first component of a path is a path of its own, with no other component. -/
theorem components_first : first ≠ [] ∧ (⟨first⟩ : Path).components = [first] := by
  obtain ⟨piece, pieces, cut, rfl, _⟩ := exists_cut_of_components given
  unfold lead
  split
  · exact ⟨by decide, rfl⟩
  · next notEmpty =>
    have slashless : slash ∉ piece := Text.not_mem_of_mem_splitOn (cut ▸ List.mem_cons_self)
    have own : piece.splitOn slash = [piece] := List.splitOn_eq_singleton slashless
    refine ⟨notEmpty, ?_⟩
    rw [components_of_cut notEmpty own, lead, if_neg notEmpty]
    rfl

end Cut

def ofNames (names : List FileName) : Path := ⟨[slash].intercalate names⟩

theorem ofNames_cons_cons (first second : FileName) (rest : List FileName) :
    ofNames (first :: second :: rest) = ⟨first ++ slash :: (ofNames (second :: rest)).bytes⟩ := by
  simp [ofNames]

theorem splitOn_ofNames (inner : ∀ name ∈ names, IsInner name) (some_there : names ≠ []) :
    (ofNames names).bytes.splitOn slash = names :=
  List.splitOn_intercalate slash (fun name among => (inner name among).2.2) some_there

/-- The components of a path are themselves spelled as a path with just these components. -/
theorem components_ofNames_components (path : Path) :
    (ofNames path.components).components = path.components := by
  cases given : path.components with
  | nil => rfl
  | cons first rest =>
    obtain ⟨present, alone⟩ := components_first given
    cases rest with
    | nil =>
      have same : ofNames [first] = ⟨first⟩ := by simp [ofNames]
      rw [same, alone]
    | cons second others =>
      have inner : ∀ name ∈ second :: others, IsInner name := fun _ => isInner_of_components given
      rw [ofNames_cons_cons, @components_append ⟨first⟩ present, alone,
        splitOn_ofNames inner (List.cons_ne_nil _ _), innerComponents_of_inner inner,
        List.singleton_append]

/-! ### Joined paths -/

def stem (base : Path) : List UInt8 :=
  if base.bytes = [] ∨ base.bytes.getLast? = some slash then base.bytes else base.bytes ++ [slash]

theorem join_of_relative (relative : path.isAbsolute = false) :
    base.join path = ⟨base.stem ++ path.bytes⟩ := by
  unfold join stem
  rw [if_neg (by simp [relative])]
  split <;> simp

theorem join_empty (path : Path) : (⟨[]⟩ : Path).join path = path := by
  unfold join
  split <;> simp

theorem isAbsolute_of_inner (inner : IsInner name) (more : List UInt8) :
    (⟨name ++ more⟩ : Path).isAbsolute = false := by
  unfold isAbsolute
  refine decide_eq_false fun top => inner.2.2 ?_
  obtain ⟨first, rest, rfl⟩ := List.exists_cons_of_ne_nil inner.1
  cases top
  exact List.mem_cons_self

theorem isAbsolute_ofNames (inner : ∀ name ∈ names, IsInner name) (some_there : names ≠ []) :
    (ofNames names).isAbsolute = false := by
  obtain ⟨first, rest, rfl⟩ := List.exists_cons_of_ne_nil some_there
  have name := inner first List.mem_cons_self
  cases rest with
  | nil => simpa [ofNames] using isAbsolute_of_inner name []
  | cons second others =>
    rw [ofNames_cons_cons]
    exact isAbsolute_of_inner name _

theorem stem_append_name (inner : IsInner name) (front : List UInt8) :
    (⟨front ++ name⟩ : Path).stem = front ++ name ++ [slash] := by
  unfold stem
  refine if_neg (not_or.mpr ⟨by simp [inner.1], fun closed => inner.2.2 ?_⟩)
  rw [List.getLast?_append_of_ne_nil _ inner.1] at closed
  exact List.mem_of_getLast? closed

theorem components_stem_append (present : base.bytes ≠ []) (more : List UInt8) :
    (⟨base.stem ++ more⟩ : Path).components =
      base.components ++ innerComponents (more.splitOn slash) := by
  unfold stem
  split
  · next closed =>
    obtain ⟨front, written⟩ := List.getLast?_eq_some_iff.mp (closed.resolve_left present)
    obtain rfl : base = ⟨front ++ [slash]⟩ := Path.mk.injEq .. ▸ written
    rw [List.append_assoc, List.singleton_append]
    by_cases top : front = []
    · rw [top, List.nil_append, components_of_cut (by simp)
        (List.splitOn_cons_eq_if_modifyHead ..)]
      rfl
    · have alone : (⟨front ++ [slash]⟩ : Path).components = (⟨front⟩ : Path).components := by
        rw [@components_append ⟨front⟩ top]
        exact List.append_nil _
      rw [@components_append ⟨front⟩ top, alone]
  · rw [List.append_assoc, List.singleton_append, components_append present]

theorem components_ofNames (inner : ∀ name ∈ names, IsInner name) :
    (ofNames names).components = names := by
  cases names with
  | nil => rfl
  | cons first rest =>
    have cut := splitOn_ofNames inner (List.cons_ne_nil first rest)
    have here := (inner first List.mem_cons_self).1
    have present : (ofNames (first :: rest)).bytes ≠ [] := by
      intro empty
      rw [empty] at cut
      exact here (List.cons.inj cut).1.symm
    rw [components_of_cut present cut, lead, if_neg here,
      innerComponents_of_inner fun name among => inner name (.tail _ among)]

theorem components_join_names (inner : ∀ name ∈ names, IsInner name) (some_there : names ≠ [])
    (base : Path) : (base.join (ofNames names)).components = base.components ++ names := by
  by_cases top : base.bytes = []
  · obtain rfl : base = ⟨[]⟩ := Path.mk.injEq .. ▸ top
    rw [join_empty, components_ofNames inner]
    rfl
  · rw [join_of_relative (isAbsolute_ofNames inner some_there), components_stem_append top,
      splitOn_ofNames inner some_there, innerComponents_of_inner inner]

theorem below?_eq_some : below? root path = some names ↔
    path.components = root.components ++ names := strip?_eq_some

theorem relativeUri?_eq_some : relativeUri? root path = some uri ↔ ∃ names, names ≠ [] ∧
    path.components = root.components ++ names ∧
      uri = ⟨"/".intercalate (names.map Text.lossy)⟩ := by
  unfold relativeUri?
  simp only [← below?_eq_some]
  cases below? root path with
  | none => simp
  | some names =>
    cases names with
    | nil =>
      simp only [reduceCtorEq, Option.some.injEq, false_iff, not_exists]
      rintro _ ⟨present, rfl, _⟩
      exact present rfl
    | cons first rest =>
      simp only [Option.some.injEq]
      constructor
      · rintro rfl
        exact ⟨_, List.cons_ne_nil first rest, rfl, rfl⟩
      · rintro ⟨_, _, rfl, rfl⟩
        rfl

/-! ### Addresses -/

theorem bytes_intercalate (texts : List String) :
    Text.bytes ("/".intercalate texts) = (ofNames (texts.map Text.bytes)).bytes := by
  induction texts with
  | nil => rfl
  | cons first rest ih =>
    cases rest with
    | nil => simp [ofNames]
    | cons second others =>
      have cut : (ofNames ((first :: second :: others).map Text.bytes)).bytes =
          Text.bytes first ++ slash :: (ofNames ((second :: others).map Text.bytes)).bytes :=
        congrArg Path.bytes (ofNames_cons_cons ..)
      rw [cut, ← ih, String.intercalate_cons_cons, Text.bytes_append, Text.bytes_append,
        List.append_assoc]
      rfl

/-- Names that are texts stand in an address as they are. -/
theorem ofText_names (valid : ∀ name ∈ names, name.toByteArray.IsValidUTF8) :
    ofText ("/".intercalate (names.map Text.lossy)) = ofNames names := by
  have same : (names.map Text.lossy).map Text.bytes = names := by
    rw [List.map_map]
    refine (List.map_congr_left fun name among => ?_).trans (List.map_id' _)
    exact Text.isText_iff_bytes_lossy.mp (valid name among)
  rw [ofText, bytes_intercalate, same]

theorem isText_of_mem_pieces {text : String} (member : name ∈ (ofText text).bytes.splitOn slash) :
    name.toByteArray.IsValidUTF8 := by
  have alone : String.utf8EncodeChar '/' = [slash] := by decide
  exact Text.isText_of_mem_splitOn alone (by decide) member

/-- The components of a text are texts. -/
theorem isText_of_mem_components {text : String} (member : name ∈ (ofText text).components) :
    name.toByteArray.IsValidUTF8 := by
  obtain ⟨first, rest, cut⟩ := exists_cut (ofText text)
  have pieces : ∀ piece ∈ first :: rest, piece.toByteArray.IsValidUTF8 := fun piece among =>
    isText_of_mem_pieces (cut ▸ among)
  by_cases present : (ofText text).bytes = []
  · rw [components_eq_nil.mpr present] at member
    cases member
  · rw [components_of_cut present cut] at member
    rcases List.mem_cons.mp member with rfl | later
    · unfold lead
      split
      · exact Text.isText_iff.mpr ⟨"/", by decide⟩
      · exact pieces first List.mem_cons_self
    · exact pieces name (.tail _ (List.mem_filter.mp later).1)

section Below

variable (below : below? root path = some names) (told : relativeUri? root path = some uri)
include below told

theorem uri_of_below : names ≠ [] ∧ uri = ⟨"/".intercalate (names.map Text.lossy)⟩ := by
  obtain ⟨others, some_there, whole, rfl⟩ := relativeUri?_eq_some.mp told
  cases below.symm.trans (below?_eq_some.mpr whole)
  exact ⟨some_there, rfl⟩

theorem components_pathOf (valid : ∀ name ∈ names, name.toByteArray.IsValidUTF8) :
    (root.pathOf uri).components = path.components := by
  obtain ⟨some_there, rfl⟩ := uri_of_below below told
  have whole := below?_eq_some.mp below
  unfold pathOf
  rw [ofText_names valid]
  cases top : root.components with
  | nil =>
    obtain rfl : root = ⟨[]⟩ := Path.mk.injEq .. ▸ components_eq_nil.mp top
    rw [top, List.nil_append] at whole
    rw [join_empty, ← whole, components_ofNames_components]
  | cons first rest =>
    rw [top, List.cons_append] at whole
    have inner : ∀ name ∈ names, IsInner name := fun name among =>
      isInner_of_components whole (List.mem_append_right rest among)
    rw [components_join_names inner some_there, top, whole, List.cons_append]

theorem isText_of_components_pathOf (same : (root.pathOf uri).components = path.components)
    (among : name ∈ names) : name.toByteArray.IsValidUTF8 := by
  rw [below?_eq_some.mp below] at same
  unfold pathOf at same
  by_cases absolute : (ofText uri.text).isAbsolute = true
  · rw [join, if_pos absolute] at same
    exact isText_of_mem_components (same ▸ List.mem_append_right _ among)
  · by_cases top : root.bytes = []
    · obtain rfl : root = ⟨[]⟩ := Path.mk.injEq .. ▸ top
      rw [join_empty] at same
      exact isText_of_mem_components (same ▸ List.mem_append_right _ among)
    · rw [join_of_relative (Bool.eq_false_iff.mpr absolute), components_stem_append top] at same
      rw [← List.append_cancel_left same] at among
      exact isText_of_mem_pieces (List.mem_filter.mp among).1

end Below

/-- The names that lead from a root to a path are texts. -/
def IsTextBelow (root path : Path) : Prop :=
  ∀ names ∈ below? root path, ∀ name ∈ names, name.toByteArray.IsValidUTF8

instance (root path : Path) : Decidable (IsTextBelow root path) :=
  inferInstanceAs (Decidable (∀ names ∈ below? root path, ∀ name ∈ names,
    name.toByteArray.IsValidUTF8))

/-- An address leads from the root to the path that it was made from just if all names on the way
are texts. -/
theorem components_pathOf_iff (told : relativeUri? root path = some uri) :
    (root.pathOf uri).components = path.components ↔ IsTextBelow root path := by
  obtain ⟨names, -, whole, -⟩ := relativeUri?_eq_some.mp told
  have below := below?_eq_some.mpr whole
  refine ⟨fun same others there name among => ?_, fun valid => ?_⟩
  · cases below.symm.trans there
    exact isText_of_components_pathOf below told same among
  · exact components_pathOf below told (valid names below)


/-! ### Names that lead down -/

theorem foldl_join (inner : ∀ name ∈ names, IsInner name) (some_there : names ≠ []) (base : Path) :
    names.foldl (fun path name => path.join ⟨name⟩) base = base.join (ofNames names) := by
  induction names generalizing base with
  | nil => exact absurd rfl some_there
  | cons first rest ih =>
    cases rest with
    | nil => simp [ofNames]
    | cons second others =>
      rw [List.forall_mem_cons] at inner
      have later := List.cons_ne_nil second others
      have alone : (⟨first⟩ : Path).isAbsolute = false := by
        simpa using isAbsolute_of_inner inner.1 []
      have relative := isAbsolute_of_inner inner.1 (slash :: (ofNames (second :: others)).bytes)
      rw [List.foldl_cons, ih inner.2 later, join_of_relative (isAbsolute_ofNames inner.2 later),
        join_of_relative alone, stem_append_name inner.1, ofNames_cons_cons,
        join_of_relative relative]
      simp

end Path

end Crosslink
