import Crosslink.Proofs.Types.Readings

/-! The grammar of the types language.

    Model    := Element*
    Element  := Package | Type
    Package  := 'package' Ident '{' Element* '}'
    Type     := 'type' Ident ('extends' QName)? ('implements' QName (',' QName)*)? ';'?
    QName    := Ident ('.' Ident)*

Each rule says which tokens can stand in front of a rest. What is read without a
fault is derived, and what is derived is read without a fault, as what it is.
-/

set_option autoImplicit false

namespace Crosslink.Types

/-- `('.' Ident)*` -/
inductive DerivesSegments : List Token → List String → List Token → Prop where
  | none (rest : List Token) : DerivesSegments rest [] rest
  | more {dot ident : Token} {tokens rest : List Token} {segments : List String}
      (is_dot : dot.kind = .dot) (is_ident : ident.kind = .ident)
      (later : DerivesSegments tokens segments rest) :
      DerivesSegments (dot :: ident :: tokens) (ident.text :: segments) rest

/-- `QName := Ident ('.' Ident)*` -/
inductive DerivesName : List Token → QualifiedName → List Token → Prop where
  | name {ident : Token} {tokens rest : List Token} {segments : List String}
      (is_ident : ident.kind = .ident) (later : DerivesSegments tokens segments rest) :
      DerivesName (ident :: tokens) ⟨ident.text :: segments⟩ rest

/-- `('extends' QName)?` -/
inductive DerivesExtended : List Token → Option QualifiedName → List Token → Prop where
  | none (rest : List Token) : DerivesExtended rest none rest
  | some {word : Token} {tokens rest : List Token} {name : QualifiedName}
      (is_word : word.kind = .extendsWord) (target : DerivesName tokens name rest) :
      DerivesExtended (word :: tokens) (some name) rest

/-- `QName (',' QName)*` -/
inductive DerivesNames : List Token → List QualifiedName → List Token → Prop where
  | one {tokens rest : List Token} {name : QualifiedName} (target : DerivesName tokens name rest) :
      DerivesNames tokens [name] rest
  | more {comma : Token} {tokens between rest : List Token} {name : QualifiedName}
      {names : List QualifiedName} (target : DerivesName tokens name (comma :: between))
      (is_comma : comma.kind = .comma) (later : DerivesNames between names rest) :
      DerivesNames tokens (name :: names) rest

/-- `('implements' QName (',' QName)*)?` -/
inductive DerivesImplemented : List Token → List QualifiedName → List Token → Prop where
  | none (rest : List Token) : DerivesImplemented rest [] rest
  | some {word : Token} {tokens rest : List Token} {names : List QualifiedName}
      (is_word : word.kind = .implementsWord) (targets : DerivesNames tokens names rest) :
      DerivesImplemented (word :: tokens) names rest

/-- `';'?` -/
inductive DerivesEnd : List Token → List Token → Prop where
  | none (rest : List Token) : DerivesEnd rest rest
  | some {semicolon : Token} {rest : List Token} (is_semicolon : semicolon.kind = .semicolon) :
      DerivesEnd (semicolon :: rest) rest

/-- `Type := 'type' Ident ('extends' QName)? ('implements' QName (',' QName)*)? ';'?` -/
inductive DerivesType : List Token → Element → List Token → Prop where
  | type {word ident : Token} {tokens afterExtended afterImplemented rest : List Token}
      {extended : Option QualifiedName} {implemented : List QualifiedName}
      (is_word : word.kind = .typeWord) (is_ident : ident.kind = .ident)
      (extending : DerivesExtended tokens extended afterExtended)
      (implementing : DerivesImplemented afterExtended implemented afterImplemented)
      (ending : DerivesEnd afterImplemented rest) :
      DerivesType (word :: ident :: tokens)
        (.type (some ident.text) extended implemented (covered (word :: ident :: tokens) rest)) rest

/-- `Element*`, with `Package := 'package' Ident '{' Element* '}'` -/
inductive DerivesElements : List Token → List Element → List Token → Prop where
  | none (rest : List Token) : DerivesElements rest [] rest
  | type {tokens between rest : List Token} {element : Element} {elements : List Element}
      (declared : DerivesType tokens element between)
      (later : DerivesElements between elements rest) :
      DerivesElements tokens (element :: elements) rest
  | package {word ident opening closing : Token} {tokens between rest : List Token}
      {inner elements : List Element}
      (is_word : word.kind = .packageWord) (is_ident : ident.kind = .ident)
      (is_opening : opening.kind = .leftBrace)
      (body : DerivesElements tokens inner (closing :: between))
      (is_closing : closing.kind = .rightBrace)
      (later : DerivesElements between elements rest) :
      DerivesElements (word :: ident :: opening :: tokens)
        (.package (some ident.text) inner (covered (word :: ident :: opening :: tokens) between) ::
          elements) rest

/-- `Model := Element*`, which all the tokens are. -/
def DerivesModel (tokens : List Token) (elements : List Element) : Prop :=
  DerivesElements tokens elements []

variable {tokens between rest : List Token} {kind : TokenKind}

/-! ### What is read without a fault is derived -/

theorem derives_readSegments (faultless : (readSegments tokens).faults = []) :
    DerivesSegments tokens (readSegments tokens).value (readSegments tokens).rest := by
  fun_induction readSegments tokens with
  | case1 => exact .none []
  | case2 token dot => cases faultless
  | case3 token other => exact .none [token]
  | case4 token following rest dot ident more ih => exact .more dot ident (ih faultless)
  | case5 token following rest dot other => cases faultless
  | case6 token following rest other => exact .none _

theorem derives_readQualifiedName? {name : Reading QualifiedName}
    (read : readQualifiedName? tokens = some name) (faultless : name.faults = []) :
    DerivesName tokens name.value name.rest := by
  obtain ⟨⟨first, rest⟩, found, rfl⟩ := Option.map_eq_some_iff.mp read
  obtain ⟨rfl, ident⟩ := next?_eq_some found
  exact .name ident (derives_readSegments faultless)

theorem derives_readExtended (faultless : (readExtended tokens).faults = []) :
    DerivesExtended tokens (readExtended tokens).value (readExtended tokens).rest := by
  unfold readExtended at faultless ⊢
  split
  · exact .none tokens
  · next word rest found =>
    obtain ⟨rfl, is_word⟩ := next?_eq_some found
    rw [found] at faultless
    dsimp only at faultless
    split at faultless
    · next name read => exact .some is_word (derives_readQualifiedName? read faultless)
    · cases faultless

theorem derives_readNamesWithin {bound : Nat} (enough : tokens.length < bound)
    (faultless : (readNamesWithin bound tokens).faults = []) :
    DerivesNames tokens (readNamesWithin bound tokens).value
      (readNamesWithin bound tokens).rest := by
  induction bound generalizing tokens with
  | zero => exact absurd enough (Nat.not_lt_zero _)
  | succ bound ih =>
    unfold readNamesWithin at faultless ⊢
    split
    · next missing =>
      rw [missing] at faultless
      cases faultless
    · next name read =>
      rw [read] at faultless
      dsimp only at faultless
      split
      · next last =>
        rw [last] at faultless
        exact .one (derives_readQualifiedName? read faultless)
      · next comma rest found =>
        rw [found] at faultless
        obtain ⟨first, others⟩ := List.append_eq_nil_iff.mp faultless
        obtain ⟨behind, is_comma⟩ := next?_eq_some found
        have derived := derives_readQualifiedName? read first
        have shorter := (way_readQualifiedName? read).suffix.length_le
        rw [behind] at derived shorter
        rw [List.length_cons] at shorter
        exact .more derived is_comma (ih (by omega) others)

theorem derives_readImplemented (faultless : (readImplemented tokens).faults = []) :
    DerivesImplemented tokens (readImplemented tokens).value (readImplemented tokens).rest := by
  unfold readImplemented at faultless ⊢
  split
  · exact .none tokens
  · next word rest found =>
    obtain ⟨rfl, is_word⟩ := next?_eq_some found
    rw [found] at faultless
    exact .some is_word (derives_readNamesWithin (Nat.lt_succ_self _) faultless)

theorem derives_skip : DerivesEnd tokens (skip .semicolon tokens) := by
  unfold skip
  split
  · next token rest found =>
    obtain ⟨rfl, is_semicolon⟩ := next?_eq_some found
    exact .some is_semicolon
  · exact .none tokens

theorem readName_faultless {expected : Expectation}
    (faultless : (readName expected tokens).faults = []) :
    ∃ ident rest, tokens = ident :: rest ∧ ident.kind = .ident ∧
      readName expected tokens = ⟨some ident.text, rest, []⟩ := by
  unfold readName at faultless ⊢
  split
  · next ident rest found =>
    obtain ⟨rfl, is_ident⟩ := next?_eq_some found
    exact ⟨ident, rest, rfl, is_ident, rfl⟩
  · next missing =>
    rw [missing] at faultless
    cases faultless

theorem require_faultless {expected : Expectation}
    (faultless : (require kind expected tokens).faults = []) :
    ∃ token rest, tokens = token :: rest ∧ token.kind = kind ∧
      require kind expected tokens = ⟨(), rest, []⟩ := by
  unfold require at faultless ⊢
  split
  · next token rest found =>
    obtain ⟨rfl, same⟩ := next?_eq_some found
    exact ⟨token, rest, rfl, same, rfl⟩
  · next missing =>
    rw [missing] at faultless
    cases faultless

theorem derives_readType {word : Token} {following : List Token} (is_word : word.kind = .typeWord)
    (faultless : (readType (word :: following)).faults = []) :
    DerivesType (word :: following) (readType (word :: following)).value
      (readType (word :: following)).rest := by
  unfold readType at faultless ⊢
  dsimp only [List.tail_cons] at faultless ⊢
  obtain ⟨others, implemented⟩ := List.append_eq_nil_iff.mp faultless
  obtain ⟨named, extended⟩ := List.append_eq_nil_iff.mp others
  obtain ⟨ident, rest, rfl, is_ident, read⟩ := readName_faultless named
  rw [read] at extended implemented ⊢
  exact .type is_word is_ident (derives_readExtended extended) (derives_readImplemented implemented)
    derives_skip

theorem ReadsElements.derives {reading : Reading (List Element)}
    (reads : ReadsElements tokens reading) (faultless : reading.faults = []) :
    DerivesElements tokens reading.value reading.rest := by
  induction reads with
  | nothing => exact .none []
  | closing kind => exact .none _
  | type kind later ih =>
    obtain ⟨declared, others⟩ := List.append_eq_nil_iff.mp faultless
    exact .type (derives_readType kind declared) (ih others)
  | @package word following name opened closed body more is_word named opens inner closes later
      first second =>
    simp only [List.append_eq_nil_iff] at faultless
    obtain ⟨⟨⟨⟨name_fine, open_fine⟩, body_fine⟩, close_fine⟩, others⟩ := faultless
    obtain ⟨ident, rest, rfl, is_ident, read⟩ := readName_faultless (named ▸ name_fine)
    cases named.symm.trans read
    obtain ⟨opening, rest, rfl, is_opening, read⟩ := require_faultless (opens ▸ open_fine)
    cases opens.symm.trans read
    obtain ⟨closing, rest, left, is_closing, read⟩ := require_faultless (closes ▸ close_fine)
    cases closes.symm.trans read
    have derived := first body_fine
    rw [left] at derived
    exact .package is_word is_ident is_opening derived is_closing (second others)
  | skipped kind later ih => cases faultless

theorem ReadsModel.derives {reading : Reading (List Element)} (reads : ReadsModel tokens reading)
    (faultless : reading.faults = []) : DerivesModel tokens reading.value := by
  cases reads with
  | whole reads all =>
    have derived := reads.derives faultless
    rwa [all] at derived
  | across reads left kind later => simp at faultless

/-! ### What is derived is read without a fault -/

def Begins (kinds : List TokenKind) (tokens : List Token) : Prop :=
  ∀ token ∈ tokens.head?, token.kind ∈ kinds

def elementEnds : List TokenKind := [.typeWord, .packageWord, .rightBrace]

variable {kinds : List TokenKind} {element : Element} {elements : List Element}

theorem Begins.wider (begins : Begins kinds tokens) {others : List TokenKind}
    (more : kinds ⊆ others) : Begins others tokens :=
  fun token first => more (begins token first)

theorem next?_of_begins (begins : Begins kinds tokens) (other : kind ∉ kinds) :
    next? kind tokens = none := by
  cases tokens with
  | nil => rfl
  | cons first rest =>
    simp only [next?]
    rw [if_neg]
    rintro rfl
    exact other (begins first rfl)

theorem begins_end (ending : DerivesEnd tokens rest) (follows : Begins kinds rest) :
    Begins (.semicolon :: kinds) tokens := by
  cases ending with
  | none => exact follows.wider (List.subset_cons_self _ _)
  | some is_semicolon =>
    rintro _ ⟨⟩
    exact is_semicolon ▸ List.mem_cons_self

theorem begins_implemented {names : List QualifiedName}
    (implementing : DerivesImplemented tokens names rest) (follows : Begins kinds rest) :
    Begins (.implementsWord :: kinds) tokens := by
  cases implementing with
  | none => exact follows.wider (List.subset_cons_self _ _)
  | some is_word _ =>
    rintro _ ⟨⟩
    exact is_word ▸ List.mem_cons_self

theorem begins_elements (derives : DerivesElements tokens elements rest)
    (follows : Begins elementEnds rest) : Begins elementEnds tokens := by
  cases derives with
  | none => exact follows
  | type declared later =>
    cases declared with
    | type is_word _ _ _ _ =>
      rintro _ ⟨⟩
      rw [is_word]
      decide
  | package is_word _ _ _ _ _ =>
    rintro _ ⟨⟩
    rw [is_word]
    decide

theorem readSegments_of_derives {segments : List String}
    (derives : DerivesSegments tokens segments rest) (ends : next? .dot rest = none) :
    readSegments tokens = ⟨segments, rest, []⟩ := by
  induction derives with
  | none rest =>
    cases rest with
    | nil => rfl
    | cons first others =>
      have other : first.kind ≠ .dot := next?_eq_none ends first rfl
      cases others with
      | nil => rw [readSegments, if_neg other]
      | cons second others => rw [readSegments, if_neg other]
  | more is_dot is_ident later ih => rw [readSegments, if_pos is_dot, if_pos is_ident, ih ends]

theorem readQualifiedName?_of_derives {name : QualifiedName}
    (derives : DerivesName tokens name rest) (ends : next? .dot rest = none) :
    readQualifiedName? tokens = some ⟨name, rest, []⟩ := by
  cases derives with
  | name is_ident later =>
    simp [readQualifiedName?, next?, is_ident, readSegments_of_derives later ends]

theorem readExtended_of_derives {extended : Option QualifiedName}
    (derives : DerivesExtended tokens extended rest) (ends : next? .dot rest = none)
    (ends' : next? .extendsWord rest = none) : readExtended tokens = ⟨extended, rest, []⟩ := by
  cases derives with
  | none => simp [readExtended, ends']
  | some is_word target =>
    simp [readExtended, next?, is_word, readQualifiedName?_of_derives target ends]

theorem readNamesWithin_of_derives {names : List QualifiedName} {bound : Nat}
    (derives : DerivesNames tokens names rest) (ends : next? .dot rest = none)
    (ends' : next? .comma rest = none) (enough : tokens.length < bound) :
    readNamesWithin bound tokens = ⟨names, rest, []⟩ := by
  induction derives generalizing bound with
  | one target =>
    cases bound with
    | zero => exact absurd enough (Nat.not_lt_zero _)
    | succ bound =>
      simp [readNamesWithin, readQualifiedName?_of_derives target ends, ends']
  | @more comma tokens between rest name names target is_comma later ih =>
    cases bound with
    | zero => exact absurd enough (Nat.not_lt_zero _)
    | succ bound =>
      have read := readQualifiedName?_of_derives target (by simp [next?, is_comma])
      have shorter := (way_readQualifiedName? read).suffix.length_le
      rw [List.length_cons] at shorter
      have others := @ih bound ends ends' (by omega)
      simp [readNamesWithin, read, next?, is_comma, others]

theorem readImplemented_of_derives {names : List QualifiedName}
    (derives : DerivesImplemented tokens names rest) (ends : next? .dot rest = none)
    (ends' : next? .comma rest = none) (ends'' : next? .implementsWord rest = none) :
    readImplemented tokens = ⟨names, rest, []⟩ := by
  cases derives with
  | none => simp [readImplemented, ends'']
  | some is_word targets =>
    have read := readNamesWithin_of_derives targets ends ends' (Nat.lt_succ_self _)
    simp [readImplemented, next?, is_word, read]

theorem skip_of_derives (derives : DerivesEnd tokens rest) (ends : next? .semicolon rest = none) :
    skip .semicolon tokens = rest := by
  cases derives with
  | none => simp [skip, ends]
  | some is_semicolon => simp [skip, next?, is_semicolon]

-- Each part is read as far as it goes, and it goes no further because no token that can follow it
-- could be taken for more of it.
theorem readType_of_derives (derives : DerivesType tokens element rest)
    (follows : Begins elementEnds rest) : readType tokens = ⟨element, rest, []⟩ := by
  cases derives with
  | @type word ident tokens afterExtended afterImplemented rest extended implemented is_word
      is_ident extending implementing ending =>
    have last := begins_end ending follows
    have middle := begins_implemented implementing last
    have named : readName .typeName (ident :: tokens) = ⟨some ident.text, tokens, []⟩ := by
      simp [readName, next?, is_ident]
    have extend := readExtended_of_derives extending (next?_of_begins middle (by decide))
      (next?_of_begins middle (by decide))
    have implement := readImplemented_of_derives implementing (next?_of_begins last (by decide))
      (next?_of_begins last (by decide)) (next?_of_begins last (by decide))
    have skipped := skip_of_derives ending (next?_of_begins follows (by decide))
    simp only [readType, List.tail_cons, named, extend, implement, skipped, List.append_nil]

theorem readElementsWithin_of_derives {bound : Nat} (derives : DerivesElements tokens elements rest)
    (stops : Begins [.rightBrace] rest) (enough : tokens.length ≤ bound) :
    readElementsWithin bound tokens = ⟨elements, rest, []⟩ := by
  have ends : ∀ {rest : List Token}, Begins [.rightBrace] rest → Begins elementEnds rest :=
    fun stops => stops.wider (by decide)
  induction derives generalizing bound with
  | none rest =>
    cases bound with
    | zero =>
      rw [List.eq_nil_of_length_eq_zero (Nat.le_zero.mp enough)]
      rfl
    | succ bound =>
      cases rest with
      | nil => rfl
      | cons first others =>
        have brace : first.kind = .rightBrace := List.mem_singleton.mp (stops first rfl)
        rw [readElementsWithin, if_pos brace]
  | @type tokens between rest element elements declared later ih =>
    have read := readType_of_derives declared (begins_elements later (ends stops))
    cases declared with
    | @type word ident tokens afterExtended afterImplemented rest extended implemented is_word
        is_ident extending implementing ending =>
      cases bound with
      | zero => cases enough
      | succ bound =>
        have shorter := (way_readType word (ident :: tokens)).suffix.length_le
        rw [read] at shorter
        rw [List.length_cons] at enough
        have others := @ih bound stops (by dsimp only at shorter; omega)
        simp only [readElementsWithin, is_word, read, others]
        rfl
  | @package word ident opening closing tokens between rest inner elements is_word is_ident
      is_opening body is_closing later first second =>
    cases bound with
    | zero => cases enough
    | succ bound =>
      have closes : Begins [.rightBrace] (closing :: between) := by
        rintro _ ⟨⟩
        exact is_closing ▸ List.mem_cons_self
      simp only [List.length_cons] at enough
      have read := @first bound closes (by omega)
      have within : tokens.length ≤ bound := by omega
      have shorter := (readsElements_of_within within).way.suffix.length_le
      rw [read, List.length_cons] at shorter
      have others := @second bound stops (by omega)
      simp [readElementsWithin, is_word, readName, next?, is_ident, require, is_opening, read,
        is_closing, others]

/-- The tokens of a text are read without a fault exactly if they are derived, and then the elements
read are those they are derived as. -/
theorem derivesModel_iff : DerivesModel tokens elements ↔
    (readModel tokens).faults = [] ∧ (readModel tokens).value = elements := by
  constructor
  · intro derives
    have read := readElementsWithin_of_derives derives nofun (Nat.le_refl _)
    have whole : readModel tokens = ⟨elements, [], []⟩ := by
      simp [readModel, readModelWithin, read]
    simp [whole]
  · rintro ⟨faultless, rfl⟩
    exact (readsModel tokens).derives faultless

end Crosslink.Types
