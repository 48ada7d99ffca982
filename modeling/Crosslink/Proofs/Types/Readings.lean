import Crosslink.Types.Reading

/-! How elements are read.

Every reader goes forward through the tokens, and notes a fault where it stands.
Reading elements ends at a closing brace or at the end, whatever the tokens are,
and reading a text ends at its end.
-/

set_option autoImplicit false

namespace Crosslink.Types

/-- A way from tokens to the tokens behind them, with faults noted at tokens on the way. -/
inductive Way : List Token → List Fault → List Token → Prop where
  | onward {tokens rest : List Token} (suffix : rest <:+ tokens) : Way tokens [] rest
  | noted {tokens here rest : List Token} {faults : List Fault} (suffix : here <:+ tokens)
      (expected : Expectation) (way : Way here faults rest) :
      Way tokens (unmet expected here :: faults) rest

variable {tokens between rest : List Token} {faults more : List Fault} {kind : TokenKind}
  {token : Token}

namespace Way

theorem refl (tokens : List Token) : Way tokens [] tokens := .onward (List.suffix_refl tokens)

theorem cons (way : Way tokens faults rest) : Way (token :: tokens) faults rest := by
  cases way with
  | onward suffix => exact .onward (suffix.trans (List.suffix_cons token tokens))
  | noted suffix expected way =>
    exact .noted (suffix.trans (List.suffix_cons token tokens)) expected way

theorem suffix (way : Way tokens faults rest) : rest <:+ tokens := by
  induction way with
  | onward suffix => exact suffix
  | noted suffix _ _ ih => exact ih.trans suffix

theorem of_suffix (suffix : between <:+ tokens) (way : Way between faults rest) :
    Way tokens faults rest := by
  cases way with
  | onward further => exact .onward (further.trans suffix)
  | noted further expected way => exact .noted (further.trans suffix) expected way

theorem trans (first : Way tokens faults between) (second : Way between more rest) :
    Way tokens (faults ++ more) rest := by
  induction first with
  | onward suffix => exact second.of_suffix suffix
  | noted suffix expected _ ih => exact .noted suffix expected (ih second)

theorem here (expected : Expectation) (tokens : List Token) :
    Way tokens [unmet expected tokens] tokens :=
  .noted (List.suffix_refl tokens) expected (.refl tokens)

end Way

/-! ### The parts of elements -/

theorem next?_eq_some (found : next? kind tokens = some (token, rest)) :
    tokens = token :: rest ∧ token.kind = kind := by
  cases tokens with
  | nil => cases found
  | cons first others =>
    simp only [next?] at found
    split at found
    · next same =>
      cases found
      exact ⟨rfl, same⟩
    · cases found

theorem next?_eq_none (missing : next? kind tokens = none) :
    ∀ token ∈ tokens.head?, token.kind ≠ kind := by
  cases tokens with
  | nil => exact nofun
  | cons first others =>
    simp only [next?] at missing
    split at missing
    · cases missing
    · next other =>
      rintro _ ⟨⟩
      exact other

theorem way_readName (expected : Expectation) (tokens : List Token) :
    Way tokens (readName expected tokens).faults (readName expected tokens).rest := by
  unfold readName
  split
  · next token rest found =>
    obtain ⟨rfl, _⟩ := next?_eq_some found
    exact (Way.refl rest).cons
  · exact .here expected tokens

theorem way_readSegments (tokens : List Token) :
    Way tokens (readSegments tokens).faults (readSegments tokens).rest := by
  fun_induction readSegments tokens with
  | case1 => exact .refl []
  | case2 token dot => exact (Way.here .segment []).cons
  | case3 token other => exact .refl [token]
  | case4 token following rest dot ident more ih => exact ih.cons.cons
  | case5 token following rest dot other => exact (Way.here .segment (following :: rest)).cons
  | case6 token following rest other => exact .refl (token :: following :: rest)

theorem way_readQualifiedName? {name : Reading QualifiedName}
    (read : readQualifiedName? tokens = some name) : Way tokens name.faults name.rest := by
  obtain ⟨⟨first, rest⟩, found, rfl⟩ := Option.map_eq_some_iff.mp read
  obtain ⟨rfl, _⟩ := next?_eq_some found
  exact (way_readSegments rest).cons

theorem way_readExtended (tokens : List Token) :
    Way tokens (readExtended tokens).faults (readExtended tokens).rest := by
  unfold readExtended
  split
  · exact .refl tokens
  · next word rest found =>
    obtain ⟨rfl, _⟩ := next?_eq_some found
    split
    · next name read => exact (way_readQualifiedName? read).cons
    · exact (Way.here .extendedName rest).cons

-- The number of names does not matter here: where it is used up, reading just ends.
theorem way_readNamesWithin (bound : Nat) (tokens : List Token) :
    Way tokens (readNamesWithin bound tokens).faults (readNamesWithin bound tokens).rest := by
  induction bound generalizing tokens with
  | zero => exact .refl tokens
  | succ bound ih =>
    unfold readNamesWithin
    split
    · exact .here .implementedName tokens
    · next name read =>
      have first := way_readQualifiedName? read
      split
      · exact first
      · next comma rest found =>
        obtain ⟨behind, _⟩ := next?_eq_some found
        rw [behind] at first
        exact first.trans (ih rest).cons

theorem way_readImplemented (tokens : List Token) :
    Way tokens (readImplemented tokens).faults (readImplemented tokens).rest := by
  unfold readImplemented
  split
  · exact .refl tokens
  · next word rest found =>
    obtain ⟨rfl, _⟩ := next?_eq_some found
    exact (way_readNamesWithin _ rest).cons

theorem suffix_skip (kind : TokenKind) (tokens : List Token) : skip kind tokens <:+ tokens := by
  unfold skip
  split
  · next token rest found =>
    obtain ⟨rfl, _⟩ := next?_eq_some found
    exact List.suffix_cons token rest
  · exact List.suffix_refl tokens

theorem way_require (kind : TokenKind) (expected : Expectation) (tokens : List Token) :
    Way tokens (require kind expected tokens).faults (require kind expected tokens).rest := by
  unfold require
  split
  · next token rest found =>
    obtain ⟨rfl, _⟩ := next?_eq_some found
    exact (Way.refl rest).cons
  · exact .here expected tokens

/-- Reading a type passes at least the word that opens it. -/
theorem way_readType (token : Token) (following : List Token) :
    Way following (readType (token :: following)).faults (readType (token :: following)).rest := by
  have name := way_readName .typeName following
  have extended := way_readExtended (readName .typeName following).rest
  have implemented := way_readImplemented (readExtended (readName .typeName following).rest).rest
  have last := suffix_skip .semicolon
    (readImplemented (readExtended (readName .typeName following).rest).rest).rest
  have way := ((name.trans extended).trans implemented).trans (.onward last)
  rwa [List.append_nil] at way

theorem suffix_recover (tokens : List Token) : recover tokens <:+ tokens := List.dropWhile_suffix _

/-! ### Elements -/

inductive ReadsElements : List Token → Reading (List Element) → Prop where
  | nothing : ReadsElements [] ⟨[], [], []⟩
  | closing {brace : Token} {rest : List Token} (kind : brace.kind = .rightBrace) :
      ReadsElements (brace :: rest) ⟨[], brace :: rest, []⟩
  | type {word : Token} {following : List Token} {more : Reading (List Element)}
      (kind : word.kind = .typeWord)
      (later : ReadsElements (readType (word :: following)).rest more) :
      ReadsElements (word :: following)
        ⟨(readType (word :: following)).value :: more.value, more.rest,
          (readType (word :: following)).faults ++ more.faults⟩
  | package {word : Token} {following : List Token} {name : Reading (Option String)}
      {opened closed : Reading Unit} {body more : Reading (List Element)}
      (kind : word.kind = .packageWord)
      (named : readName .packageName following = name)
      (opens : require .leftBrace .openingBrace name.rest = opened)
      (inner : ReadsElements opened.rest body)
      (closes : require .rightBrace .closingBrace body.rest = closed)
      (later : ReadsElements closed.rest more) :
      ReadsElements (word :: following)
        ⟨.package name.value body.value (covered (word :: following) closed.rest) :: more.value,
          more.rest, name.faults ++ opened.faults ++ body.faults ++ closed.faults ++ more.faults⟩
  | skipped {other : Token} {following : List Token} {more : Reading (List Element)}
      (kind : opensElement other = false ∧ other.kind ≠ .rightBrace)
      (later : ReadsElements (recover following) more) :
      ReadsElements (other :: following)
        ⟨more.value, more.rest, unmet .element (other :: following) :: more.faults⟩

namespace ReadsElements

variable {reading : Reading (List Element)}

theorem way (reads : ReadsElements tokens reading) : Way tokens reading.faults reading.rest := by
  induction reads with
  | nothing => exact .refl []
  | closing kind => exact .refl _
  | type kind later ih => exact (way_readType _ _).cons.trans ih
  | @package word following name opened closed body more kind named opens inner closes later first
      second =>
    have named := named ▸ way_readName .packageName following
    have opens := opens ▸ way_require .leftBrace .openingBrace name.rest
    have closes := closes ▸ way_require .rightBrace .closingBrace body.rest
    exact ((((named.trans opens).trans first).trans closes).trans second).cons
  | @skipped other following more kind later ih =>
    exact .noted (List.suffix_refl _) .element (ih.of_suffix (suffix_recover following)).cons

/-- Reading ends at a closing brace or at the end. -/
theorem stops (reads : ReadsElements tokens reading) :
    ∀ token ∈ reading.rest.head?, token.kind = .rightBrace := by
  induction reads with
  | nothing => exact nofun
  | closing kind =>
    rintro _ ⟨⟩
    exact kind
  | type _ _ ih => exact ih
  | package _ _ _ _ _ _ _ ih => exact ih
  | skipped _ _ ih => exact ih

end ReadsElements

-- Each element takes one token at least, so that the bound is never felt.
theorem readsElements_of_within {bound : Nat} (enough : tokens.length ≤ bound) :
    ReadsElements tokens (readElementsWithin bound tokens) := by
  induction bound generalizing tokens with
  | zero =>
    rw [List.eq_nil_of_length_eq_zero (Nat.le_zero.mp enough)]
    exact .nothing
  | succ bound ih =>
    cases tokens with
    | nil => exact .nothing
    | cons token following =>
      have within : ∀ {rest : List Token}, rest <:+ following → rest.length ≤ bound := by
        intro rest suffix
        have shorter := suffix.length_le
        rw [List.length_cons] at enough
        omega
      rw [readElementsWithin]
      split
      · next kind => exact .closing kind
      split
      · next kind => exact .type kind (ih (within (way_readType token following).suffix))
      split
      · next kind =>
        have opened := ((way_readName .packageName following).trans
          (way_require .leftBrace .openingBrace _)).suffix
        have inner := ih (within opened)
        have closed := (inner.way.trans (way_require .rightBrace .closingBrace _)).suffix
        exact .package kind rfl rfl inner rfl (ih (within (closed.trans opened)))
      · next other type package =>
        exact .skipped ⟨by simp [opensElement, type, package], other⟩
          (ih (within (suffix_recover following)))

/-! ### Texts -/

inductive ReadsModel : List Token → Reading (List Element) → Prop where
  | whole {tokens : List Token} {read : Reading (List Element)} (reads : ReadsElements tokens read)
      (all : read.rest = []) : ReadsModel tokens read
  | across {tokens rest : List Token} {brace : Token} {read more : Reading (List Element)}
      (reads : ReadsElements tokens read) (left : read.rest = brace :: rest)
      (kind : brace.kind = .rightBrace) (later : ReadsModel rest more) :
      ReadsModel tokens ⟨read.value ++ more.value, more.rest,
        read.faults ++ unmet .noClosingBrace (brace :: rest) :: more.faults⟩

namespace ReadsModel

variable {reading : Reading (List Element)}

theorem ends (reads : ReadsModel tokens reading) : reading.rest = [] := by
  induction reads with
  | whole _ all => exact all
  | across _ _ _ _ ih => exact ih

theorem way (reads : ReadsModel tokens reading) : Way tokens reading.faults reading.rest := by
  induction reads with
  | whole reads _ => exact reads.way
  | across reads left _ _ ih =>
    have first := reads.way
    rw [left] at first
    exact first.trans (.noted (List.suffix_refl _) .noClosingBrace ih.cons)

end ReadsModel

theorem readsModel_of_within {bound : Nat} (enough : tokens.length < bound) :
    ReadsModel tokens (readModelWithin bound tokens) := by
  induction bound generalizing tokens with
  | zero => exact absurd enough (Nat.not_lt_zero _)
  | succ bound ih =>
    have reads := readsElements_of_within (Nat.le_refl tokens.length)
    rw [readModelWithin]
    dsimp only
    split
    · next all => exact .whole reads all
    · next brace rest left =>
      have shorter := reads.way.suffix.length_le
      rw [left, List.length_cons] at shorter
      exact .across reads left (reads.stops brace (by rw [left]; rfl)) (ih (by omega))

theorem readsModel (tokens : List Token) : ReadsModel tokens (readModel tokens) :=
  readsModel_of_within (Nat.lt_succ_self _)

end Crosslink.Types
