import Crosslink.Proofs.Types.Comments
import Crosslink.Proofs.Types.Tokens
import Mathlib.Computability.Language
import Mathlib.Data.List.TakeWhile
import Mathlib.Tactic.FinCases

/-! The patterns of tokens.

Each kind of token has a pattern. From what is left of a text, the longest part
that matches any of them is cut off, and an invalid token only where none
matches. So the tokens cover the text, each in its place.
-/

set_option autoImplicit false

namespace Crosslink.Types

open scoped Computability

variable {accepts : Char → Bool} {language : Language Char} {kind other : TokenKind}
  {c : Char} {rest text body more taken : List Char} {size : Nat}

/-! ### Patterns -/

def oneOf (accepts : Char → Bool) : Language Char := {text | ∃ c, accepts c = true ∧ text = [c]}

def exactly (word : String) : Language Char := {word.toList}

/-- A part of a block comment: a character that is no asterisk, or an asterisk with a character
behind it that is no slash. -/
def commentPart : Language Char := oneOf (· ≠ '*') + exactly "*" * oneOf (· ≠ '/')

def commentRest : Language Char := commentPart∗ * exactly "*/"

def pattern : TokenKind → Language Char
  | .whitespace => oneOf isBlank * (oneOf isBlank)∗
  | .lineComment => exactly "//" * (oneOf (· ≠ '\n'))∗
  | .blockComment => exactly "/*" * commentRest
  | .packageWord => exactly "package"
  | .typeWord => exactly "type"
  | .extendsWord => exactly "extends"
  | .implementsWord => exactly "implements"
  | .ident => oneOf isNameStart * (oneOf isNameChar)∗
  | .comma => exactly ","
  | .dot => exactly "."
  | .leftBrace => exactly "\x7b"
  | .rightBrace => exactly "\x7d"
  | .semicolon => exactly ";"
  | .invalid => 0

theorem mem_exactly {word : String} : text ∈ exactly word ↔ text = word.toList := Iff.rfl

theorem mem_exactly_mul {word : String} :
    text ∈ exactly word * language ↔ ∃ rest ∈ language, text = word.toList ++ rest := by
  simp [Language.mem_mul, mem_exactly, eq_comm]

theorem mem_oneOf_mul :
    text ∈ oneOf accepts * language ↔ ∃ c, accepts c = true ∧ ∃ rest ∈ language, text = c :: rest := by
  constructor
  · rintro ⟨_, ⟨c, accepted, rfl⟩, rest, member, rfl⟩
    exact ⟨c, accepted, rest, member, rfl⟩
  · rintro ⟨c, accepted, rest, member, rfl⟩
    exact ⟨[c], ⟨c, accepted, rfl⟩, rest, member, rfl⟩

theorem cons_mem_oneOf_mul :
    c :: rest ∈ oneOf accepts * language ↔ accepts c = true ∧ rest ∈ language := by
  simp [mem_oneOf_mul]

theorem mem_kstar_oneOf : text ∈ (oneOf accepts)∗ ↔ ∀ c ∈ text, accepts c = true := by
  induction text with
  | nil => simp [Language.nil_mem_kstar]
  | cons c rest ih =>
    rw [← Language.one_add_self_mul_kstar_eq_kstar, Language.mem_add, Language.mem_one,
      cons_mem_oneOf_mul, ih, List.forall_mem_cons]
    simp

/-- A comment goes on with a part of it, unless it is closed here. -/
theorem mem_commentRest : text ∈ commentRest ↔
    (∃ c rest, text = c :: rest ∧ c ≠ '*' ∧ rest ∈ commentRest) ∨
      (∃ c rest, text = '*' :: c :: rest ∧ c ≠ '/' ∧ rest ∈ commentRest) ∨ text = ['*', '/'] := by
  have unfolded : commentRest = commentPart * commentRest + exactly "*/" := by
    refine (Language.self_eq_mul_add_iff ?_).mpr rfl
    rw [commentPart, Language.mem_add, mem_exactly_mul]
    rintro (⟨_, _, none⟩ | ⟨_, _, none⟩) <;> cases none
  conv_lhs => rw [unfolded, commentPart, add_mul, mul_assoc, Language.mem_add, Language.mem_add,
    mem_oneOf_mul, mem_exactly_mul, mem_exactly, or_assoc]
  refine or_congr ?_ (or_congr ?_ Iff.rfl)
  · constructor
    · rintro ⟨c, apart, rest, member, rfl⟩
      exact ⟨c, rest, rfl, by simpa using apart, member⟩
    · rintro ⟨c, rest, rfl, apart, member⟩
      exact ⟨c, by simpa using apart, rest, member, rfl⟩
  · constructor
    · rintro ⟨_, inner, rfl⟩
      obtain ⟨c, apart, rest, member, rfl⟩ := mem_oneOf_mul.mp inner
      exact ⟨c, rest, rfl, by simpa using apart, member⟩
    · rintro ⟨c, rest, rfl, apart, member⟩
      exact ⟨c :: rest, cons_mem_oneOf_mul.mpr ⟨by simpa using apart, member⟩, rfl⟩

/-! ### What is cut off -/

/-- What the pattern of a kind matches at the front of a text, where no pattern matches more. No
other kind matches as much, but that a keyword is also a name. -/
structure IsLongestMatch (kind : TokenKind) (text ahead : List Char) : Prop where
  matched : text ∈ pattern kind
  front : text <+: ahead
  longest : ∀ other taken, taken ∈ pattern other → taken <+: ahead → taken.length ≤ text.length
  preferred : ∀ other, text ∈ pattern other → other = kind ∨ other = .ident ∧ kind.isKeyword = true

/-- What is cut off is the longest match, or is invalid where nothing matches. -/
def IsCut (kind : TokenKind) (text ahead : List Char) : Prop :=
  if kind = .invalid then ∀ other, ∀ taken ∈ pattern other, ¬ taken <+: ahead
  else IsLongestMatch kind text ahead

def kindsAt (c : Char) : List TokenKind :=
  if isBlank c then [.whitespace]
  else if isNameStart c then [.packageWord, .typeWord, .extendsWord, .implementsWord, .ident]
  else if c = ',' then [.comma]
  else if c = '.' then [.dot]
  else if c = '{' then [.leftBrace]
  else if c = '}' then [.rightBrace]
  else if c = ';' then [.semicolon]
  else if c = '/' then [.lineComment, .blockComment]
  else []

theorem not_isBlank_of_isNameStart (start : isNameStart c = true) : isBlank c = false := by
  by_contra blank
  simp only [isBlank, Bool.not_eq_false, Bool.or_eq_true, decide_eq_true_eq] at blank
  rcases blank with ((rfl | rfl) | rfl) | rfl <;> exact absurd start (by decide)

theorem exists_cons_of_mem_pattern (matched : text ∈ pattern kind) :
    ∃ c rest, text = c :: rest ∧ kind ∈ kindsAt c := by
  cases kind with
  | whitespace =>
    obtain ⟨c, blank, rest, _, rfl⟩ := mem_oneOf_mul.mp matched
    exact ⟨c, rest, rfl, by simp [kindsAt, blank]⟩
  | ident =>
    obtain ⟨c, start, rest, _, rfl⟩ := mem_oneOf_mul.mp matched
    exact ⟨c, rest, rfl, by simp [kindsAt, start, not_isBlank_of_isNameStart start]⟩
  | lineComment | blockComment =>
    obtain ⟨rest, _, rfl⟩ := mem_exactly_mul.mp matched
    exact ⟨_, _, rfl, by decide⟩
  | invalid => exact absurd matched (Language.notMem_zero text)
  | _ =>
    obtain rfl := mem_exactly.mp matched
    exact ⟨_, _, rfl, by decide⟩

theorem mem_kindsAt (matched : c :: rest ∈ pattern kind) : kind ∈ kindsAt c := by
  obtain ⟨_, _, same, listed⟩ := exists_cons_of_mem_pattern matched
  cases same
  exact listed

theorem kind_eq_of_single (listed : kindsAt c = [kind]) (matched : c :: rest ∈ pattern other) :
    other = kind :=
  List.mem_singleton.mp (listed ▸ mem_kindsAt matched)

/-- A match is the longest one if no other match behind its first character is longer. -/
theorem isLongestMatch_cons (matched : c :: rest.take size ∈ pattern kind)
    (longest : ∀ other taken, taken <+: rest → c :: taken ∈ pattern other → taken.length ≤ size)
    (preferred : ∀ other, c :: rest.take size ∈ pattern other →
      other = kind ∨ other = .ident ∧ kind.isKeyword = true) :
    IsLongestMatch kind (c :: rest.take size) (c :: rest) where
  matched := matched
  front := List.cons_prefix_cons.mpr ⟨rfl, List.take_prefix size rest⟩
  longest := by
    intro other taken found front
    obtain ⟨d, taken, rfl, _⟩ := exists_cons_of_mem_pattern found
    obtain ⟨rfl, inner⟩ := List.cons_prefix_cons.mp front
    have fits := longest other taken inner found
    have inside := inner.length_le
    simp only [List.length_cons, List.length_take]
    omega
  preferred := preferred

theorem not_isPrefix_cons
    (unmatched : ∀ other taken, taken <+: rest → c :: taken ∉ pattern other) :
    ∀ other, ∀ taken ∈ pattern other, ¬ taken <+: c :: rest := by
  intro other taken found front
  obtain ⟨d, taken, rfl, _⟩ := exists_cons_of_mem_pattern found
  obtain ⟨rfl, inner⟩ := List.cons_prefix_cons.mp front
  exact unmatched other taken inner found

theorem take_takeWhile (accepts : Char → Bool) (rest : List Char) :
    rest.take (rest.takeWhile accepts).length = rest.takeWhile accepts :=
  (List.prefix_iff_eq_take.mp (List.takeWhile_prefix accepts)).symm

theorem takeWhile_mem_kstar (accepts : Char → Bool) (rest : List Char) :
    rest.take (rest.takeWhile accepts).length ∈ (oneOf accepts)∗ := by
  rw [take_takeWhile, mem_kstar_oneOf]
  exact fun c => List.mem_takeWhile_imp

theorem length_le_takeWhile (front : taken <+: rest) (accepted : taken ∈ (oneOf accepts)∗) :
    taken.length ≤ (rest.takeWhile accepts).length := by
  obtain ⟨more, rfl⟩ := front
  rw [List.takeWhile_append_of_pos (mem_kstar_oneOf.mp accepted), List.length_append]
  exact Nat.le_add_right _ _

/-! ### Words -/

def wordKinds : List TokenKind := [.packageWord, .typeWord, .extendsWord, .implementsWord, .ident]

theorem mem_ident_of_wordKinds (word : kind ∈ wordKinds) (matched : text ∈ pattern kind) :
    text ∈ pattern .ident := by
  fin_cases word
  case «4» => exact matched
  all_goals
    obtain rfl := mem_exactly.mp matched
    exact cons_mem_oneOf_mul.mpr ⟨by decide, mem_kstar_oneOf.mpr (List.all_eq_true.mp (by decide))⟩

theorem wordKind_of_mem (word : kind ∈ wordKinds) (matched : text ∈ pattern kind) :
    kind = .ident ∨ kind = wordKind (String.ofList text) := by
  fin_cases word
  case «4» => exact .inl rfl
  all_goals
    obtain rfl := mem_exactly.mp matched
    exact .inr (by decide)

theorem wordKind_cases (word : String) : wordKind word = .ident ∨
    (wordKind word).isKeyword = true ∧ pattern (wordKind word) = exactly word := by
  unfold wordKind
  split_ifs with same same same same
  case neg => exact .inl rfl
  all_goals
    subst same
    exact .inr ⟨rfl, rfl⟩

theorem isLongestMatch_word (start : isNameStart c = true) :
    IsLongestMatch (wordKind (String.ofList (c :: rest.takeWhile isNameChar)))
      (c :: rest.take (rest.takeWhile isNameChar).length) (c :: rest) := by
  have listed : kindsAt c = wordKinds := by
    simp [kindsAt, wordKinds, start, not_isBlank_of_isNameStart start]
  have named : c :: rest.takeWhile isNameChar ∈ pattern .ident :=
    cons_mem_oneOf_mul.mpr ⟨start, take_takeWhile isNameChar rest ▸ takeWhile_mem_kstar _ _⟩
  refine isLongestMatch_cons ?matched ?longest ?preferred
  case matched =>
    rw [take_takeWhile]
    rcases wordKind_cases (String.ofList (c :: rest.takeWhile isNameChar)) with name | ⟨_, spelled⟩
    · rwa [name]
    · rw [spelled, mem_exactly, String.toList_ofList]
  case longest =>
    intro other taken front found
    have name := mem_ident_of_wordKinds (listed ▸ mem_kindsAt found) found
    exact length_le_takeWhile front (cons_mem_oneOf_mul.mp name).2
  case preferred =>
    intro other found
    have word := listed ▸ mem_kindsAt found
    rw [take_takeWhile] at found
    rcases wordKind_of_mem word found with rfl | same
    · rcases wordKind_cases (String.ofList (c :: rest.takeWhile isNameChar)) with name | ⟨keyword, _⟩
      · exact .inl name.symm
      · exact .inr ⟨rfl, keyword⟩
    · exact .inl same

/-! ### Comments -/

theorem nil_notMem_commentRest : [] ∉ commentRest := by
  rw [mem_commentRest]
  simp

theorem star_notMem_commentRest : ['*'] ∉ commentRest := by
  rw [mem_commentRest]
  simp

theorem closing_mem_commentRest : '*' :: '/' :: rest ∈ commentRest ↔ rest = [] := by
  rw [mem_commentRest]
  simp

theorem pair_mem_commentRest (apart : c ≠ '/') :
    '*' :: c :: rest ∈ commentRest ↔ rest ∈ commentRest := by
  rw [mem_commentRest]
  simp [apart]

theorem cons_mem_commentRest (apart : c ≠ '*') : c :: rest ∈ commentRest ↔ rest ∈ commentRest := by
  rw [mem_commentRest]
  simp [apart]

theorem commentBody_append (matched : text ∈ commentRest) (more : List Char) :
    commentBody (text ++ more) = (true, text.length) := by
  induction text using comment_induction with
  | nil => exact absurd matched nil_notMem_commentRest
  | star => exact absurd matched star_notMem_commentRest
  | closing rest =>
    obtain rfl := closing_mem_commentRest.mp matched
    rfl
  | pair c rest apart ih =>
    rw [List.cons_append, List.cons_append, commentBody_pair apart,
      ih ((pair_mem_commentRest apart).mp matched)]
    rfl
  | cons c rest apart ih =>
    rw [List.cons_append, commentBody_cons apart, ih ((cons_mem_commentRest apart).mp matched)]
    rfl

theorem take_commentBody_mem (closed : (commentBody body).1 = true) :
    body.take (commentBody body).2 ∈ commentRest := by
  induction body using comment_induction with
  | nil => cases closed
  | star => cases closed
  | closing rest => exact closing_mem_commentRest.mpr rfl
  | pair c rest apart ih =>
    rw [commentBody_pair apart] at closed ⊢
    exact (pair_mem_commentRest apart).mpr (ih closed)
  | cons c rest apart ih =>
    rw [commentBody_cons apart] at closed ⊢
    exact (cons_mem_commentRest apart).mpr (ih closed)

/-- A match that begins with a slash is a comment of either kind. -/
theorem slash_cases (front : taken <+: rest) (found : '/' :: taken ∈ pattern other) :
    (other = .lineComment ∧ ∃ more ahead, taken = '/' :: more ∧ rest = '/' :: ahead ∧
      more <+: ahead ∧ more ∈ (oneOf (· ≠ '\n'))∗) ∨
    (other = .blockComment ∧ ∃ more ahead, taken = '*' :: more ∧ rest = '*' :: ahead ∧
      more <+: ahead ∧ more ∈ commentRest) := by
  have listed : other ∈ [.lineComment, .blockComment] := mem_kindsAt found
  obtain ⟨unread, rfl⟩ := front
  fin_cases listed
  · obtain ⟨more, member, same⟩ := mem_exactly_mul.mp found
    cases same
    exact .inl ⟨rfl, more, _, rfl, rfl, List.prefix_append more unread, member⟩
  · obtain ⟨more, member, same⟩ := mem_exactly_mul.mp found
    cases same
    exact .inr ⟨rfl, more, _, rfl, rfl, List.prefix_append more unread, member⟩

theorem isLongestMatch_lineComment : IsLongestMatch .lineComment
    ('/' :: ('/' :: rest).take (('/' :: rest).takeWhile (· ≠ '\n')).length) ('/' :: '/' :: rest) := by
  have size : (('/' :: rest).takeWhile (· ≠ '\n')).length =
      (rest.takeWhile (· ≠ '\n')).length + 1 := by
    rw [List.takeWhile_cons_of_pos (by decide), List.length_cons]
  rw [size]
  refine isLongestMatch_cons ?matched ?longest ?preferred
  case matched => exact mem_exactly_mul.mpr ⟨_, takeWhile_mem_kstar _ rest, rfl⟩
  case longest =>
    intro other taken front found
    obtain ⟨_, more, _, rfl, same, inner, member⟩ | ⟨_, _, _, _, same, _⟩ := slash_cases front found
    · cases same
      exact Nat.succ_le_succ (length_le_takeWhile inner member)
    · cases same
  case preferred =>
    intro other found
    obtain ⟨rfl, _⟩ | ⟨_, _, _, _, same, _⟩ := slash_cases (List.take_prefix _ _) found
    · exact .inl rfl
    · cases same

theorem commentBody_of_front {ahead : List Char} (front : more <+: ahead)
    (matched : more ∈ commentRest) : commentBody ahead = (true, more.length) := by
  obtain ⟨unread, rfl⟩ := front
  exact commentBody_append matched unread

theorem isLongestMatch_blockComment (closed : (commentBody body).1 = true) :
    IsLongestMatch .blockComment ('/' :: ('*' :: body).take ((commentBody body).2 + 1))
      ('/' :: '*' :: body) := by
  refine isLongestMatch_cons ?matched ?longest ?preferred
  case matched => exact mem_exactly_mul.mpr ⟨_, take_commentBody_mem closed, rfl⟩
  case longest =>
    intro other taken front found
    obtain ⟨_, _, _, _, same, _⟩ | ⟨_, more, _, rfl, same, inner, member⟩ := slash_cases front found
    · cases same
    · cases same
      rw [commentBody_of_front inner member]
      exact Nat.le_refl _
  case preferred =>
    intro other found
    obtain ⟨_, _, _, _, same, _⟩ | ⟨rfl, _⟩ := slash_cases (List.take_prefix _ _) found
    · cases same
    · exact .inl rfl

theorem isCut_slash_star (body : List Char) : IsCut (tokenAt '/' ('*' :: body)).1
    ('/' :: ('*' :: body).take (tokenAt '/' ('*' :: body)).2) ('/' :: '*' :: body) := by
  have cut : tokenAt '/' ('*' :: body) =
      (if (commentBody body).1 then .blockComment else .invalid, (commentBody body).2 + 1) := rfl
  rw [cut]
  cases closed : (commentBody body).1 with
  | true => exact isLongestMatch_blockComment closed
  | false =>
    refine not_isPrefix_cons fun other taken front found => ?_
    obtain ⟨_, _, _, _, same, _⟩ | ⟨_, _, _, _, same, inner, member⟩ := slash_cases front found
    · cases same
    · cases same
      rw [commentBody_of_front inner member] at closed
      cases closed

/-- At a slash, a comment is cut off, if there is one. -/
theorem isCut_slash (rest : List Char) : IsCut (tokenAt '/' rest).1
    ('/' :: rest.take (tokenAt '/' rest).2) ('/' :: rest) := by
  by_cases line : ∃ more, rest = '/' :: more
  · obtain ⟨more, rfl⟩ := line
    exact isLongestMatch_lineComment
  by_cases block : ∃ body, rest = '*' :: body
  · obtain ⟨body, rfl⟩ := block
    exact isCut_slash_star body
  have cut : tokenAt '/' rest = (.invalid, 0) := by
    unfold tokenAt
    rw [if_neg (by decide), if_neg (by decide)]
    simp only [Char.reduceEq, if_false, if_true]
    split
    · next more => exact absurd ⟨more, rfl⟩ line
    · next body => exact absurd ⟨body, rfl⟩ block
    · rfl
  rw [cut]
  refine not_isPrefix_cons fun other taken front found => ?_
  obtain ⟨_, _, ahead, _, same, _⟩ | ⟨_, _, ahead, _, same, _⟩ := slash_cases front found
  · exact line ⟨ahead, same⟩
  · exact block ⟨ahead, same⟩

/-! ### Tokens -/

theorem isLongestMatch_exactly {word : String} (listed : kindsAt c = [kind])
    (spelled : pattern kind = exactly word) (single : word.toList = [c]) :
    IsLongestMatch kind [c] (c :: rest) := by
  refine @isLongestMatch_cons kind c rest 0 ?matched ?longest ?preferred
  case matched => rw [spelled, mem_exactly, single, List.take_zero]
  case longest =>
    intro other taken _ found
    obtain rfl := kind_eq_of_single listed found
    rw [spelled, mem_exactly, single, List.cons.injEq] at found
    rw [found.2]
    exact Nat.le_refl 0
  case preferred =>
    intro other found
    exact .inl (kind_eq_of_single listed found)

theorem isLongestMatch_whitespace (blank : isBlank c = true) :
    IsLongestMatch .whitespace (c :: rest.take (rest.takeWhile isBlank).length) (c :: rest) := by
  have listed : kindsAt c = [.whitespace] := by simp [kindsAt, blank]
  refine isLongestMatch_cons ?matched ?longest ?preferred
  case matched => exact cons_mem_oneOf_mul.mpr ⟨blank, takeWhile_mem_kstar isBlank rest⟩
  case longest =>
    intro other taken front found
    obtain rfl := kind_eq_of_single listed found
    exact length_le_takeWhile front (cons_mem_oneOf_mul.mp found).2
  case preferred =>
    intro other found
    exact .inl (kind_eq_of_single listed found)

theorem isCut_of_isLongestMatch {ahead : List Char} (longest : IsLongestMatch kind text ahead) :
    IsCut kind text ahead := by
  unfold IsCut
  split
  · next invalid =>
    subst invalid
    exact absurd longest.matched (Language.notMem_zero text)
  · exact longest

/-- What is cut off at a character is what the patterns say. -/
theorem isCut_tokenAt (c : Char) (rest : List Char) :
    IsCut (tokenAt c rest).1 (c :: rest.take (tokenAt c rest).2) (c :: rest) := by
  by_cases blank : isBlank c = true
  · have cut : tokenAt c rest = (.whitespace, (rest.takeWhile isBlank).length) := if_pos blank
    rw [cut]
    exact isCut_of_isLongestMatch (isLongestMatch_whitespace blank)
  by_cases start : isNameStart c = true
  · have cut : tokenAt c rest = (wordKind (String.ofList (c :: rest.takeWhile isNameChar)),
        (rest.takeWhile isNameChar).length) := (if_neg blank).trans (if_pos start)
    rw [cut]
    exact isCut_of_isLongestMatch (isLongestMatch_word start)
  by_cases mark : c ∈ [',', '.', '{', '}', ';', '/']
  · fin_cases mark
    · exact @isLongestMatch_exactly .comma ',' rest "," rfl rfl rfl
    · exact @isLongestMatch_exactly .dot '.' rest "." rfl rfl rfl
    · exact @isLongestMatch_exactly .leftBrace '{' rest "\x7b" rfl rfl rfl
    · exact @isLongestMatch_exactly .rightBrace '}' rest "\x7d" rfl rfl rfl
    · exact @isLongestMatch_exactly .semicolon ';' rest ";" rfl rfl rfl
    · exact isCut_slash rest
  · simp only [List.mem_cons, List.not_mem_nil, or_false, not_or] at mark
    have cut : tokenAt c rest = (.invalid, 0) := by simp [tokenAt, blank, start, mark]
    have none : kindsAt c = [] := by simp [kindsAt, blank, start, mark]
    rw [cut]
    refine not_isPrefix_cons fun other taken _ found => ?_
    exact absurd (none ▸ mem_kindsAt found) List.not_mem_nil

/-! ### The whole text -/

/-- If there is room for one token for each character, the tokens cover the text. Each begins where
those before it end, and is what has to be cut off there. -/
theorem tokensWithin_tile (bound offset : Nat) (chars : List Char) (enough : chars.length ≤ bound) :
    (tokensWithin bound offset chars).flatMap (fun token => token.text.toList) = chars ∧
    ∀ before token after, tokensWithin bound offset chars = before ++ token :: after →
      token.text ≠ "" ∧
      token.offset = offset + (String.join (before.map (·.text))).utf8ByteSize ∧
      IsCut token.kind token.text.toList
        ((token :: after).flatMap fun token => token.text.toList) := by
  induction bound generalizing offset chars with
  | zero =>
    obtain rfl := List.length_eq_zero_iff.mp (Nat.le_zero.mp enough)
    exact ⟨rfl, by simp [tokensWithin]⟩
  | succ bound ih =>
    cases chars with
    | nil => exact ⟨rfl, by simp [tokensWithin]⟩
    | cons c rest =>
      have cut := isCut_tokenAt c rest
      rw [tokensWithin]
      generalize tokenAt c rest = found at cut
      obtain ⟨kind, size⟩ := found
      dsimp only at cut ⊢
      have fewer : (rest.drop size).length ≤ bound := by
        simp only [List.length_cons, List.length_drop] at enough ⊢
        omega
      obtain ⟨covers, tiles⟩ := ih (offset + (String.ofList (c :: rest.take size)).utf8ByteSize)
        (rest.drop size) fewer
      have whole : (Token.mk kind (String.ofList (c :: rest.take size)) offset :: tokensWithin bound
          (offset + (String.ofList (c :: rest.take size)).utf8ByteSize) (rest.drop size)).flatMap
            (fun token => token.text.toList) = c :: rest := by
        rw [List.flatMap_cons, covers, String.toList_ofList, List.cons_append, List.take_append_drop]
      refine ⟨whole, fun before token after split => ?_⟩
      cases before with
      | nil =>
        cases split
        refine ⟨by simp, by simp, ?_⟩
        rw [whole, String.toList_ofList]
        exact cut
      | cons first before =>
        obtain ⟨rfl, later⟩ := List.cons.inj split
        obtain ⟨present, place, last⟩ := tiles before token after later
        refine ⟨present, ?_, last⟩
        rw [place, List.map_cons, String.join_cons, String.utf8ByteSize_append, Nat.add_assoc]

/-- The tokens of a text put together are the text, none is empty, and each begins at the byte where
those before it end. Each is the longest match of any pattern in what is left of the text there, a
keyword rather than a name; an invalid one stands only where nothing matches. -/
theorem tokenize_tiles (text : String) :
    String.join ((tokenize text).map (·.text)) = text ∧
    ∀ before token after, tokenize text = before ++ token :: after →
      let ahead := (String.join ((token :: after).map (·.text))).toList
      token.text ≠ "" ∧
      token.offset = (String.join (before.map (·.text))).utf8ByteSize ∧
      (token.kind ≠ .invalid → IsLongestMatch token.kind token.text.toList ahead) ∧
      (token.kind = .invalid → ∀ kind, ∀ taken ∈ pattern kind, ¬ taken <+: ahead) := by
  obtain ⟨covers, tiles⟩ := tokensWithin_tile text.toList.length 0 text.toList (Nat.le_refl _)
  have joined (tokens : List Token) : (String.join (tokens.map (·.text))).toList =
      tokens.flatMap fun token => token.text.toList := by
    rw [String.toList_join, List.flatMap_map]
  refine ⟨String.toList_inj.mp ((joined _).trans covers), fun before token after split => ?_⟩
  obtain ⟨present, place, cut⟩ := tiles before token after split
  rw [← joined] at cut
  refine ⟨present, by rw [place, Nat.zero_add], fun valid => ?_, fun invalid => ?_⟩
  · exact (if_neg valid).mp cut
  · exact (if_pos invalid).mp cut

/-- A name that begins like a keyword is read to its end, and a comment to the end of its line. A
letter of two bytes moves what is behind it, which no pattern matches. -/
theorem tokenize_tiles_name :
    IsLongestMatch .ident "types".toList "types//é\n$".toList ∧
      IsLongestMatch .lineComment "//é".toList "//é\n$".toList ∧
      (tokenize "type types//é\n$").map (·.offset) = [0, 4, 5, 10, 14, 15] ∧
      ∀ kind, ∀ taken ∈ pattern kind, ¬ taken <+: "$".toList := by
  have tiles := (tokenize_tiles "type types//é\n$").2
  obtain ⟨_, _, name, _⟩ := tiles [⟨.typeWord, "type", 0⟩, ⟨.whitespace, " ", 4⟩] ⟨.ident, "types", 5⟩
    [⟨.lineComment, "//é", 10⟩, ⟨.whitespace, "\n", 14⟩, ⟨.invalid, "$", 15⟩] (by cbv)
  obtain ⟨_, _, comment, _⟩ := tiles [⟨.typeWord, "type", 0⟩, ⟨.whitespace, " ", 4⟩,
    ⟨.ident, "types", 5⟩] ⟨.lineComment, "//é", 10⟩ [⟨.whitespace, "\n", 14⟩, ⟨.invalid, "$", 15⟩]
    (by cbv)
  obtain ⟨_, _, _, invalid⟩ := tiles [⟨.typeWord, "type", 0⟩, ⟨.whitespace, " ", 4⟩,
    ⟨.ident, "types", 5⟩, ⟨.lineComment, "//é", 10⟩, ⟨.whitespace, "\n", 14⟩] ⟨.invalid, "$", 15⟩ []
    (by cbv)
  exact ⟨name (by decide), comment (by decide), by cbv, invalid rfl⟩

end Crosslink.Types
