import Crosslink.Types.Lexer
import Mathlib

/-! Where block comments end.

An asterisk in a comment takes the next character along. So the first closing
of a comment ends it exactly if the asterisks in front of the closing are paired
off among themselves.
-/

set_option autoImplicit false

namespace Crosslink.Types

variable {c : Char} {body before after rest : List Char}

theorem commentBody_cons (apart : c ≠ '*') (rest : List Char) :
    commentBody (c :: rest) = ((commentBody rest).1, (commentBody rest).2 + 1) := by
  rw [commentBody] <;> simp [apart]

theorem commentBody_pair (apart : c ≠ '/') (rest : List Char) :
    commentBody ('*' :: c :: rest) = ((commentBody rest).1, (commentBody rest).2 + 2) := by
  rw [commentBody]
  simp [apart]

/-- Induction over the parts of a comment, as they are read. -/
@[elab_as_elim]
theorem comment_induction {motive : List Char → Prop} (nil : motive []) (star : motive ['*'])
    (closing : ∀ rest, motive ('*' :: '/' :: rest))
    (pair : ∀ c rest, c ≠ '/' → motive rest → motive ('*' :: c :: rest))
    (cons : ∀ c rest, c ≠ '*' → motive rest → motive (c :: rest)) (body : List Char) :
    motive body := by
  induction body using commentBody.induct with
  | case1 => exact nil
  | case2 => exact star
  | case3 rest => exact closing rest
  | case4 c rest apart _ _ _ ih => exact pair c rest apart ih
  | case5 c rest single _ pairs _ _ _ ih =>
    refine cons c rest ?_ ih
    rintro rfl
    cases rest with
    | nil => exact single rfl rfl
    | cons d rest => exact pairs d rest rfl rfl

def closingStars (before : List Char) : Nat := (before.reverse.takeWhile (· = '*')).length

theorem closingStars_le (before : List Char) : closingStars before ≤ before.length := by
  have front : closingStars before ≤ before.reverse.length :=
    (List.takeWhile_prefix _).length_le
  rwa [List.length_reverse] at front

theorem closingStars_cons (c : Char) (rest : List Char) : closingStars (c :: rest) =
    if closingStars rest = rest.length ∧ c = '*' then rest.length + 1 else closingStars rest := by
  unfold closingStars
  rw [List.reverse_cons, List.takeWhile_append, List.length_reverse]
  by_cases full : (rest.reverse.takeWhile (· = '*')).length = rest.length
  · by_cases star : c = '*' <;> simp [full, star]
  · simp [full]

theorem even_closingStars_cons (apart : c ≠ '*') (rest : List Char) :
    Even (closingStars (c :: rest)) ↔ Even (closingStars rest) := by
  rw [closingStars_cons, if_neg fun full => apart full.2]

theorem even_closingStars_pair (c : Char) (rest : List Char) :
    Even (closingStars ('*' :: c :: rest)) ↔ Even (closingStars rest) := by
  rw [closingStars_cons, closingStars_cons c, List.length_cons]
  by_cases paired : closingStars rest = rest.length ∧ c = '*'
  · rw [if_pos paired, if_pos ⟨rfl, rfl⟩, paired.1, Nat.even_add_one, Nat.even_add_one, not_not]
  · have bound := closingStars_le rest
    rw [if_neg paired, if_neg fun full => absurd full.1 (by omega)]

/-! ### The first closing -/

/-- Behind the first closing, a comment goes on exactly if the asterisks before it are odd. -/
theorem commentBody_closing (first : ¬ ['*', '/'] <:+: before) (after : List Char) :
    commentBody (before ++ '*' :: '/' :: after) =
      if Even (closingStars before) then (true, before.length + 2)
      else ((commentBody after).1, before.length + 2 + (commentBody after).2) := by
  induction before using comment_induction with
  | nil => rfl
  | star =>
    -- the asterisk takes that of the closing along
    rw [List.singleton_append, commentBody_pair (by decide), commentBody_cons (by decide),
      if_neg (by decide)]
    congr 1
    simp only [List.length_singleton]
    omega
  | closing rest => exact absurd (List.prefix_append ['*', '/'] rest).isInfix first
  | pair c rest apart ih =>
    have inner := ih fun inside => first (List.infix_cons (List.infix_cons inside))
    rw [List.cons_append, List.cons_append, commentBody_pair apart, inner]
    simp only [even_closingStars_pair, List.length_cons]
    split_ifs
    · rfl
    · congr 1
      omega
  | cons c rest apart ih =>
    have inner := ih fun inside => first (List.infix_cons inside)
    rw [List.cons_append, commentBody_cons apart, inner]
    simp only [even_closingStars_cons apart, List.length_cons]
    split_ifs
    · rfl
    · congr 1
      omega

theorem exists_first_closing (closed : ['*', '/'] <:+: body) :
    ∃ before after, body = before ++ '*' :: '/' :: after ∧ ¬ ['*', '/'] <:+: before := by
  induction body with
  | nil => simp at closed
  | cons c rest ih =>
    by_cases here : ['*', '/'] <+: c :: rest
    · obtain ⟨after, same⟩ := here
      exact ⟨[], after, same.symm, by simp⟩
    · obtain ⟨before, after, rfl, first⟩ := ih ((List.infix_cons_iff.mp closed).resolve_left here)
      refine ⟨c :: before, after, rfl, fun again => ?_⟩
      rcases List.infix_cons_iff.mp again with front | inside
      · exact here (front.trans (List.prefix_append (c :: before) _))
      · exact first inside

/-! ### The first token -/

theorem head?_tokenize_comment {text : String} (opened : text.toList = '/' :: '*' :: body) :
    (tokenize text).head? = some ⟨if (commentBody body).1 then .blockComment else .invalid,
      String.ofList ('/' :: '*' :: body.take (commentBody body).2), 0⟩ := by
  rw [tokenize, opened]
  rfl

theorem take_commentBody_ne_nil (closed : (commentBody body).1 = true) :
    body.take (commentBody body).2 ≠ [] := by
  induction body using comment_induction with
  | nil => cases closed
  | star => cases closed
  | closing rest => exact List.cons_ne_nil _ _
  | pair c rest apart _ =>
    rw [commentBody_pair apart]
    exact List.cons_ne_nil _ _
  | cons c rest apart _ =>
    rw [commentBody_cons apart]
    exact List.cons_ne_nil _ _

theorem take_closing (before after : List Char) (size : Nat) :
    (before ++ '*' :: '/' :: after).take (before.length + 2 + size) =
      before ++ '*' :: '/' :: after.take size := by
  rw [Nat.add_assoc, List.take_length_add_append, Nat.add_comm 2]
  rfl

/-- A text that begins with a block comment has a first closing. The first token is the comment up
to there exactly if the asterisks before the closing are even in number. Otherwise the comment goes
on into what follows, or all of it is an invalid token. -/
theorem comment_ends_at_first_closing_iff {text : String} (opened : ['/', '*'] <+: text.toList)
    (closed : ['*', '/'] <:+: text.toList.drop 2) :
    (∃ before after, text.toList = '/' :: '*' :: (before ++ '*' :: '/' :: after) ∧
      ¬ ['*', '/'] <:+: before) ∧
    ∀ before after, text.toList = '/' :: '*' :: (before ++ '*' :: '/' :: after) →
      ¬ ['*', '/'] <:+: before →
      ((tokenize text).head? =
          some ⟨.blockComment, String.ofList ('/' :: '*' :: (before ++ ['*', '/'])), 0⟩ ↔
        Even (closingStars before)) ∧
      (¬ Even (closingStars before) → ∃ kind more, more <+: after ∧
        (tokenize text).head? =
          some ⟨kind, String.ofList ('/' :: '*' :: (before ++ '*' :: '/' :: more)), 0⟩ ∧
        (kind = .invalid ∨ kind = .blockComment ∧ more ≠ [])) := by
  refine ⟨?exists_first, fun before after whole first => ?ends⟩
  case exists_first =>
    obtain ⟨body, whole⟩ := opened
    rw [← whole] at closed ⊢
    obtain ⟨before, after, rfl, first⟩ := exists_first_closing closed
    exact ⟨before, after, rfl, first⟩
  case ends =>
    have head := head?_tokenize_comment whole
    rw [commentBody_closing first] at head
    by_cases even : Even (closingStars before)
    · rw [if_pos even, take_closing before after 0] at head
      exact ⟨iff_of_true head even, fun odd => absurd even odd⟩
    · rw [if_neg even, take_closing] at head
      have goes : (if (commentBody after).1 then TokenKind.blockComment else .invalid) = .invalid ∨
          (if (commentBody after).1 then TokenKind.blockComment else .invalid) = .blockComment ∧
            after.take (commentBody after).2 ≠ [] := by
        cases again : (commentBody after).1 with
        | false => exact .inl rfl
        | true => exact .inr ⟨rfl, take_commentBody_ne_nil again⟩
      refine ⟨iff_of_false (fun ends => ?_) even, fun _ => ⟨_, _, List.take_prefix _ after, head, goes⟩⟩
      have same := Option.some.inj (head.symm.trans ends)
      simp only [Token.mk.injEq, String.ofList_inj, List.cons.injEq, true_and,
        List.append_cancel_left_eq] at same
      rcases goes with invalid | ⟨_, longer⟩
      · cases invalid.symm.trans same.1
      · exact longer same.2.1

/-- Two asterisks before the closing are a pair. -/
theorem comment_of_paired_stars :
    (['/', '*'] <+: "/* a ***/ type A".toList ∧
      ['*', '/'] <:+: "/* a ***/ type A".toList.drop 2) ∧
    (tokenize "/* a ***/ type A").head? = some ⟨.blockComment, "/* a ***/", 0⟩ := by
  have opened : ['/', '*'] <+: "/* a ***/ type A".toList := by decide
  have closed : ['*', '/'] <:+: "/* a ***/ type A".toList.drop 2 := by decide
  have ends := (comment_ends_at_first_closing_iff opened closed).2 " a **".toList " type A".toList
    rfl (by decide)
  exact ⟨⟨opened, closed⟩, ends.1.mpr (by decide)⟩

/-- One asterisk before the closing takes the closing along: the comment is none, or goes on to the
closing of the next one. -/
theorem comment_of_odd_stars :
    (tokenize "/***/").head? = some ⟨.invalid, "/***/", 0⟩ ∧
      (tokenize "/* a **/ type A /* b */").head? =
        some ⟨.blockComment, "/* a **/ type A /* b */", 0⟩ := by
  refine ⟨by cbv, by cbv⟩

end Crosslink.Types
