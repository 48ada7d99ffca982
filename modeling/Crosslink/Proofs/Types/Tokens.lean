import Crosslink.Types.Lexer

/-! The tokens of a text.

They follow each other in the text, and none reaches behind its end.
-/

set_option autoImplicit false

namespace Crosslink.Types

def Spaced (tokens : List Token) : Prop :=
  tokens.Pairwise fun first second => first.stop ≤ second.offset

theorem Token.offset_le_stop (token : Token) : token.offset ≤ token.stop := Nat.le_add_right _ _

theorem Spaced.suffix {tokens rest : List Token} (spaced : Spaced tokens)
    (suffix : rest <:+ tokens) : Spaced rest :=
  spaced.sublist suffix.sublist

/-- The bytes of the characters of a text. -/
theorem utf8ByteSize_ofList_append (first second : List Char) :
    (String.ofList (first ++ second)).utf8ByteSize =
      (String.ofList first).utf8ByteSize + (String.ofList second).utf8ByteSize := by
  rw [String.ofList_append, String.utf8ByteSize_append]

-- A token takes characters from the front, and those that are left come behind it.
theorem tokensWithin_bounds (bound offset : Nat) (chars : List Char) :
    Spaced (tokensWithin bound offset chars) ∧
      ∀ token ∈ tokensWithin bound offset chars,
        offset ≤ token.offset ∧ token.stop ≤ offset + (String.ofList chars).utf8ByteSize := by
  induction bound generalizing offset chars with
  | zero => exact ⟨.nil, nofun⟩
  | succ bound ih =>
    cases chars with
    | nil => exact ⟨.nil, nofun⟩
    | cons c rest =>
      rw [tokensWithin]
      generalize tokenAt c rest = found
      obtain ⟨kind, size⟩ := found
      dsimp only
      have parts := utf8ByteSize_ofList_append (c :: rest.take size) (rest.drop size)
      rw [List.cons_append, List.take_append_drop] at parts
      obtain ⟨spaced, inside⟩ := ih (offset + (String.ofList (c :: rest.take size)).utf8ByteSize)
        (rest.drop size)
      refine ⟨List.pairwise_cons.mpr ⟨fun later member => (inside later member).1, spaced⟩, ?_⟩
      intro token member
      rcases List.mem_cons.mp member with rfl | later
      · refine ⟨Nat.le_refl _, ?_⟩
        unfold Token.stop
        dsimp only
        omega
      · obtain ⟨low, high⟩ := inside token later
        omega

def visible (text : String) : List Token :=
  (tokenize text).filter fun token => !token.kind.isTrivia

theorem spaced_visible (text : String) : Spaced (visible text) :=
  (tokensWithin_bounds _ 0 text.toList).1.sublist List.filter_sublist

theorem stop_le_of_visible {text : String} {token : Token} (member : token ∈ visible text) :
    token.stop ≤ text.utf8ByteSize := by
  have inside := (tokensWithin_bounds _ 0 text.toList).2 token (List.mem_filter.mp member).1
  rw [String.ofList_toList, Nat.zero_add] at inside
  exact inside.2

end Crosslink.Types
