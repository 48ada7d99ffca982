import Crosslink.Text.CaseTables

/-! Lower case for the whole of Unicode.

Each character has a mapping of its own, but a capital sigma at the end of a
word becomes the final form of the letter.
-/

set_option autoImplicit false

namespace Crosslink.Text

def CaseRange.lower? (range : CaseRange) (code : Nat) : Option Nat :=
  if range.first ≤ code ∧ code ≤ range.last ∧ (code - range.first) % range.step = 0 then
    some (range.target + (code - range.first))
  else none

def isCased (c : Char) : Bool :=
  casedRanges.any fun (first, last) => first ≤ c.toNat && c.toNat ≤ last

/-- Characters that do not interrupt a word, such as accents and apostrophes. -/
def isCaseIgnorable (c : Char) : Bool :=
  caseIgnorableRanges.any fun (first, last) => first ≤ c.toNat && c.toNat ≤ last

/-- The lower case of a character by itself; only the dotted capital I has two. -/
def lowerChar (c : Char) : List Char :=
  if c = '\u0130' then ['i', '\u0307']
  else match lowerRanges.findSome? fun range => range.lower? c.toNat with
    | some code => [Char.ofNat code]
    | none => [c]

/-- A letter is the next thing to come, once what a word skips is skipped. -/
def meetsCased (text : List Char) : Bool :=
  match text.dropWhile isCaseIgnorable with
  | c :: _ => isCased c
  | [] => false

/-- Lower case of a text behind `before`, which is given last character first. -/
def lowerBehind (before : List Char) : List Char → List Char
  | [] => []
  | c :: rest =>
    let here :=
      if c = 'Σ' then
        if meetsCased before && !meetsCased rest then ['ς'] else ['σ']
      else lowerChar c
    here ++ lowerBehind (c :: before) rest

def lowercase (text : String) : String :=
  String.ofList (lowerBehind [] text.toList)

end Crosslink.Text
