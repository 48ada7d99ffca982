import Crosslink.Types.Token

/-! Cutting a text into tokens.

The longest token at the front of the text is taken each time, and a keyword
wins over a name of the same letters. Nothing is left out: blanks and comments
are tokens, and so is what begins no token.
-/

set_option autoImplicit false

namespace Crosslink.Types

def isBlank (c : Char) : Bool := c = ' ' || c = '\t' || c = '\r' || c = '\n'

def isNameStart (c : Char) : Bool := c.isAlpha || c = '_'

def isNameChar (c : Char) : Bool := c.isAlphanum || c = '_'

/-- The keyword that a name spells, or the kind of names. -/
def wordKind (word : String) : TokenKind :=
  if word = "package" then .packageWord
  else if word = "type" then .typeWord
  else if word = "extends" then .extendsWord
  else if word = "implements" then .implementsWord
  else .ident

/-- How a comment goes on behind its opening: whether it is closed, and over
how many characters. An asterisk that no slash follows takes the next character
along with it, whatever that is. -/
def commentBody : List Char → Bool × Nat
  | [] => (false, 0)
  | ['*'] => (false, 0)
  | '*' :: '/' :: _ => (true, 2)
  | '*' :: _ :: rest =>
    let (closed, size) := commentBody rest
    (closed, size + 2)
  | _ :: rest =>
    let (closed, size) := commentBody rest
    (closed, size + 1)

/-- The kind of the token that begins with a character, and how many of the
characters behind it belong to it. -/
def tokenAt (c : Char) (rest : List Char) : TokenKind × Nat :=
  if isBlank c then (.whitespace, (rest.takeWhile isBlank).length)
  else if isNameStart c then
    let more := rest.takeWhile isNameChar
    (wordKind (String.ofList (c :: more)), more.length)
  else if c = ',' then (.comma, 0)
  else if c = '.' then (.dot, 0)
  else if c = '{' then (.leftBrace, 0)
  else if c = '}' then (.rightBrace, 0)
  else if c = ';' then (.semicolon, 0)
  else if c = '/' then
    match rest with
    | '/' :: _ => (.lineComment, (rest.takeWhile (· ≠ '\n')).length)
    | '*' :: body =>
      let (closed, size) := commentBody body
      (if closed then .blockComment else .invalid, size + 1)
    | _ => (.invalid, 0)
  else (.invalid, 0)

/-- At most `bound` tokens of a text that begins at `offset`. -/
def tokensWithin : Nat → Nat → List Char → List Token
  | 0, _, _ => []
  | _, _, [] => []
  | bound + 1, offset, c :: rest =>
    let (kind, size) := tokenAt c rest
    let text := String.ofList (c :: rest.take size)
    ⟨kind, text, offset⟩ :: tokensWithin bound (offset + text.utf8ByteSize) (rest.drop size)

def tokenize (text : String) : List Token :=
  tokensWithin text.toList.length 0 text.toList

end Crosslink.Types
