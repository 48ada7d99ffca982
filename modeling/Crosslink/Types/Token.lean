import Crosslink.Text.Lines

/-! The tokens of the types language. -/

set_option autoImplicit false

namespace Crosslink.Types

inductive TokenKind where
  | whitespace
  | lineComment
  | blockComment
  | packageWord
  | typeWord
  | extendsWord
  | implementsWord
  | ident
  | comma
  | dot
  | leftBrace
  | rightBrace
  | semicolon
  /-- Text that begins no token. -/
  | invalid
  deriving DecidableEq, Repr

namespace TokenKind

/-- Blanks and comments, which the grammar does not see. -/
def isTrivia : TokenKind → Bool
  | whitespace | lineComment | blockComment => true
  | _ => false

def isKeyword : TokenKind → Bool
  | packageWord | typeWord | extendsWord | implementsWord => true
  | _ => false

end TokenKind

structure Token where
  kind : TokenKind
  text : String
  /-- The bytes of the text in front of the token. -/
  offset : Nat
  deriving DecidableEq, Repr

namespace Token

def stop (token : Token) : Nat := token.offset + token.text.utf8ByteSize

def range (token : Token) : TextRange := ⟨token.offset, token.stop⟩

end Token

end Crosslink.Types
