import Crosslink.Diagnostic
import Crosslink.Types.Element
import Crosslink.Types.Token

/-! Reading elements from tokens.

    Model    := Element*
    Element  := Package | Type
    Package  := 'package' Ident '{' Element* '}'
    Type     := 'type' Ident ('extends' QName)? ('implements' QName (',' QName)*)? ';'?
    QName    := Ident ('.' Ident)*

A fault is noted and reading goes on: what is missing is skipped in the grammar,
and what belongs to no element is skipped in the text.
-/

set_option autoImplicit false

namespace Crosslink.Types

/-- What the grammar asks for at a place where something else stands. -/
inductive Expectation where
  | noClosingBrace
  | element
  | packageName
  | openingBrace
  | closingBrace
  | typeName
  | extendedName
  | implementedName
  | segment
  deriving DecidableEq, Repr

def Expectation.text : Expectation → String
  | noClosingBrace => "unexpected '\x7d'"
  | element => "expected 'type' or 'package'"
  | packageName => "expected package name"
  | openingBrace => "expected '\x7b'"
  | closingBrace => "expected '\x7d'"
  | typeName => "expected type name"
  | extendedName => "expected type name after 'extends'"
  | implementedName => "expected type name after 'implements'"
  | segment => "expected identifier after '.'"

/-- An expectation that was not met, and the token found instead, if any. -/
structure Fault where
  expected : Expectation
  found : Option Token
  deriving DecidableEq, Repr

/-- The fault as a diagnostic on a text of `size` bytes. -/
def Fault.diagnostic (fault : Fault) (size : Nat) : Diagnostic :=
  match fault.found with
  | none => .ofSyntax s!"{fault.expected.text}, found end of file" ⟨size, size⟩
  | some token =>
    if token.kind = .invalid then
      .ofSyntax s!"{fault.expected.text}, found invalid character '{token.text}'" token.range
    else .ofSyntax s!"{fault.expected.text}, found '{token.text}'" token.range

/-- Something read, the tokens behind it, and the faults met on the way. -/
structure Reading (α : Type) where
  value : α
  rest : List Token
  faults : List Fault
  deriving Repr

/-- An expectation that the next token does not meet. -/
def unmet (expected : Expectation) (tokens : List Token) : Fault := ⟨expected, tokens.head?⟩

def next? (kind : TokenKind) : List Token → Option (Token × List Token)
  | [] => none
  | token :: rest => if token.kind = kind then some (token, rest) else none

/-- The text from the first token up to where the rest begins. -/
def covered (tokens rest : List Token) : TextRange :=
  let taken := tokens.take (tokens.length - rest.length)
  ⟨(taken.head?.map Token.offset).getD 0, (taken.getLast?.map Token.stop).getD 0⟩

def readName (expected : Expectation) (tokens : List Token) : Reading (Option String) :=
  match next? .ident tokens with
  | some (token, rest) => ⟨some token.text, rest, []⟩
  | none => ⟨none, tokens, [unmet expected tokens]⟩

/-- The segments of a qualified name behind the first, each after a dot. -/
def readSegments : List Token → Reading (List String)
  | [] => ⟨[], [], []⟩
  | [token] =>
    if token.kind = .dot then ⟨[], [], [unmet .segment []]⟩ else ⟨[], [token], []⟩
  | token :: following :: rest =>
    if token.kind = .dot then
      if following.kind = .ident then
        let more := readSegments rest
        ⟨following.text :: more.value, more.rest, more.faults⟩
      else ⟨[], following :: rest, [unmet .segment (following :: rest)]⟩
    else ⟨[], token :: following :: rest, []⟩

/-- A qualified name, if one begins here. -/
def readQualifiedName? (tokens : List Token) : Option (Reading QualifiedName) :=
  (next? .ident tokens).map fun (first, rest) =>
    let more := readSegments rest
    ⟨⟨first.text :: more.value⟩, more.rest, more.faults⟩

/-- The part of a type behind `extends`, if the word comes next. -/
def readExtended (tokens : List Token) : Reading (Option QualifiedName) :=
  match next? .extendsWord tokens with
  | none => ⟨none, tokens, []⟩
  | some (_, rest) =>
    match readQualifiedName? rest with
    | some name => ⟨some name.value, name.rest, name.faults⟩
    | none => ⟨none, rest, [unmet .extendedName rest]⟩

/-- At most `bound` qualified names with commas between them. -/
def readNamesWithin : Nat → List Token → Reading (List QualifiedName)
  | 0, tokens => ⟨[], tokens, []⟩
  | bound + 1, tokens =>
    match readQualifiedName? tokens with
    | none => ⟨[], tokens, [unmet .implementedName tokens]⟩
    | some name =>
      match next? .comma name.rest with
      | none => ⟨[name.value], name.rest, name.faults⟩
      | some (_, rest) =>
        let more := readNamesWithin bound rest
        ⟨name.value :: more.value, more.rest, name.faults ++ more.faults⟩

/-- The part of a type behind `implements`, if the word comes next. -/
def readImplemented (tokens : List Token) : Reading (List QualifiedName) :=
  match next? .implementsWord tokens with
  | none => ⟨[], tokens, []⟩
  | some (_, rest) => readNamesWithin (rest.length + 1) rest

/-- The tokens behind one of a kind, or all of them. -/
def skip (kind : TokenKind) (tokens : List Token) : List Token :=
  match next? kind tokens with
  | some (_, rest) => rest
  | none => tokens

def require (kind : TokenKind) (expected : Expectation) (tokens : List Token) : Reading Unit :=
  match next? kind tokens with
  | some (_, rest) => ⟨(), rest, []⟩
  | none => ⟨(), tokens, [unmet expected tokens]⟩

def readType (tokens : List Token) : Reading Element :=
  let name := readName .typeName tokens.tail
  let extended := readExtended name.rest
  let implemented := readImplemented extended.rest
  let rest := skip .semicolon implemented.rest
  ⟨.type name.value extended.value implemented.value (covered tokens rest), rest,
    name.faults ++ extended.faults ++ implemented.faults⟩

def opensElement (token : Token) : Bool :=
  token.kind = .typeWord || token.kind = .packageWord

/-- The tokens from the next one on that opens an element or closes a package. -/
def recover (tokens : List Token) : List Token :=
  tokens.dropWhile fun token => !opensElement token && token.kind ≠ .rightBrace

/-- Elements up to a closing brace or the end, nested less than `bound` tokens deep. -/
def readElementsWithin : Nat → List Token → Reading (List Element)
  | 0, tokens => ⟨[], tokens, []⟩
  | _, [] => ⟨[], [], []⟩
  | bound + 1, token :: following =>
    if token.kind = .rightBrace then ⟨[], token :: following, []⟩
    else if token.kind = .typeWord then
      let declared := readType (token :: following)
      let more := readElementsWithin bound declared.rest
      ⟨declared.value :: more.value, more.rest, declared.faults ++ more.faults⟩
    else if token.kind = .packageWord then
      let name := readName .packageName following
      let opened := require .leftBrace .openingBrace name.rest
      let body := readElementsWithin bound opened.rest
      let closed := require .rightBrace .closingBrace body.rest
      let range := covered (token :: following) closed.rest
      let more := readElementsWithin bound closed.rest
      ⟨.package name.value body.value range :: more.value, more.rest,
        name.faults ++ opened.faults ++ body.faults ++ closed.faults ++ more.faults⟩
    else
      let more := readElementsWithin bound (recover following)
      ⟨more.value, more.rest, ⟨.element, some token⟩ :: more.faults⟩

/-- Elements up to the end, with less than `bound` closing braces that close nothing. -/
def readModelWithin : Nat → List Token → Reading (List Element)
  | 0, tokens => ⟨[], tokens, []⟩
  | bound + 1, tokens =>
    let read := readElementsWithin tokens.length tokens
    match read.rest with
    | [] => read
    | brace :: rest =>
      let more := readModelWithin bound rest
      ⟨read.value ++ more.value, more.rest,
        read.faults ++ ⟨.noClosingBrace, some brace⟩ :: more.faults⟩

/-- All elements of a text, from its tokens without blanks and comments. -/
def readModel (tokens : List Token) : Reading (List Element) :=
  readModelWithin (tokens.length + 1) tokens

end Crosslink.Types
