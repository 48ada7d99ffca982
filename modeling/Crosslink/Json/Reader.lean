import Crosslink.Json.Value

/-! Reading JSON, without any leniency: the whole text has to be one value. -/

set_option autoImplicit false

namespace Crosslink.Json

def isJsonBlank (c : Char) : Bool := c = ' ' || c = '\t' || c = '\n' || c = '\r'

def skipBlanks (text : List Char) : List Char := text.dropWhile isJsonBlank

def hexValue? (c : Char) : Option Nat :=
  if '0' ≤ c ∧ c ≤ '9' then some (c.toNat - '0'.toNat)
  else if 'a' ≤ c ∧ c ≤ 'f' then some (c.toNat - 'a'.toNat + 10)
  else if 'A' ≤ c ∧ c ≤ 'F' then some (c.toNat - 'A'.toNat + 10)
  else none

/-- The character that a letter behind a backslash stands for. -/
def escaped? : Char → Option Char
  | '"' => some '"'
  | '\\' => some '\\'
  | '/' => some '/'
  | 'b' => some '\x08'
  | 'f' => some '\x0c'
  | 'n' => some '\n'
  | 'r' => some '\r'
  | 't' => some '\t'
  | _ => none

/-- The code unit that four hexadecimal digits spell. -/
def unitOf? (a b c d : Char) : Option Nat := do
  let first ← hexValue? a
  let second ← hexValue? b
  let third ← hexValue? c
  let fourth ← hexValue? d
  return first * 0x1000 + second * 0x100 + third * 0x10 + fourth

/-- The inside of a string up to its closing quote. -/
def readString? : List Char → Option (List Nat × List Char)
  | [] => none
  | '"' :: rest => some ([], rest)
  | '\\' :: 'u' :: a :: b :: c :: d :: rest =>
    match unitOf? a b c d with
    | none => none
    | some unit => (readString? rest).map fun (units, rest) => (unit :: units, rest)
  | '\\' :: c :: rest =>
    match escaped? c with
    | none => none
    | some c => (readString? rest).map fun (units, rest) => (c.toNat :: units, rest)
  | c :: rest =>
    if c.toNat < 0x20 || c = '\\' then none
    else (readString? rest).map fun (units, rest) => (c.toNat :: units, rest)

def readSomeDigits? (text : List Char) : Option (List Char × List Char) :=
  let digits := text.takeWhile Char.isDigit
  if digits.isEmpty then none else some (digits, text.dropWhile Char.isDigit)

/-- Digits of which the first is a zero only when it is the only one. -/
def readWhole? (text : List Char) : Option (List Char × List Char) :=
  match readSomeDigits? text with
  | some ('0' :: _ :: _, _) => none
  | read => read

/-- Digits behind a point, if there is one. -/
def readFraction? : List Char → Option (List Char × List Char)
  | '.' :: rest => (readSomeDigits? rest).map fun (digits, rest) => ('.' :: digits, rest)
  | rest => some ([], rest)

/-- Digits behind the mark of an exponent and at most one sign, if there is a mark. -/
def readExponent? : List Char → Option (List Char × List Char)
  | mark :: sign :: rest =>
    if mark = 'e' ∨ mark = 'E' then
      if sign = '+' ∨ sign = '-' then
        (readSomeDigits? rest).map fun (digits, rest) => (mark :: sign :: digits, rest)
      else (readSomeDigits? (sign :: rest)).map fun (digits, rest) => (mark :: digits, rest)
    else some ([], mark :: sign :: rest)
  | [mark] => if mark = 'e' ∨ mark = 'E' then none else some ([], [mark])
  | [] => some ([], [])

def readUnsigned? (text : List Char) : Option (List Char × List Char) := do
  let (whole, rest) ← readWhole? text
  let (fraction, rest) ← readFraction? rest
  let (exponent, rest) ← readExponent? rest
  return (whole ++ fraction ++ exponent, rest)

def readNumber? : List Char → Option (Json × List Char)
  | '-' :: text => (readUnsigned? text).map fun (written, rest) => (.number ('-' :: written), rest)
  | text => (readUnsigned? text).map fun (written, rest) => (.number written, rest)

mutual

/-- A value of which no more than `bound` parts have to be opened. -/
def readValueWithin : Nat → List Char → Option (Json × List Char)
  | 0, _ => none
  | bound + 1, text =>
    match skipBlanks text with
    | 'n' :: 'u' :: 'l' :: 'l' :: rest => some (.null, rest)
    | 't' :: 'r' :: 'u' :: 'e' :: rest => some (.bool true, rest)
    | 'f' :: 'a' :: 'l' :: 's' :: 'e' :: rest => some (.bool false, rest)
    | '"' :: rest => (readString? rest).map fun (units, rest) => (.string units, rest)
    | '[' :: rest =>
      match skipBlanks rest with
      | ']' :: rest => some (.array [], rest)
      | rest => (readItemsWithin bound rest).map fun (items, rest) => (.array items, rest)
    | '{' :: rest =>
      match skipBlanks rest with
      | '}' :: rest => some (.object [], rest)
      | rest => (readFieldsWithin bound rest).map fun (fields, rest) => (.object fields, rest)
    | rest => readNumber? rest

/-- Values with commas between them, and the closing bracket. -/
def readItemsWithin : Nat → List Char → Option (List Json × List Char)
  | 0, _ => none
  | bound + 1, text =>
    match readValueWithin bound text with
    | none => none
    | some (item, rest) =>
      match skipBlanks rest with
      | ']' :: rest => some ([item], rest)
      | ',' :: rest => (readItemsWithin bound rest).map fun (items, rest) => (item :: items, rest)
      | _ => none

/-- Named values with commas between them, and the closing brace. -/
def readFieldsWithin : Nat → List Char → Option (List (List Nat × Json) × List Char)
  | 0, _ => none
  | bound + 1, text =>
    match skipBlanks text with
    | '"' :: rest =>
      match readString? rest with
      | none => none
      | some (name, rest) =>
        match skipBlanks rest with
        | ':' :: rest =>
          match readValueWithin bound rest with
          | none => none
          | some (value, rest) =>
            match skipBlanks rest with
            | '}' :: rest => some ([(name, value)], rest)
            | ',' :: rest =>
              (readFieldsWithin bound rest).map fun (fields, rest) => ((name, value) :: fields, rest)
            | _ => none
        | _ => none
    | _ => none

end

/-- The value that a whole text spells, blanks around it aside. -/
def read? (text : String) : Option Json :=
  let chars := text.toList
  match readValueWithin (2 * chars.length + 1) chars with
  | some (value, rest) => if (skipBlanks rest).isEmpty then some value else none
  | none => none

end Crosslink.Json
