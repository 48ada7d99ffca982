/-! JSON values and their printed form.

A string of JSON may hold half a surrogate pair, which is no text, so strings
are sequences of code points here.
-/

set_option autoImplicit false

namespace Crosslink

inductive Json where
  | null
  | bool (truth : Bool)
  /-- A number, as it is written. -/
  | number (written : List Char)
  | string (units : List Nat)
  | array (items : List Json)
  | object (fields : List (List Nat × Json))

namespace Json

def isHighSurrogate (unit : Nat) : Bool := 0xD800 ≤ unit && unit < 0xDC00

def isLowSurrogate (unit : Nat) : Bool := 0xDC00 ≤ unit && unit < 0xE000

/-- The code point of a surrogate pair. -/
def pairValue (high low : Nat) : Nat := 0x10000 + (high - 0xD800) * 0x400 + (low - 0xDC00)

/-- The text of a string, unless it holds half a surrogate pair. -/
def charsOf? : List Nat → Option (List Char)
  | [] => some []
  | [unit] =>
    if isHighSurrogate unit || isLowSurrogate unit then none else some [Char.ofNat unit]
  | unit :: next :: rest =>
    if isHighSurrogate unit then
      if isLowSurrogate next then (charsOf? rest).map (Char.ofNat (pairValue unit next) :: ·)
      else none
    else if isLowSurrogate unit then none
    else (charsOf? (next :: rest)).map (Char.ofNat unit :: ·)

def textOf? (units : List Nat) : Option String := (charsOf? units).map String.ofList

def unitsOf (text : String) : List Nat := text.toList.map Char.toNat

def ofText (text : String) : Json := .string (unitsOf text)

def ofInt (number : Int) : Json := .number (toString number).toList

def ofFields (fields : List (String × Json)) : Json :=
  .object (fields.map fun (name, value) => (unitsOf name, value))

/-- The digit of a value below sixteen, in lower case. -/
def hexDigit (value : Nat) : Char :=
  Char.ofNat (if value < 10 then '0'.toNat + value else 'a'.toNat + (value - 10))

/-- Four hexadecimal digits behind the mark of an escape. -/
def escapeUnit (unit : Nat) : List Char :=
  ['\\', 'u', hexDigit (unit / 0x1000 % 16), hexDigit (unit / 0x100 % 16),
    hexDigit (unit / 0x10 % 16), hexDigit (unit % 16)]

/-- How a code point is written inside a string: quotes, backslashes and control
characters are escaped, and so is half a pair; all else stands for itself. -/
def renderUnit (unit : Nat) : List Char :=
  if unit = '"'.toNat then ['\\', '"']
  else if unit = '\\'.toNat then ['\\', '\\']
  else if unit = 0x08 then ['\\', 'b']
  else if unit = 0x09 then ['\\', 't']
  else if unit = 0x0A then ['\\', 'n']
  else if unit = 0x0C then ['\\', 'f']
  else if unit = 0x0D then ['\\', 'r']
  else if unit < 0x20 || isHighSurrogate unit || isLowSurrogate unit then escapeUnit unit
  else [Char.ofNat unit]

def renderString (units : List Nat) : List Char := '"' :: units.flatMap renderUnit ++ ['"']

/-- A new line, indented by two blanks for each level. -/
def newline (level : Nat) : List Char := '\n' :: List.replicate (2 * level) ' '

mutual

/-- The printed form at a level of nesting: one element to a line. -/
def renderAt (level : Nat) : Json → List Char
  | null => ['n', 'u', 'l', 'l']
  | bool true => ['t', 'r', 'u', 'e']
  | bool false => ['f', 'a', 'l', 's', 'e']
  | number written => written
  | string units => renderString units
  | array [] => ['[', ']']
  | array (item :: rest) =>
    '[' :: newline (level + 1) ++ renderAt (level + 1) item ++ renderItems (level + 1) rest ++
      newline level ++ [']']
  | object [] => ['{', '}']
  | object ((name, value) :: rest) =>
    '{' :: newline (level + 1) ++ renderString name ++ [':', ' '] ++ renderAt (level + 1) value ++
      renderFields (level + 1) rest ++ newline level ++ ['}']

def renderItems (level : Nat) : List Json → List Char
  | [] => []
  | item :: rest => ',' :: newline level ++ renderAt level item ++ renderItems level rest

def renderFields (level : Nat) : List (List Nat × Json) → List Char
  | [] => []
  | (name, value) :: rest =>
    ',' :: newline level ++ renderString name ++ [':', ' '] ++ renderAt level value ++
      renderFields level rest

end

def render (value : Json) : String := String.ofList (renderAt 0 value)

end Json

end Crosslink
