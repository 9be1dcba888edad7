import TypeFlow.Json.Basic

/-!
# Writing JSON

The compact form has no blanks at all. The indented form puts each item and
member on a line of its own, two blanks further in than what surrounds it, and
keeps empty arrays and objects closed. Quotes, backslashes and control
characters of a text are escaped and nothing else.
-/

namespace TypeFlow

namespace Json

def digits (n : Nat) : List Char := Nat.toDigits 10 n

def hexDigit (n : Nat) : Char := "0123456789abcdef".toList.getD n '0'

def escape (c : Char) : List Char :=
  if c = '"' then ['\\', '"']
  else if c = '\\' then ['\\', '\\']
  else if c = '\n' then ['\\', 'n']
  else if c = '\r' then ['\\', 'r']
  else if c = '\t' then ['\\', 't']
  else if c = '\x08' then ['\\', 'b']
  else if c = '\x0c' then ['\\', 'f']
  else if c.toNat < 32 then ['\\', 'u', '0', '0', hexDigit (c.toNat / 16), hexDigit (c.toNat % 16)]
  else [c]

def quote (s : String) : List Char := '"' :: s.toList.flatMap escape ++ ['"']

def scientific (n : Nat) (exponent : Int) : List Char :=
  digits n ++ 'e' :: (if exponent < 0 then '-' :: digits exponent.natAbs else digits exponent.natAbs)

mutual

def print : Json → List Char
  | null => "null".toList
  | bool true => "true".toList
  | bool false => "false".toList
  | nat n => digits n
  | number significand exponent => scientific significand exponent
  | text s => quote s
  | brokenText => "\"\\ud800\"".toList
  | brokenObject => "\x7b\"\\ud800\":null\x7d".toList
  | array [] => ['[', ']']
  | array (j :: rest) => '[' :: j.print ++ printItems rest
  | object [] => ['\x7b', '\x7d']
  | object ((name, j) :: rest) => '\x7b' :: quote name ++ ':' :: j.print ++ printMembers rest

def printItems : List Json → List Char
  | [] => [']']
  | j :: rest => ',' :: j.print ++ printItems rest

def printMembers : List (String × Json) → List Char
  | [] => ['\x7d']
  | (name, j) :: rest => ',' :: quote name ++ ':' :: j.print ++ printMembers rest

end

def newline (level : Nat) : List Char := '\n' :: List.replicate (2 * level) ' '

mutual

/-- The indented form of a value that stands at a level of nesting. -/
def indent (level : Nat) : Json → List Char
  | array (j :: rest) =>
    '[' :: newline (level + 1) ++ j.indent (level + 1) ++ indentItems level rest
  | object ((name, j) :: rest) =>
    '\x7b' :: newline (level + 1) ++ quote name ++ ':' :: ' ' :: j.indent (level + 1)
      ++ indentMembers level rest
  | j => j.print

def indentItems (level : Nat) : List Json → List Char
  | [] => newline level ++ [']']
  | j :: rest => ',' :: newline (level + 1) ++ j.indent (level + 1) ++ indentItems level rest

def indentMembers (level : Nat) : List (String × Json) → List Char
  | [] => newline level ++ ['\x7d']
  | (name, j) :: rest =>
    ',' :: newline (level + 1) ++ quote name ++ ':' :: ' ' :: j.indent (level + 1)
      ++ indentMembers level rest

end

def compact (j : Json) : String := String.ofList j.print

def pretty (j : Json) : String := String.ofList (j.indent 0)

end Json

end TypeFlow
