import NetBridge.Table

/-! # JSON values

The values that the JSON forms of this library are made of. Numbers are natural and fit a
word. Whatever else a text may hold is `foreign`: no form reads it, but a field that nobody
asks for may have it. Values are printed without blanks. Quotation marks, backslashes and
control characters are escaped, every other character stands for itself. -/
namespace NetBridge

inductive Json where
  | null
  | bool (value : Bool)
  | nat (value : Nat)
  | text (value : String)
  | array (items : List Json)
  | object (entries : List (String × Json))
  /-- A negative, fractional or huge number, or a string that holds half of a
  surrogate pair, or an object with such a string among its names. -/
  | foreign

namespace Json

instance : Inhabited Json := ⟨null⟩

/-- The character of a digit below sixteen. -/
def hexDigit (n : Nat) : Char := (Nat.digitChar n)

def escape (c : Char) : List Char :=
  if c = '"' then ['\\', '"']
  else if c = '\\' then ['\\', '\\']
  else if c = '\n' then ['\\', 'n']
  else if c = '\r' then ['\\', 'r']
  else if c = '\t' then ['\\', 't']
  else if c = '\x08' then ['\\', 'b']
  else if c = '\x0c' then ['\\', 'f']
  else if c.toNat < 32 then ['\\', 'u', '0', '0', hexDigit (c.toNat / 16), hexDigit (c.toNat % 16)]
  else [c]

def quoted (s : String) : List Char := '"' :: s.toList.flatMap escape ++ ['"']

mutual

def chars : Json → List Char
  | null => ['n', 'u', 'l', 'l']
  | bool true => ['t', 'r', 'u', 'e']
  | bool false => ['f', 'a', 'l', 's', 'e']
  | nat n => Nat.toDigits 10 n
  | text s => quoted s
  | array items => '[' :: itemChars items ++ [']']
  | object entries => '{' :: entryChars entries ++ ['}']
  | foreign => ['n', 'u', 'l', 'l']

def itemChars : List Json → List Char
  | [] => []
  | [j] => chars j
  | j :: rest => chars j ++ ',' :: itemChars rest

def entryChars : List (String × Json) → List Char
  | [] => []
  | [(name, j)] => quoted name ++ ':' :: chars j
  | (name, j) :: rest => quoted name ++ ':' :: chars j ++ ',' :: entryChars rest

end

/-- The text of a value. What is foreign has no text of its own and is left out
as `null`. -/
def print (j : Json) : String := String.ofList j.chars

end Json

end NetBridge
