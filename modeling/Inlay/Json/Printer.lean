import Inlay.Json.Value

/-!
# Printing JSON

The compact form: no blanks, members in order. In strings a quote and a
backslash are escaped, five control characters have short escapes, the
other ones below U+0020 are written in lower-case hexadecimal, and all else
stands as it is.
-/

namespace Inlay.Json

def hexDigit (n : Nat) : Char :=
  if n < 10 then Char.ofNat (48 + n) else Char.ofNat (87 + n)

def escapeChar (c : Char) : Text :=
  if c = '"' then ['\\', '"']
  else if c = '\\' then ['\\', '\\']
  else if c = '\x08' then ['\\', 'b']
  else if c = '\x0c' then ['\\', 'f']
  else if c = '\n' then ['\\', 'n']
  else if c = '\r' then ['\\', 'r']
  else if c = '\t' then ['\\', 't']
  else if c.toNat < 0x20 then
    ['\\', 'u', '0', '0', hexDigit (c.toNat / 16), hexDigit (c.toNat % 16)]
  else [c]

/-- A string with its quotes. Half of a surrogate pair is written as one. -/
def printString : Option Text → Text
  | some s => '"' :: s.flatMap escapeChar ++ ['"']
  | none => "\"\\ud800\"".toList

def printNumber (n : Number) : Text :=
  (if n.negative then ['-'] else []) ++ Nat.toDigits 10 n.whole ++
    (match n.fraction with
      | some digits => '.' :: digits.map fun digit => Char.ofNat (48 + digit)
      | none => []) ++
    (match n.exponent with
      | some (.ofNat e) => 'e' :: Nat.toDigits 10 e
      | some (.negSucc e) => 'e' :: '-' :: Nat.toDigits 10 (e + 1)
      | none => [])

mutual

/-- The compact form of a document. -/
def print : Json → Text
  | .null => "null".toList
  | .bool true => "true".toList
  | .bool false => "false".toList
  | .number n => printNumber n
  | .string s => printString s
  | .array items => '[' :: printItems items ++ [']']
  | .object members => '{' :: printMembers members ++ ['}']

def printItems : List Json → Text
  | [] => []
  | [item] => print item
  | item :: next :: items => print item ++ ',' :: printItems (next :: items)

def printMembers : List (Option Text × Json) → Text
  | [] => []
  | [(name, value)] => printString name ++ ':' :: print value
  | (name, value) :: next :: members =>
      printString name ++ ':' :: print value ++ ',' :: printMembers (next :: members)

end

end Inlay.Json
