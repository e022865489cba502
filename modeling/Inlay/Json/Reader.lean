import Inlay.Json.Value

/-!
# Reading JSON

A strict reader: four blank characters, no comments, no trailing commas, no
leading zeros, no raw control characters in strings, nothing after the
document. What a reader may still want to refuse is kept in the tree:
repeated members, numbers out of range, halves of surrogate pairs.
-/

namespace Inlay.Json

def isSpace (c : Char) : Bool :=
  c == ' ' || c == '\t' || c == '\n' || c == '\r'

def skipSpace (s : Text) : Text :=
  s.dropWhile isSpace

/-! ## Strings -/

def hexValue? (c : Char) : Option Nat :=
  let n := c.toNat
  if 48 ≤ n && n ≤ 57 then some (n - 48)
  else if 97 ≤ n && n ≤ 102 then some (n - 87)
  else if 65 ≤ n && n ≤ 70 then some (n - 55)
  else none

def hexQuad? (a b c d : Char) : Option Nat := do
  let high := (← hexValue? a) * 16 + (← hexValue? b)
  let low := (← hexValue? c) * 16 + (← hexValue? d)
  return high * 256 + low

/-- The code point of an escape of one character. -/
def shortEscape? (c : Char) : Option Nat :=
  if c = '"' || c = '\\' || c = '/' then some c.toNat
  else if c = 'b' then some 8
  else if c = 'f' then some 12
  else if c = 'n' then some 10
  else if c = 'r' then some 13
  else if c = 't' then some 9
  else none

/-- The code units up to the closing quote, and the rest. Only an escape can
name half of a surrogate pair. -/
def stringUnits? : Text → Option (List Nat × Text)
  | [] => none
  | '"' :: rest => some ([], rest)
  | '\\' :: 'u' :: a :: b :: c :: d :: rest => do
      let unit ← hexQuad? a b c d
      let (units, rest) ← stringUnits? rest
      return (unit :: units, rest)
  | '\\' :: c :: rest => do
      let unit ← shortEscape? c
      let (units, rest) ← stringUnits? rest
      return (unit :: units, rest)
  | c :: rest =>
      if c.toNat < 0x20 || c = '\\' then none
      else do
        let (units, rest) ← stringUnits? rest
        return (c.toNat :: units, rest)

def isHighHalf (n : Nat) : Bool :=
  0xd800 ≤ n && n < 0xdc00

def isLowHalf (n : Nat) : Bool :=
  0xdc00 ≤ n && n < 0xe000

/-- Joins the halves of surrogate pairs; none where one half is alone. -/
def joinHalves : List Nat → Option Text
  | [] => some []
  | [n] => if isHighHalf n || isLowHalf n then none else some [Char.ofNat n]
  | n :: m :: units =>
      if isLowHalf n then none
      else if isHighHalf n then
        if isLowHalf m then
          (joinHalves units).map
            (Char.ofNat (0x10000 + (n - 0xd800) * 0x400 + (m - 0xdc00)) :: ·)
        else none
      else (joinHalves (m :: units)).map (Char.ofNat n :: ·)

def readString? (s : Text) : Option (Option Text × Text) :=
  (stringUnits? s).map fun parts => (joinHalves parts.1, parts.2)

/-! ## Numbers -/

def readDigits (s : Text) : List Nat × Text :=
  ((s.takeWhile Char.isDigit).map fun c => c.toNat - 48, s.dropWhile Char.isDigit)

def ofDigits (digits : List Nat) : Nat :=
  digits.foldl (fun acc digit => 10 * acc + digit) 0

/-- The whole part: a zero alone or digits that start with another one. -/
def readWhole? (s : Text) : Option (Nat × Text) :=
  match readDigits s with
  | ([], _) => none
  | (0 :: _ :: _, _) => none
  | (digits, rest) => some (ofDigits digits, rest)

def readFraction? : Text → Option (Option (List Nat) × Text)
  | '.' :: s =>
      match readDigits s with
      | ([], _) => none
      | (digits, rest) => some (some digits, rest)
  | s => some (none, s)

def readScale? (negative : Bool) (s : Text) : Option (Option Int × Text) :=
  match readDigits s with
  | ([], _) => none
  | (digits, rest) =>
      some (some (if negative then - (ofDigits digits : Int) else ofDigits digits), rest)

def readExponent? : Text → Option (Option Int × Text)
  | c :: s =>
      if c = 'e' || c = 'E' then
        match s with
        | '-' :: s => readScale? true s
        | '+' :: s => readScale? false s
        | s => readScale? false s
      else some (none, c :: s)
  | [] => some (none, [])

def readNumber? (negative : Bool) (s : Text) : Option (Number × Text) := do
  let (whole, s) ← readWhole? s
  let (fraction, s) ← readFraction? s
  let (exponent, s) ← readExponent? s
  return (⟨negative, whole, fraction, exponent⟩, s)

/-! ## Documents -/

/-- One or more items with commas between them, up to the closing bracket. -/
def readItems? {α : Type} (item? : Text → Option (α × Text)) (close : Char) :
    Nat → Text → Option (List α × Text)
  | 0, _ => none
  | fuel + 1, s => do
      let (item, s) ← item? (skipSpace s)
      match skipSpace s with
      | [] => none
      | c :: s =>
          if c = ',' then do
            let (items, s) ← readItems? item? close fuel s
            return (item :: items, s)
          else if c = close then some ([item], s)
          else none

def readMember? (value? : Text → Option (Json × Text)) :
    Text → Option ((Option Text × Json) × Text)
  | '"' :: s => do
      let (name, s) ← readString? s
      match skipSpace s with
      | ':' :: s => do
          let (value, s) ← value? (skipSpace s)
          return ((name, value), s)
      | _ => none
  | _ => none

/-- A value at the start of the text, nested at most `depth` levels. -/
def readValue? : Nat → Text → Option (Json × Text)
  | 0, _ => none
  | depth + 1, s =>
      match s with
      | 'n' :: 'u' :: 'l' :: 'l' :: s => some (.null, s)
      | 't' :: 'r' :: 'u' :: 'e' :: s => some (.bool true, s)
      | 'f' :: 'a' :: 'l' :: 's' :: 'e' :: s => some (.bool false, s)
      | '"' :: s => (readString? s).map fun parts => (.string parts.1, parts.2)
      | '[' :: s =>
          match skipSpace s with
          | ']' :: s => some (.array [], s)
          | s => (readItems? (readValue? depth) ']' s.length s).map fun parts =>
              (.array parts.1, parts.2)
      | '{' :: s =>
          match skipSpace s with
          | '}' :: s => some (.object [], s)
          | s => (readItems? (readMember? (readValue? depth)) '}' s.length s).map fun parts =>
              (.object parts.1, parts.2)
      | '-' :: s => (readNumber? true s).map fun parts => (.number parts.1, parts.2)
      | s => (readNumber? false s).map fun parts => (.number parts.1, parts.2)

/-- The document that the whole text spells. No document nests deeper than
it is long. -/
def read? (s : Text) : Option Json := do
  let (value, s) ← readValue? (s.length + 1) (skipSpace s)
  if skipSpace s = [] then some value else none

end Inlay.Json
