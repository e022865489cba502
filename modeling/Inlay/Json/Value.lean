import Inlay.Json.Number
import Inlay.Text.Basic

/-!
# JSON values

Documents as trees. Object members keep their order and their repetitions,
and a string may be one that no text can hold: an escape can name half of a
surrogate pair.
-/

namespace Inlay

/-- A JSON document. The text of a string is `none` where an escape names
half of a surrogate pair without its other half. -/
inductive Json where
  | null
  | bool (value : Bool)
  | number (value : Json.Number)
  | string (value : Option Text)
  | array (items : List Json)
  | object (members : List (Option Text × Json))

namespace Json

def text (s : Text) : Json :=
  .string (some s)

def word (s : String) : Json :=
  .string (some s.toList)

def nat (n : Nat) : Json :=
  .number (.ofNat n)

def record (members : List (String × Json)) : Json :=
  .object (members.map fun member => (some member.1.toList, member.2))

mutual

/-- The number of brackets around the innermost value. -/
def height : Json → Nat
  | .array items => heightItems items + 1
  | .object members => heightMembers members + 1
  | _ => 0

def heightItems : List Json → Nat
  | [] => 0
  | item :: items => max (height item) (heightItems items)

def heightMembers : List (Option Text × Json) → Nat
  | [] => 0
  | (_, value) :: members => max (height value) (heightMembers members)

end

mutual

/-- Every string holds a text and every number is finite. -/
def isSound : Json → Bool
  | .null => true
  | .bool _ => true
  | .number n => n.isFinite
  | .string s => s.isSome
  | .array items => soundItems items
  | .object members => soundMembers members

def soundItems : List Json → Bool
  | [] => true
  | item :: items => isSound item && soundItems items

def soundMembers : List (Option Text × Json) → Bool
  | [] => true
  | (name, value) :: members => name.isSome && isSound value && soundMembers members

end

/-! ## Views of a document -/

def toBool? : Json → Option Bool
  | .bool b => some b
  | _ => none

def toText? : Json → Option Text
  | .string s => s
  | _ => none

def toTexts? : Json → Option (List Text)
  | .array items => items.mapM toText?
  | _ => none

/-- The members of an object, if every name holds a text. -/
def toMembers? : Json → Option (List (Text × Json))
  | .object members => members.mapM fun member => member.1.map fun name => (name, member.2)
  | _ => none

/-- The value of the last member called `name`. -/
def member? (j : Json) (name : Text) : Option Json :=
  match j with
  | .object members => members.reverse.lookup (some name)
  | _ => none

end Json

end Inlay
