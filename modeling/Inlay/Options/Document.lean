import Inlay.Options.Basic
import Inlay.Json.Printer
import Inlay.Json.Reader

/-!
# Options as JSON

One object holds all options, the four switches beside the rest. Members may
be missing and come in any order; a known member may not be repeated, and a
member that is not known is passed over if it is sound. The fragments may
also be given by position.
-/

namespace Inlay

namespace Options

def flagNames : List Text :=
  ["skipPartial", "runtimePartial", "noIndent", "allowDynamicPartialName"].map String.toList

def knownNames : List Text :=
  flagNames ++ ["basedir", "fileext", "partials", "ops"].map String.toList

def fragmentNames : List Text :=
  ["separator", "opStart", "opEnd"].map String.toList

/-- Brackets that may stand around a value inside the document. -/
def nestingLimit : Nat := 126

/-- Reads a member with `decode?`, or takes the default where it is missing. -/
def field? {α : Type} (members : List (Text × Json)) (name : Text) (default : α)
    (decode? : Json → Option α) : Option α :=
  match members.lookup name with
  | some value => decode? value
  | none => some default

def distinctNames (names : List Text) (members : List (Text × Json)) : Bool :=
  decide ((members.map Prod.fst).filter (· ∈ names)).Nodup

end Options

namespace Fragments

/-- Reads up to three fragments given by position. -/
def ofItems? : List Json → Option Fragments
  | [] => some standard
  | [a] => do return { standard with separator := ← a.toText? }
  | [a, b] => do return { standard with separator := ← a.toText?, opening := ← b.toText? }
  | [a, b, c] => do return ⟨← a.toText?, ← b.toText?, ← c.toText?⟩
  | _ => none

def ofMembers? (members : List (Text × Json)) : Option Fragments :=
  if Options.distinctNames Options.fragmentNames members then do
    return ⟨← Options.field? members "separator".toList standard.separator Json.toText?,
      ← Options.field? members "opStart".toList standard.opening Json.toText?,
      ← Options.field? members "opEnd".toList standard.closing Json.toText?⟩
  else none

def ofJson? : Json → Option Fragments
  | .array items => ofItems? items
  | j => j.toMembers?.bind ofMembers?

def toJson (f : Fragments) : Json :=
  .record [("separator", .text f.separator), ("opStart", .text f.opening),
    ("opEnd", .text f.closing)]

end Fragments

namespace OrderedMap

def toJson (m : OrderedMap Text) : Json :=
  .object (m.entries.map fun entry => (some entry.1, .text entry.2))

/-- Reads names and texts; a repeated name keeps its first place and takes
its last text. -/
def ofJson? (j : Json) : Option (OrderedMap Text) := do
  let members ← j.toMembers?
  let entries ← members.mapM fun member => member.2.toText?.map fun value => (member.1, value)
  return ofList entries

end OrderedMap

namespace Options

/-- A member without meaning that can be passed over. -/
def negligible (member : Text × Json) : Bool :=
  member.1 ∈ knownNames || (member.2.isSound && member.2.height ≤ nestingLimit)

def ofMembers? (members : List (Text × Json)) : Option Options :=
  if distinctNames knownNames members && members.all negligible then do
    let flag? := fun (name : String) => field? members name.toList false Json.toBool?
    let flags : Flags :=
      ⟨← flag? "skipPartial", ← flag? "runtimePartial", ← flag? "noIndent",
        ← flag? "allowDynamicPartialName"⟩
    return {
      flags
      directories := ← field? members "basedir".toList standard.directories Json.toTexts?
      endings := ← field? members "fileext".toList standard.endings Json.toTexts?
      partials := ← field? members "partials".toList standard.partials OrderedMap.ofJson?
      fragments := ← field? members "ops".toList standard.fragments Fragments.ofJson? }
  else none

def ofJson? (j : Json) : Option Options :=
  j.toMembers?.bind ofMembers?

def read? (s : Text) : Option Options :=
  (Json.read? s).bind ofJson?

def toJson (o : Options) : Json :=
  .record [("skipPartial", .bool o.flags.skipMissing),
    ("runtimePartial", .bool o.flags.runtime),
    ("noIndent", .bool o.flags.noIndent),
    ("allowDynamicPartialName", .bool o.flags.allowDynamicNames),
    ("basedir", .array (o.directories.map .text)),
    ("fileext", .array (o.endings.map .text)),
    ("partials", o.partials.toJson),
    ("ops", o.fragments.toJson)]

def print (o : Options) : Text :=
  o.toJson.print

end Options

end Inlay
