import Inlay.Compile.Monad
import Inlay.Options.Document

/-!
# The outcome of a compilation

The code of the template, the dispatch table, the partials used, the
counters and the diagnostics. Code is there even if there are diagnostics.
-/

namespace Inlay

/-- What a compilation yields. -/
structure Outcome where
  code : Text
  table : OrderedMap Text
  cached : OrderedMap Text
  counters : OrderedMap UInt32
  diagnostics : List Diagnostic
deriving DecidableEq

namespace Outcome

def ofRun (result : Text × Compilation) : Outcome :=
  let v := result.2.context.toView
  ⟨result.1, v.table, v.cached, v.counters, v.diagnostics⟩

def isClean (o : Outcome) : Bool :=
  o.diagnostics.isEmpty

def messages (o : Outcome) : List Text :=
  o.diagnostics.map Diagnostic.message

def toJson (o : Outcome) : Json :=
  .record [("code", .text o.code),
    ("partialCode", o.table.toJson),
    ("usedPartial", o.cached.toJson),
    ("usedFeature", .object (o.counters.entries.map fun entry =>
      (some entry.1, .nat entry.2.toNat))),
    ("errors", .array (o.diagnostics.map Diagnostic.toJson))]

def print (o : Outcome) : Text :=
  o.toJson.print

end Outcome

end Inlay
