import Inlay.Text.Basic
import Inlay.Json.Value

/-!
# Diagnostics

Nothing stops a compilation. Whatever goes wrong is noted as a diagnostic,
and the code goes on without the part that failed.
-/

namespace Inlay

inductive Diagnostic where
  /-- No registered partial and no readable file has this name. -/
  | missingPartial (name : Text)
  /-- The last name of the path is already being embedded. -/
  | recursivePartial (path : List Text)
  /-- A partial named at render time, where partials are not dispatched. -/
  | dynamicName (expr : Text)
  | unclosedBlock (name : Text)
  | unexpectedClose (name : Text)
  /-- A block reference with no block around it. -/
  | noEnclosingBlock
  /-- Anything else that a host has to say. -/
  | host (message : Text)
deriving DecidableEq, Repr

namespace Diagnostic

def code : Diagnostic → String
  | missingPartial _ => "P-ERR-MISSING"
  | recursivePartial _ => "P-ERR-RECURSIVE"
  | dynamicName _ => "P-ERR-DYNAMIC-NAME"
  | _ => "P-ERR-HOST"

def message : Diagnostic → Text
  | missingPartial name =>
      "Cannot find partial '".toList ++ name ++
        "', check the basedir and fileext options".toList
  | recursivePartial path =>
      "Recursive partial inclusion along the path: ".toList ++ Text.arrowed path ++
        "! Fix the template or compile with the runtime partial option.".toList
  | dynamicName expr =>
      "Dynamic partial name '".toList ++ expr ++
        "' only works with the runtime partial option".toList
  | unclosedBlock name => "Unclosed block '".toList ++ name ++ ['\'']
  | unexpectedClose name => "Unexpected closing tag '".toList ++ name ++ ['\'']
  | noEnclosingBlock => "Can not find @partial-block outside of a partial block".toList
  | host message => message

def toJson (d : Diagnostic) : Json :=
  .record [("code", .word d.code), ("message", .text d.message)]

end Diagnostic

end Inlay
