import Inlay.Compile.Source
import Inlay.Compile.Unit
import Inlay.Text.Quoted

/-!
# Reading partials

A partial is looked for once and cached under the name that preprocessing
gave it. Where partials are dispatched, reading one also makes its unit.
-/

namespace Inlay

variable (host : Host)

/-- Finds and caches a partial; the result is its unit if one was compiled.
Every call counts as a reference, and a cached partial is not read again. -/
def readPartial (name : Text) : CompileM (Option Text) := do
  CompileM.countOne Counter.references
  let v ← CompileM.view
  if v.resolvedName name ∈ v.cached then
    return none
  match ← resolve name with
  | some (source, target) =>
      CompileM.modifyView fun v =>
        { v with
          aliases := if target = name then v.aliases else v.aliases.insertIfNew name target
          cached := v.cached.insertIfNew target source.escape }
      compileUnit host target
  | none =>
      if !v.flags.skipMissing then
        CompileM.report (.missingPartial name)
      return none

def readAll : List Text → CompileM Unit
  | [] => return
  | name :: names => do
      let _ ← readPartial host name
      readAll names

/-- Reads every registered partial, if a reference is known at render time
only. -/
def preload : CompileM Unit := do
  let v ← CompileM.view
  if v.counters.count Counter.dynamicReferences ≠ 0 then
    readAll host v.partials.keys

end Inlay
