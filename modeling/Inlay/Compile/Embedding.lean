import Inlay.Compile.Monad
import Inlay.Text.Lines

/-!
# Embedding partials

The cached source of a partial is compiled at the place of the reference.
The chain of partials being embedded guards against endless embedding.
-/

namespace Inlay

variable (host : Host)

/-- Compiles a cached source at the place of a reference, indented like the
line of the reference. -/
def embedSource (source : Text) : CompileM Text := do
  let v ← CompileM.view
  host.compile (if v.flags.noIndent then source else Text.indentLines v.lineIndent source)

/-- The code of a partial at the place of a reference. A partial that is
being embedded already is reported and left out. -/
def embed (requested : Text) : CompileM Text := do
  let v ← CompileM.view
  let name := v.resolvedName requested
  match v.cached.get? name with
  | none =>
      if !v.flags.skipMissing && .missingPartial name ∉ v.diagnostics then
        CompileM.report (.missingPartial name)
      return []
  | some source =>
      if v.flags.runtime then
        embedSource host source
      else if (name :: v.chain).Nodup then do
        CompileM.modifyView fun v => { v with chain := name :: v.chain }
        let code ← embedSource host source
        CompileM.modifyView fun v => { v with chain := v.chain.tail }
        return code
      else do
        CompileM.report (.recursivePartial (name :: v.chain).reverse)
        return []

end Inlay
