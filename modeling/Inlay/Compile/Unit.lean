import Inlay.Callable
import Inlay.Compile.Monad

/-!
# Units of the dispatch table

A text can be compiled apart from what surrounds it, into a callable of its
own. The dispatch table holds one such callable for each partial.
-/

namespace Inlay

variable (host : Host)

/-- Compiles a text into a callable of its own, in a copy of the context
that is merged back. -/
def compileLocal (template : Text) : CompileM Text := do
  let c ← CompileM.context
  CompileM.setContext c.isolated
  let code ← host.compile (Keyword.mask template)
  let c := c.merge (← CompileM.context)
  CompileM.setContext c
  if c.flags.noIndent then
    return Callable.define c.fragments [] (Keyword.unmask code)
  else
    return Callable.define c.fragments (", ".toList ++ Callable.indentParameter)
      (Keyword.unmask (Callable.threadIndent c.fragments code))

def tableEntry (name unit : Text) : Text :=
  '\'' :: name ++ "' => ".toList ++ unit

/-- Compiles the cached source of a name into a unit of the dispatch table.
Nothing is done where partials are embedded, and for a name that has a unit
or has no source. -/
def compileUnit (name : Text) : CompileM (Option Text) := do
  let v ← CompileM.view
  if !v.flags.runtime || name ∈ v.table then
    return none
  match v.cached.get? name with
  | none => return none
  | some source =>
      let unit ← compileLocal host source
      CompileM.modifyView fun v =>
        { v with table := v.table.insertIfNew name (tableEntry name unit) }
      return some unit

end Inlay
