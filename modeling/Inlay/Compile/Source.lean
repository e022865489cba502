import Inlay.Compile.Monad

/-!
# Finding the source of a partial

A registered partial wins over files. Files are tried directory by
directory, and the first one that can be read as text is taken. The source
goes through preprocessing once, under the name that was asked for.
-/

namespace Inlay

namespace Context

/-- The source of a partial as it was written. -/
def rawSource? (c : Context) (fs : FileSystem) (name : Text) : Option Text :=
  match c.partials.get? name with
  | some source => some source
  | none => (c.candidates name).findSome? fs.readText?

end Context

def preprocess (source name : Text) : CompileM (Text × Text) := do
  let c ← CompileM.context
  if c.hook.isSome then
    CompileM.emit (.preprocess c.toView source name)
  return c.preprocess source name

def resolve (name : Text) : CompileM (Option (Text × Text)) := do
  match (← CompileM.context).rawSource? (← read) name with
  | some source => return some (← preprocess source name)
  | none => return none

end Inlay
