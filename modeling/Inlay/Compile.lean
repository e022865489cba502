import Inlay.Compile.NestingBound
import Inlay.Handlebars.Host
import Inlay.Outcome

/-!
# Compiling a template

One template in, one outcome out: the template is escaped and handed to the
host, and partials that may be named at render time are read at the end.
-/

namespace Inlay

/-- Compiles a template with a host: the code of the template, with the
context and the trace as they are at the end. -/
def runWith (host : Host) (fs : FileSystem) (options : Options) (hook : Option Hook)
    (source : Text) : Option (Text × Compilation) :=
  let compilation : CompileM Text := do
    let code ← host.compile source.escape
    preload host
    return code
  compilation fs ⟨.start options hook fs, []⟩

/-- The host that nests deep enough for a template. -/
def standardHost (fs : FileSystem) (options : Options) (hook : Option Hook) (source : Text) :
    Host :=
  Handlebars.host (nestingBound fs (Context.start options hook fs).toView source)

/-- Compiles a Handlebars template, and keeps context and trace. -/
def run (fs : FileSystem) (options : Options) (hook : Option Hook) (source : Text) :
    Option (Text × Compilation) :=
  runWith (standardHost fs options hook source) fs options hook source

def compileWith (host : Host) (fs : FileSystem) (options : Options) (hook : Option Hook)
    (source : Text) : Option Outcome :=
  (runWith host fs options hook source).map Outcome.ofRun

def compile (fs : FileSystem) (options : Options) (hook : Option Hook) (source : Text) :
    Option Outcome :=
  (run fs options hook source).map Outcome.ofRun

end Inlay
