import Inlay.OrderedMap
import Inlay.FileSystem

/-!
# Options

What a caller chooses for a compilation: four switches, where partial files
are looked for, the partials registered by name, and the fragments of the
target language that code is glued with.
-/

namespace Inlay

structure Flags where
  /-- A partial that is not found is skipped without a diagnostic. -/
  skipMissing : Bool
  /-- Partials become callable units that are dispatched by name. -/
  runtime : Bool
  /-- Partials are not indented. -/
  noIndent : Bool
  /-- Names known at render time only are accepted in every mode. -/
  allowDynamicNames : Bool
deriving DecidableEq, Repr, Inhabited

/-- Fragments of the target language. -/
structure Fragments where
  /-- Joins two operands of a concatenation. -/
  separator : Text
  /-- Opens the body of a callable. -/
  opening : Text
  /-- Closes the body of a callable. -/
  closing : Text
deriving DecidableEq, Repr

namespace Fragments

def standard : Fragments :=
  ⟨['.'], "return ".toList, [';']⟩

instance : Inhabited Fragments := ⟨standard⟩

/-- Leaves the enclosing literal for the value of an expression. -/
def splice (f : Fragments) (expr : Text) : Text :=
  '\'' :: f.separator ++ expr ++ f.separator ++ ['\'']

end Fragments

structure Options where
  flags : Flags
  /-- Directories that are searched for partial files, in order. -/
  directories : List Text
  /-- Endings that are tried in each directory, in order. -/
  endings : List Text
  /-- Partials by name; these win over files. -/
  partials : OrderedMap Text
  fragments : Fragments
deriving DecidableEq

namespace Options

def standard : Options where
  flags := ⟨false, false, false, false⟩
  directories := []
  endings := [".tmpl".toList]
  partials := ∅
  fragments := .standard

instance : Inhabited Options := ⟨standard⟩

/-- The chosen directories that exist, or the working directory when there
are none. -/
def searchDirectories (o : Options) (fs : FileSystem) : List Text :=
  match o.directories.filter fs.isDirectory with
  | [] => [fs.workingDirectory]
  | found => found

end Options

end Inlay
