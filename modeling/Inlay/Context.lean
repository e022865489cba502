import Inlay.Diagnostic
import Inlay.OrderedMap
import Inlay.Options.Basic

/-!
# The context of a compilation

One context goes through a whole compilation. A nested compilation works on
a copy, and the copy is merged back: what is only known to the copy is
added, and what belongs to the scope of the copy stays behind.
-/

namespace Inlay

/-! ## Counters -/

namespace Counter

/-- References to partials, those that find the partial cached included. -/
def references : Text :=
  "partial".toList

/-- References whose name is known at render time only. -/
def dynamicReferences : Text :=
  "dynpartial".toList

def inlineDefinitions : Text :=
  "inlpartial".toList

end Counter

namespace OrderedMap

/-- The count under a name, zero where there is none. -/
def count (m : OrderedMap UInt32) (name : Text) : UInt32 :=
  (m.get? name).getD 0

def increment (m : OrderedMap UInt32) (name : Text) : OrderedMap UInt32 :=
  m.insert name (m.count name + 1)

def raise (m : OrderedMap UInt32) (name : Text) (least : UInt32) : OrderedMap UInt32 :=
  m.insert name (max (m.count name) least)

def raiseAll (m other : OrderedMap UInt32) : OrderedMap UInt32 :=
  other.entries.foldl (fun acc entry => acc.raise entry.1 entry.2) m

end OrderedMap

/-! ## Views and contexts -/

/-- All of a context that the preprocessing of a partial may look at. -/
structure View where
  flags : Flags
  fragments : Fragments
  /-- Directories searched for partial files. -/
  directories : List Text
  endings : List Text
  /-- Partials registered by name; these win over files. -/
  partials : OrderedMap Text
  /-- Escaped sources of the partials found so far. -/
  cached : OrderedMap Text
  /-- The name that preprocessing gave to a requested one. -/
  aliases : OrderedMap Text
  counters : OrderedMap UInt32
  /-- The partials being embedded, innermost first. -/
  chain : List Text
  /-- The dispatch table: one callable unit for each name. -/
  table : OrderedMap Text
  diagnostics : List Diagnostic
  /-- Indentation of the line of the partial being embedded. -/
  lineIndent : Text
  /-- The indentation parameter is bound in the code being generated. -/
  indentBound : Bool
  /-- Inline partials defined in the present scope. -/
  inlines : OrderedMap Text
  /-- Bodies of the blocks around the present one, innermost first. -/
  blocks : List Text
deriving DecidableEq

/-- Preprocessing of a partial: from its raw source and its name to the
source and the name to go on with. -/
abbrev Hook := View → Text → Text → Text × Text

structure Context extends View where
  hook : Option Hook

namespace View

/-- The name under which a reference is cached and dispatched. -/
def resolvedName (v : View) (name : Text) : Text :=
  (v.aliases.get? name).getD name

/-- The files that may hold a partial: all endings in the first directory,
then all in the next. -/
def candidates (v : View) (name : Text) : List Text :=
  v.directories.flatMap fun directory =>
    v.endings.map fun ending => Path.join directory (name ++ ending)

def report (v : View) (d : Diagnostic) : View :=
  { v with diagnostics := v.diagnostics ++ [d] }

def countOne (v : View) (name : Text) : View :=
  { v with counters := v.counters.increment name }

/-- Merges a copy back. Diagnostics beyond the own ones are appended,
counters are raised, and entries of the copy are added where the name is
not taken. The chain, the inline partials, the blocks and the indentation
stay as they are. -/
def merge (v copy : View) : View :=
  { v with
    diagnostics := v.diagnostics ++ copy.diagnostics.drop v.diagnostics.length
    counters := v.counters.raiseAll copy.counters
    cached := v.cached.absorb copy.cached
    aliases := v.aliases.absorb copy.aliases
    partials := v.partials.absorb copy.partials
    table := v.table.absorb copy.table }

end View

namespace Context

def start (options : Options) (hook : Option Hook) (fs : FileSystem) : Context where
  flags := options.flags
  fragments := options.fragments
  directories := options.searchDirectories fs
  endings := options.endings
  partials := options.partials
  cached := ∅
  aliases := ∅
  counters := .ofList
    [(Counter.references, 0), (Counter.dynamicReferences, 0), (Counter.inlineDefinitions, 0)]
  chain := []
  table := ∅
  diagnostics := []
  lineIndent := []
  indentBound := false
  inlines := ∅
  blocks := []
  hook

def merge (c copy : Context) : Context :=
  { c with toView := c.toView.merge copy.toView }

/-- The copy for a nested compilation: no inline partials and no blocks in
scope, and the indentation parameter bound unless indentation is off. -/
def isolated (c : Context) : Context :=
  { c with inlines := ∅, blocks := [], indentBound := !c.flags.noIndent }

def preprocess (c : Context) (source name : Text) : Text × Text :=
  match c.hook with
  | some hook => hook c.toView source name
  | none => (source, name)

end Context

end Inlay
