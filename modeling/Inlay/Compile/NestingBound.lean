import Inlay.Context

/-!
# How deep references may nest

A bound on the nesting of host calls, from the size of the texts that a
compilation can meet.
-/

namespace Inlay

namespace OrderedMap

def weight (m : OrderedMap Text) : Nat :=
  (m.entries.map fun entry => entry.1.length + entry.2.length + 1).foldr (· + ·) 0

end OrderedMap

namespace FileSystem

/-- The number of characters in the files. -/
def weight (fs : FileSystem) : Nat :=
  (fs.entries.map fun entry =>
    match entry.2 with
    | .file (some content) => content.length + 1
    | _ => 0).foldr (· + ·) 0

end FileSystem

def weight (fs : FileSystem) (v : View) (source : Text) : Nat :=
  source.length + v.partials.weight + v.cached.weight + v.inlines.weight +
    (v.blocks.map fun body => body.length + 1).foldr (· + ·) 0 + v.chain.length + fs.weight

/-- More than the calls of the host can nest without preprocessing: the
names being read or embedded are spelled in the texts, and between two of
them nest at most as many blocks. -/
def nestingBound (fs : FileSystem) (v : View) (source : Text) : Nat :=
  Nat.pow (weight fs v source + 8) 4

end Inlay
