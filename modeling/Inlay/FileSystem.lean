import Inlay.Text.Basic

/-!
# Files

The part of the world that a compilation reads: directories and files below
one root, and a working directory. A path is walked component by component,
so a name behind a missing directory is missing even if `..` leads back out.
Paths and their components are of limited length.
-/

namespace Inlay

/-- The steps from the root to an entry. -/
abbrev Location := List Text

inductive Entry where
  | directory
  /-- A regular file; the content is `none` where its bytes are no UTF-8. -/
  | file (content : Option Text)
deriving DecidableEq, Repr

structure FileSystem where
  entries : List (Location × Entry)
  /-- The working directory, as an absolute path. -/
  workingDirectory : Text

/-! ## Paths -/

namespace Path

def components (path : Text) : List Text :=
  path.foldr
    (fun c parts => if c = '/' then [] :: parts else (c :: parts.headD []) :: parts.tail) [[]]

def byteLength (path : Text) : Nat :=
  (path.map Char.utf8Size).foldr (· + ·) 0

/-- The longest path, in bytes. -/
def lengthLimit : Nat := 4095

def componentLimit : Nat := 255

/-- A path that can name something: not empty, not too long, without a null
character, and without a component that is too long. -/
def isValid (path : Text) : Bool :=
  path ≠ [] && byteLength path ≤ lengthLimit && '\x00' ∉ path &&
    (components path).all fun part => byteLength part ≤ componentLimit

def isAbsolute (path : Text) : Bool :=
  path.head? == some '/'

/-- The path `right` seen from the directory `left`. An absolute path stands
for itself. -/
def join (left right : Text) : Text :=
  if isAbsolute right then right
  else if left.isEmpty || left.getLast? == some '/' then left ++ right
  else left ++ '/' :: right

end Path

namespace FileSystem

/-- The entry at a location. The root is always there. -/
def entry? (fs : FileSystem) (here : Location) : Option Entry :=
  if here = [] then some .directory else fs.entries.lookup here

/-- Walks path components from a location whose entry is known. An empty
component and `.` stay, `..` goes to the parent; all need a directory. -/
def walk (fs : FileSystem) : Location → Entry → List Text → Option Entry
  | _, entry, [] => some entry
  | _, .file _, _ :: _ => none
  | here, .directory, part :: parts =>
      if part = [] || part = ['.'] then fs.walk here .directory parts
      else if part = ['.', '.'] then fs.walk here.dropLast .directory parts
      else
        match fs.entry? (here ++ [part]) with
        | some entry => fs.walk (here ++ [part]) entry parts
        | none => none

def find? (fs : FileSystem) (path : Text) : Option Entry :=
  if Path.isValid path then
    fs.walk [] .directory (Path.components (Path.join fs.workingDirectory path))
  else none

def isDirectory (fs : FileSystem) (path : Text) : Bool :=
  fs.find? path == some .directory

def readText? (fs : FileSystem) (path : Text) : Option Text :=
  match fs.find? path with
  | some (.file content) => content
  | _ => none

/-! ## Changes -/

/-- Stores an entry, unless a directory is in its place. -/
def store (fs : FileSystem) (here : Location) (entry : Entry) : FileSystem :=
  match fs.entry? here with
  | some .directory => fs
  | some (.file _) =>
      { fs with entries := fs.entries.map fun e => if e.1 = here then (here, entry) else e }
  | none => { fs with entries := fs.entries ++ [(here, entry)] }

/-- Walks path components and makes the directories that are missing on the
way, also those that `..` leaves again. The location is the end of the way,
if no file blocks it. -/
def makeWay (fs : FileSystem) : Location → List Text → FileSystem × Option Location
  | here, [] => (fs, some here)
  | here, part :: parts =>
      if part = [] || part = ['.'] then fs.makeWay here parts
      else if part = ['.', '.'] then fs.makeWay here.dropLast parts
      else
        match fs.entry? (here ++ [part]) with
        | some (.file _) => (fs, none)
        | some .directory => fs.makeWay (here ++ [part]) parts
        | none => (fs.store (here ++ [part]) .directory).makeWay (here ++ [part]) parts

def put (fs : FileSystem) (path : Text) (entry : Entry) : FileSystem :=
  if Path.isValid path then
    let parts := Path.components (Path.join fs.workingDirectory path)
    match entry with
    | .directory => (fs.makeWay [] parts).1
    | .file _ =>
        let name := parts.getLast?.getD []
        match fs.makeWay [] parts.dropLast with
        | (made, some here) =>
            if name = [] || name = ['.'] || name = ['.', '.'] then made
            else made.store (here ++ [name]) entry
        | (made, none) => made
  else fs

def locate (parts : List Text) : Location :=
  parts.foldl
    (fun here part =>
      if part = [] || part = ['.'] then here
      else if part = ['.', '.'] then here.dropLast
      else here ++ [part]) []

def remove? (fs : FileSystem) (path : Text) : Option FileSystem :=
  match fs.find? path with
  | some (.file _) =>
      let here := locate (Path.components (Path.join fs.workingDirectory path))
      some { fs with entries := fs.entries.filter fun e => e.1 ≠ here }
  | _ => none

def emptyAt (workingDirectory : Text) : FileSystem :=
  FileSystem.put ⟨[], workingDirectory⟩ ['.'] .directory

end FileSystem

end Inlay
