import Inlay.Text.Blank

/-!
# Tags

A tag is what stands between two opening braces and the next two closing
braces. Its trimmed inside tells its kind: a reference to a partial, the
start of a block or of an inline definition, the end of either, or the name
of a variable.
-/

namespace Inlay

inductive Reference where
  | named (name : Text)
  /-- The name is the value of an expression at render time. -/
  | dynamic (expr : Text)
  /-- The body of the block around the call of the present partial. -/
  | block
deriving DecidableEq, Repr

inductive Tag where
  | reference (target : Reference)
  | openBlock (name : Text)
  | openInline (name : Text)
  | close (name : Text)
  | variable (name : Text)
deriving DecidableEq, Repr

namespace Tag

def opening : Text :=
  ['{', '{']

def closing : Text :=
  ['}', '}']

/-- The text before the first tag, the inside of the tag, and the text
after it. -/
def next? (s : Text) : Option (Text × Text × Text) := do
  let (before, s) ← Text.cut? opening s
  let (inside, rest) ← Text.cut? closing s
  return (before, inside, rest)

theorem eq_append_of_next? {s before inside rest : Text}
    (h : next? s = some (before, inside, rest)) :
    s = before ++ (opening ++ (inside ++ (closing ++ rest))) := by
  simp only [next?, Option.bind_eq_bind, Option.bind_eq_some_iff] at h
  obtain ⟨⟨b, t⟩, hb, ⟨i, r⟩, hi, hp⟩ := h
  simp only [pure, Option.some.injEq, Prod.mk.injEq] at hp
  obtain ⟨rfl, rfl, rfl⟩ := hp
  rw [Text.eq_append_of_cut? hb, ← Text.eq_append_of_cut? hi]

theorem length_of_next? {s before inside rest : Text}
    (h : next? s = some (before, inside, rest)) : rest.length < s.length := by
  have := congrArg List.length (eq_append_of_next? h)
  simp only [List.length_append, opening, closing, List.length_cons, List.length_nil] at this
  omega

def isQuote (c : Char) : Bool :=
  c == '"' || c == '\''

/-- The name in `#*inline "name"`: at least one blank, then a name without
quotes between two quotes, then nothing. -/
def inlineName? (inside : Text) : Option Text := do
  let rest ← Text.after? "#*inline".toList inside
  if rest.head?.any isBlank then
    match rest.dropWhile isBlank with
    | q :: s =>
        let name := s.takeWhile fun c => !isQuote c
        if isQuote q && !name.isEmpty && (s.dropWhile fun c => !isQuote c).length == 1 then
          some name
        else none
    | [] => none
  else none

def parenthesized? : Text → Option Text
  | '(' :: s => if s.getLast? == some ')' then some s.dropLast else none
  | _ => none

def blockName : Text :=
  "@partial-block".toList

def referenceOf (s : Text) : Reference :=
  match parenthesized? s.trim with
  | some expr => .dynamic expr.trim
  | none => if s.firstWord = blockName then .block else .named s.firstWord

def ofInside (inside : Text) : Tag :=
  match Text.after? ['#', '>'] inside with
  | some s => .openBlock s.firstWord
  | none =>
      match Text.after? ['>'] inside with
      | some s => .reference (referenceOf s)
      | none =>
          match inlineName? inside with
          | some name => .openInline name
          | none =>
              match Text.after? ['/'] inside with
              | some s => .close s.trim
              | none => .variable inside

def ofText (inside : Text) : Tag :=
  ofInside inside.trim

end Tag

end Inlay
