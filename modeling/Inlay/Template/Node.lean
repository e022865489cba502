import Inlay.Template.Tag

/-!
# The structure of a template

A template is a sequence of literal runs and tags. A block or an inline
definition takes its body as text, up to the first closing tag of its name;
blocks of one name do not nest. A partial tag that is alone on its line
takes the whole line with it and keeps the blanks before it as indentation.
-/

namespace Inlay

inductive Node where
  | literal (text : Text)
  | variable (name : Text)
  /-- The indentation is there if the tag is alone on its line. -/
  | reference (target : Reference) (indent : Option Text)
  | block (name body : Text) (closed : Bool)
  | inlinePartial (name body : Text) (closed : Bool)
  | strayClose (name : Text)
deriving DecidableEq, Repr

namespace Node

/-- The body before the first closing tag of a name, and the text after
that tag. -/
def findClose? (name s : Text) : Option (Text × Text) :=
  match _h : Tag.next? s with
  | none => none
  | some (before, inside, rest) =>
      if Tag.ofText inside = .close name then some (before, rest)
      else (findClose? name rest).map fun parts =>
        (before ++ Tag.opening ++ inside ++ Tag.closing ++ parts.1, parts.2)
termination_by s.length
decreasing_by exact Tag.length_of_next? _h

/-- The body of a block, the text after its closing tag, and whether there
is one. An unclosed block takes all that follows. -/
def body (name s : Text) : Text × Text × Bool :=
  match findClose? name s with
  | some (inner, rest) => (inner, rest, true)
  | none => (s, [], false)

theorem length_of_findClose? {name s inner rest : Text}
    (h : findClose? name s = some (inner, rest)) : rest.length < s.length := by
  fun_induction findClose? name s generalizing inner with
  | case1 => simp at h
  | case2 s before inside r hs hc =>
      obtain ⟨rfl, rfl⟩ := Prod.mk.injEq .. ▸ Option.some.inj h
      exact Tag.length_of_next? hs
  | case3 s before inside r hs hc ih =>
      obtain ⟨⟨i, t⟩, ht, hp⟩ := Option.map_eq_some_iff.mp h
      obtain ⟨rfl, rfl⟩ := Prod.mk.injEq .. ▸ hp
      exact Nat.lt_trans (ih ht) (Tag.length_of_next? hs)

theorem length_body_rest_le (name s : Text) : (body name s).2.1.length ≤ s.length := by
  unfold body
  split
  · rename_i hb
    exact Nat.le_of_lt (length_of_findClose? hb)
  · simp

/-! ## Tags alone on their line -/

/-- What is literal before the line of a tag, and the indentation of the
tag, if only spaces and tabs stand before it on its line. `atStart` tells
that the text starts a line. -/
def lineIndent? (atStart : Bool) (before : Text) : Option (Text × Text) :=
  let line := (before.reverse.takeWhile (· != '\n')).reverse
  let kept := (before.reverse.dropWhile (· != '\n')).reverse
  if line.all (fun c => c == ' ' || c == '\t') && (atStart || !kept.isEmpty) then
    some (kept, line)
  else none

/-- The text after the line, if the rest of the line is blank. -/
def lineRest? (s : Text) : Option Text :=
  if Text.blank (s.takeWhile (· != '\n')) then some (s.dropWhile (· != '\n')).tail else none

theorem length_of_lineRest? {s rest : Text} (h : lineRest? s = some rest) :
    rest.length ≤ s.length := by
  unfold lineRest? at h
  split at h
  · obtain rfl := Option.some.inj h
    have := (List.dropWhile_sublist (l := s) (· != '\n')).length_le
    rw [List.length_tail]
    omega
  · simp at h

/-- What is literal before a partial tag, its indentation if the tag is
alone on its line, and the text that goes on after it. -/
def standalone (atStart : Bool) (before rest : Text) : Text × Option Text × Text :=
  match lineIndent? atStart before, lineRest? rest with
  | some (kept, indent), some next => (kept, some indent, next)
  | _, _ => (before, none, rest)

theorem length_standalone_le (atStart : Bool) (before rest : Text) :
    (standalone atStart before rest).2.2.length ≤ rest.length := by
  unfold standalone
  split
  · rename_i hr
    exact length_of_lineRest? hr
  · exact Nat.le_refl _

/-! ## Templates -/

/-- The nodes of a text; `atStart` tells that it starts a line. -/
def scan (atStart : Bool) (s : Text) : List Node :=
  match _h : Tag.next? s with
  | none => [.literal s]
  | some (before, inside, rest) =>
      match Tag.ofText inside with
      | .reference target =>
          let line := standalone atStart before rest
          .literal line.1 :: .reference target line.2.1 :: scan line.2.1.isSome line.2.2
      | .openBlock name =>
          let parts := body name rest
          .literal before :: .block name parts.1 parts.2.2 :: scan false parts.2.1
      | .openInline name =>
          let parts := body "inline".toList rest
          .literal before :: .inlinePartial name parts.1 parts.2.2 :: scan false parts.2.1
      | .close name => .literal before :: .strayClose name :: scan false rest
      | .variable name => .literal before :: .variable name :: scan false rest
termination_by s.length
decreasing_by
  · exact Nat.lt_of_le_of_lt (length_standalone_le ..) (Tag.length_of_next? _h)
  · exact Nat.lt_of_le_of_lt (length_body_rest_le ..) (Tag.length_of_next? _h)
  · exact Nat.lt_of_le_of_lt (length_body_rest_le ..) (Tag.length_of_next? _h)
  · exact Tag.length_of_next? _h
  · exact Tag.length_of_next? _h

end Node

def Text.nodes (s : Text) : List Node :=
  Node.scan true s

end Inlay
