import Inlay.Text.Basic

/-!
# Quoted text

The two steps that make template text safe inside a single-quoted literal:
sources have their backslashes doubled once, literal runs have their
apostrophes quoted where the literal is written.
-/

namespace Inlay.Text

/-- Doubles every backslash. -/
def escape (s : Text) : Text :=
  s.flatMap fun c => if c = '\\' then ['\\', '\\'] else [c]

/-- Puts a backslash before every apostrophe. -/
def quote (s : Text) : Text :=
  s.flatMap fun c => if c = '\'' then ['\\', '\''] else [c]

@[simp] theorem escape_nil : escape [] = [] := rfl

@[simp] theorem escape_append (s t : Text) : escape (s ++ t) = escape s ++ escape t :=
  List.flatMap_append

@[simp] theorem quote_nil : quote [] = [] := rfl

@[simp] theorem quote_append (s t : Text) : quote (s ++ t) = quote s ++ quote t :=
  List.flatMap_append

end Inlay.Text
