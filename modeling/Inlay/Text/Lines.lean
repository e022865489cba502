import Inlay.Text.Basic

/-!
# Lines

Indentation of a text is one text put at the start of each of its lines. A
newline at the very end opens no further line, and the empty text is one
line.
-/

namespace Inlay.Text

/-- Puts `indent` after every newline that is not the last character. -/
def indentBreaks (indent : Text) : Text → Text
  | [] => []
  | [c] => [c]
  | c :: d :: rest =>
      if c = '\n' then c :: (indent ++ indentBreaks indent (d :: rest))
      else c :: indentBreaks indent (d :: rest)

/-- Puts `indent` at the start of every line. -/
def indentLines (indent s : Text) : Text :=
  indent ++ indentBreaks indent s

@[simp] theorem indentBreaks_empty (s : Text) : indentBreaks [] s = s := by
  fun_induction indentBreaks [] s <;> simp_all

@[simp] theorem indentLines_empty (s : Text) : indentLines [] s = s := by
  simp [indentLines]

@[simp] theorem indentLines_nil (indent : Text) : indentLines indent [] = indent := by
  simp [indentLines, indentBreaks]

theorem indentBreaks_of_no_newline {indent s : Text} (h : '\n' ∉ s) :
    indentBreaks indent s = s := by
  fun_induction indentBreaks indent s <;> simp_all

end Inlay.Text
