import Inlay.Callable
import Inlay.Context
import Inlay.Text.Quoted

/-!
# Expressions of the target language

What interrupts a literal: the value of a variable, and the call that
dispatches to a partial by name.
-/

namespace Inlay.Handlebars

def lookup (name : Text) : Text :=
  "$in['".toList ++ name.quote ++ "']".toList

/-- The indentation argument of a dispatch call, with the comma before it.
A tag alone on its line passes its indentation, added to the one of the
calling line where that is bound. -/
def indentArgument (v : View) (indent : Option Text) : Text :=
  if v.flags.noIndent then []
  else
    match indent with
    | none => ", ''".toList
    | some w =>
        if v.indentBound then
          ", ".toList ++ Callable.indentParameter ++ v.fragments.separator ++ '\'' :: w ++ ['\'']
        else ", '".toList ++ w ++ ['\'']

/-- A dispatch call: the name as an expression, the indentation of a tag
that is alone on its line, and the callable of a block. -/
def dispatch (v : View) (name : Text) (indent block : Option Text) : Text :=
  let blockArgument :=
    match block with
    | some callable => ", ".toList ++ callable
    | none => []
  let call := v.fragments.splice
    ("LR::p($cx, ".toList ++ name ++ ", $in".toList ++ indentArgument v indent ++
      blockArgument ++ [')'])
  if indent.isSome && v.indentBound && !v.flags.noIndent then Callable.selfIndented ++ call
  else call

def nameLiteral (name : Text) : Text :=
  '\'' :: name ++ ['\'']

end Inlay.Handlebars
