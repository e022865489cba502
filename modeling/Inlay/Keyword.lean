import Inlay.Text.Basic

/-!
# The function keyword

Generated code uses the word `function` for nested callables, and a later
pass gives those a further parameter. Template text with the same word is
masked before it is compiled and unmasked afterwards, so that the pass meets
generated callables only. The mask holds bell characters, which keeps it
apart from ordinary text.
-/

namespace Inlay.Keyword

def word : Text :=
  "function".toList

/-- What stands for the word while a text is compiled. -/
def sentinel : Text :=
  "!!\x07FuNcTiOn\x07!!".toList

def mask (s : Text) : Text :=
  Text.replace word sentinel s

def unmask (s : Text) : Text :=
  Text.replace sentinel word s

end Inlay.Keyword
