import Inlay.Text.Basic

/-!
# Blank characters

The characters with the Unicode property White_Space, trimming by them,
and the first word of a text.
-/

namespace Inlay

/-- The character has the Unicode property White_Space. -/
def isBlank (c : Char) : Bool :=
  let n := c.toNat
  (9 ≤ n && n ≤ 13) || n == 0x20 || n == 0x85 || n == 0xa0 || n == 0x1680 ||
    (0x2000 ≤ n && n ≤ 0x200a) || n == 0x2028 || n == 0x2029 || n == 0x202f ||
    n == 0x205f || n == 0x3000

theorem isBlank_of_space_or_tab {c : Char} (h : c = ' ' ∨ c = '\t') : isBlank c = true := by
  rcases h with rfl | rfl <;> decide

namespace Text

def trim (s : Text) : Text :=
  s.strip isBlank

def blank (s : Text) : Bool :=
  s.all isBlank

/-- The first run of characters that are not blank, without the quotes
around it. -/
def firstWord (s : Text) : Text :=
  strip (fun c => c == '"' || c == '\'')
    ((s.dropWhile isBlank).takeWhile fun c => !isBlank c)

end Text

end Inlay
