import Mathlib.Tactic.IntervalCases
import Inlay.Json.Printer
import Inlay.Json.Reader

/-!
# The grammar of JSON

Which texts spell which document: blanks may stand between any two tokens, a
character of a string may be written as it is or in several escaped forms, a
number in many forms. No text with half of a surrogate pair is spelled here.
The compact form of a document is one of its spellings.
-/

namespace Inlay.Json

/-! ## Strings -/

def lowerDigits : Text := "0123456789abcdef".toList

def upperDigits : Text := "0123456789ABCDEF".toList

/-- A hexadecimal digit, in either case. -/
def SpellsHex (n : Nat) (c : Char) : Prop :=
  lowerDigits[n]? = some c ∨ upperDigits[n]? = some c

/-- Four hexadecimal digits. -/
inductive SpellsQuad : Text → Nat → Prop
  | digits {i j k l : Nat} {a b c d : Char} : SpellsHex i a → SpellsHex j b → SpellsHex k c →
      SpellsHex l d → SpellsQuad [a, b, c, d] (((i * 16 + j) * 16 + k) * 16 + l)

/-- The characters with an escape of one letter. -/
def shortEscapes : List (Char × Char) :=
  [('"', '"'), ('\\', '\\'), ('/', '/'), ('b', '\x08'), ('f', '\x0c'), ('n', '\n'), ('r', '\r'),
    ('t', '\t')]

/-- One character of a string. -/
inductive SpellsChar : Text → Char → Prop
  | plain {c : Char} : 0x20 ≤ c.toNat → c ≠ '"' → c ≠ '\\' → SpellsChar [c] c
  | short {e c : Char} : (e, c) ∈ shortEscapes → SpellsChar ['\\', e] c
  | quad {s : Text} {c : Char} : SpellsQuad s c.toNat → SpellsChar ('\\' :: 'u' :: s) c
  | pair {s t : Text} {high low : Nat} {c : Char} : SpellsQuad s high → SpellsQuad t low →
      0xd800 ≤ high → high < 0xdc00 → 0xdc00 ≤ low → low < 0xe000 →
      c.toNat = 0x10000 + (high - 0xd800) * 0x400 + (low - 0xdc00) →
      SpellsChar ('\\' :: 'u' :: (s ++ '\\' :: 'u' :: t)) c

/-- The inside of a string. -/
inductive SpellsChars : Text → Text → Prop
  | nil : SpellsChars [] []
  | cons {s t : Text} {c : Char} {cs : Text} : SpellsChar s c → SpellsChars t cs →
      SpellsChars (s ++ t) (c :: cs)

/-! ## Numbers -/

/-- Decimal digits as text. -/
def digitText (digits : List Nat) : Text :=
  digits.map fun digit => Char.ofNat (48 + digit)

/-- At least one decimal digit. -/
def IsDigits (digits : List Nat) : Prop :=
  digits ≠ [] ∧ ∀ digit ∈ digits, digit < 10

/-- Digits without a leading zero. -/
inductive SpellsWhole : Text → Nat → Prop
  | zero : SpellsWhole ['0'] 0
  | digits {first : Nat} {digits : List Nat} : 0 < first → IsDigits (first :: digits) →
      SpellsWhole (digitText (first :: digits)) (ofDigits (first :: digits))

inductive SpellsFraction : Text → Option (List Nat) → Prop
  | none : SpellsFraction [] none
  | digits {digits : List Nat} : IsDigits digits →
      SpellsFraction ('.' :: digitText digits) (some digits)

inductive SpellsExponent : Text → Option Int → Prop
  | none : SpellsExponent [] none
  | bare {e : Char} {digits : List Nat} : e = 'e' ∨ e = 'E' → IsDigits digits →
      SpellsExponent (e :: digitText digits) (some (ofDigits digits))
  | plus {e : Char} {digits : List Nat} : e = 'e' ∨ e = 'E' → IsDigits digits →
      SpellsExponent (e :: '+' :: digitText digits) (some (ofDigits digits))
  | minus {e : Char} {digits : List Nat} : e = 'e' ∨ e = 'E' → IsDigits digits →
      SpellsExponent (e :: '-' :: digitText digits) (some (-(ofDigits digits : Int)))

/-- A number after its sign. -/
inductive SpellsUnsigned (negative : Bool) : Text → Number → Prop
  | parts {s t u : Text} {whole : Nat} {fraction : Option (List Nat)} {exponent : Option Int} :
      SpellsWhole s whole → SpellsFraction t fraction → SpellsExponent u exponent →
      SpellsUnsigned negative (s ++ (t ++ u)) ⟨negative, whole, fraction, exponent⟩

/-! ## Documents -/

/-- Blanks only. -/
def Gap (s : Text) : Prop :=
  ∀ c ∈ s, isSpace c = true

/-- One or more items with commas between them, and blanks around each. -/
inductive Listed {α : Type} (Item : Text → α → Prop) : Text → List α → Prop
  | one {a s b : Text} {x : α} : Gap a → Item s x → Gap b → Listed Item (a ++ (s ++ b)) [x]
  | cons {a s b t : Text} {x : α} {xs : List α} : Gap a → Item s x → Gap b → Listed Item t xs →
      Listed Item (a ++ (s ++ (b ++ ',' :: t))) (x :: xs)

/-- A name, a colon and a value. -/
inductive SpellsMember (Value : Text → Json → Prop) : Text → Option Text × Json → Prop
  | pair {s name a b t : Text} {value : Json} : SpellsChars s name → Gap a → Gap b →
      Value t value →
      SpellsMember Value ('"' :: (s ++ '"' :: (a ++ ':' :: (b ++ t)))) (some name, value)

/-- The text spells the value, with no blanks around it. -/
inductive Spells : Text → Json → Prop
  | null : Spells "null".toList .null
  | true : Spells "true".toList (.bool true)
  | false : Spells "false".toList (.bool false)
  | unsigned {s : Text} {n : Number} : SpellsUnsigned false s n → Spells s (.number n)
  | negative {s : Text} {n : Number} : SpellsUnsigned true s n → Spells ('-' :: s) (.number n)
  | string {s t : Text} : SpellsChars s t → Spells ('"' :: (s ++ ['"'])) (.string (some t))
  | emptyArray {s : Text} : Gap s → Spells ('[' :: (s ++ [']'])) (.array [])
  | array {s : Text} {items : List Json} : Listed Spells s items →
      Spells ('[' :: (s ++ [']'])) (.array items)
  | emptyObject {s : Text} : Gap s → Spells ('{' :: (s ++ ['}'])) (.object [])
  | object {s : Text} {members : List (Option Text × Json)} :
      Listed (SpellsMember Spells) s members → Spells ('{' :: (s ++ ['}'])) (.object members)

/-- The text spells the document, with blanks around it. -/
inductive SpellsDocument : Text → Json → Prop
  | value {a s b : Text} {j : Json} : Gap a → Spells s j → Gap b → SpellsDocument (a ++ (s ++ b)) j

/-! ## The compact form -/

theorem gap_nil : Gap [] :=
  fun _ h => absurd h List.not_mem_nil

theorem spellsHex_hexDigit {n : Nat} (h : n < 16) : SpellsHex n (hexDigit n) := by
  unfold SpellsHex
  interval_cases n <;> decide

/-- A control character is spelled by its two lower digits. -/
theorem spellsQuad_control {n : Nat} (h : n < 256) :
    SpellsQuad ['0', '0', hexDigit (n / 16), hexDigit (n % 16)] n := by
  have hquad := SpellsQuad.digits (spellsHex_hexDigit (show 0 < 16 by decide))
    (spellsHex_hexDigit (show 0 < 16 by decide)) (spellsHex_hexDigit (show n / 16 < 16 by omega))
    (spellsHex_hexDigit (show n % 16 < 16 by omega))
  have hn : ((0 * 16 + 0) * 16 + n / 16) * 16 + n % 16 = n := by omega
  rwa [hn] at hquad

theorem spellsChar_escapeChar (c : Char) : SpellsChar (escapeChar c) c := by
  unfold escapeChar
  split_ifs with hquote hslash hback hfeed hline hreturn htab hcontrol
  · exact .short (by simp [shortEscapes, hquote])
  · exact .short (by simp [shortEscapes, hslash])
  · exact .short (by simp [shortEscapes, hback])
  · exact .short (by simp [shortEscapes, hfeed])
  · exact .short (by simp [shortEscapes, hline])
  · exact .short (by simp [shortEscapes, hreturn])
  · exact .short (by simp [shortEscapes, htab])
  · exact .quad (spellsQuad_control (by omega))
  · exact .plain (by omega) hquote hslash

theorem spellsChars_escape (s : Text) : SpellsChars (s.flatMap escapeChar) s := by
  induction s with
  | nil => exact .nil
  | cons c s ih => exact .cons (spellsChar_escapeChar c) ih

theorem spells_print_text (s : Text) : Spells (print (.text s)) (.text s) :=
  .string (spellsChars_escape s)

theorem spells_print_bool (b : Bool) : Spells (print (.bool b)) (.bool b) := by
  cases b with
  | true => exact .true
  | false => exact .false

section Listing

variable {α : Type} {Item : Text → α → Prop} {s t : Text} {x : α} {xs : List α}

theorem Listed.single (h : Item s x) : Listed Item s [x] := by
  have hone := Listed.one gap_nil h gap_nil
  rwa [List.nil_append, List.append_nil] at hone

theorem Listed.comma (h : Item s x) (hrest : Listed Item t xs) :
    Listed Item (s ++ ',' :: t) (x :: xs) :=
  .cons gap_nil h gap_nil hrest

end Listing

theorem listed_printItems {items : List Json} (hne : items ≠ [])
    (h : ∀ item ∈ items, Spells (print item) item) : Listed Spells (printItems items) items := by
  induction items with
  | nil => exact absurd rfl hne
  | cons item items ih =>
      obtain ⟨hitem, hitems⟩ := List.forall_mem_cons.mp h
      cases items with
      | nil =>
          rw [printItems]
          exact .single hitem
      | cons next items =>
          rw [printItems]
          exact .comma hitem (ih (List.cons_ne_nil _ _) hitems)

theorem spells_print_array {items : List Json} (h : ∀ item ∈ items, Spells (print item) item) :
    Spells (print (.array items)) (.array items) := by
  rw [print]
  cases items with
  | nil => exact .emptyArray gap_nil
  | cons item items => exact .array (listed_printItems (List.cons_ne_nil _ _) h)

/-- The object with these members. -/
def ofMembers (members : List (Text × Json)) : Json :=
  .object (members.map fun member => (some member.1, member.2))

theorem printString_some (s : Text) :
    printString (some s) = '"' :: (s.flatMap escapeChar ++ ['"']) := rfl

theorem spellsMember_print (name : Text) {value : Json} (h : Spells (print value) value) :
    SpellsMember Spells (printString (some name) ++ ':' :: print value) (some name, value) := by
  have hpair := SpellsMember.pair (spellsChars_escape name) gap_nil gap_nil h
  rw [List.nil_append, List.nil_append] at hpair
  rwa [printString_some, List.cons_append, List.append_assoc, List.singleton_append]

theorem listed_printMembers {members : List (Text × Json)} (hne : members ≠ [])
    (h : ∀ member ∈ members, Spells (print member.2) member.2) :
    Listed (SpellsMember Spells)
      (printMembers (members.map fun member => (some member.1, member.2)))
      (members.map fun member => (some member.1, member.2)) := by
  induction members with
  | nil => exact absurd rfl hne
  | cons member members ih =>
      obtain ⟨hmember, hmembers⟩ := List.forall_mem_cons.mp h
      cases members with
      | nil =>
          rw [List.map_cons, List.map_nil, printMembers]
          exact .single (spellsMember_print member.1 hmember)
      | cons next members =>
          have ih := ih (List.cons_ne_nil _ _) hmembers
          rw [List.map_cons] at ih
          have hcomma := Listed.comma (spellsMember_print member.1 hmember) ih
          rw [List.append_assoc, List.cons_append] at hcomma
          rw [List.map_cons, List.map_cons, printMembers, List.append_assoc, List.cons_append]
          exact hcomma

theorem spells_print_object {members : List (Text × Json)}
    (h : ∀ member ∈ members, Spells (print member.2) member.2) :
    Spells (print (ofMembers members)) (ofMembers members) := by
  unfold ofMembers
  rw [print]
  cases members with
  | nil => exact .emptyObject gap_nil
  | cons member members => exact .object (listed_printMembers (List.cons_ne_nil _ _) h)

theorem Gap.append {a b : Text} (ha : Gap a) (hb : Gap b) : Gap (a ++ b) :=
  fun c hc => (List.mem_append.mp hc).elim (ha c) (hb c)

theorem Spells.document {s : Text} {j : Json} (h : Spells s j) : SpellsDocument s j := by
  have hdocument := SpellsDocument.value gap_nil h gap_nil
  rwa [List.nil_append, List.append_nil] at hdocument

/-- Further blanks around a document are no part of it. -/
theorem SpellsDocument.pad {s : Text} {j : Json} (h : SpellsDocument s j) {a b : Text} (ha : Gap a)
    (hb : Gap b) : SpellsDocument (a ++ (s ++ b)) j := by
  cases h with
  | @value c s d _ hc hs hd =>
      have hpadded := SpellsDocument.value (ha.append hc) hs (hd.append hb)
      simpa only [List.append_assoc] using hpadded

end Inlay.Json
