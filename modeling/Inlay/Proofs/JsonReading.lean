import Mathlib.Data.List.TakeWhile
import Inlay.Proofs.JsonGrammar

/-!
# Reading what is spelled

Every spelling of a document is read, and as this document. A value is read
the same whatever follows it, if that cannot go on with a number. The reader
gives up at a depth, but no text nests deeper than it is long.
-/

namespace Inlay.Json

/-! ## Blanks -/

theorem skipSpace_gap_append {a : Text} (h : Gap a) (s : Text) : skipSpace (a ++ s) = skipSpace s :=
  List.dropWhile_append_of_pos h

theorem skipSpace_cons {c : Char} (h : isSpace c = false) (s : Text) :
    skipSpace (c :: s) = c :: s :=
  List.dropWhile_cons_of_neg (by simp [h])

theorem isSpace_iff {c : Char} :
    isSpace c = true ↔ c = ' ' ∨ c = '\t' ∨ c = '\n' ∨ c = '\r' := by
  simp [isSpace, or_assoc]

theorem skipSpace_gap {a : Text} (h : Gap a) : skipSpace a = [] :=
  List.dropWhile_eq_nil_iff.mpr h

/-! ## Strings -/

theorem hexValue?_of_spellsHex {n : Nat} {c : Char} (h : SpellsHex n c) : hexValue? c = some n := by
  have hlower : ∀ i : Fin 16, hexValue? lowerDigits[i] = some i := by decide
  have hupper : ∀ i : Fin 16, hexValue? upperDigits[i] = some i := by decide
  rcases h with h | h
  · obtain ⟨hn, rfl⟩ := List.getElem?_eq_some_iff.mp h
    exact hlower ⟨n, hn⟩
  · obtain ⟨hn, rfl⟩ := List.getElem?_eq_some_iff.mp h
    exact hupper ⟨n, hn⟩

theorem stringUnits?_quad {s : Text} {n : Nat} (h : SpellsQuad s n) (t : Text) :
    stringUnits? ('\\' :: 'u' :: (s ++ t)) =
      (stringUnits? t).map fun parts => (n :: parts.1, parts.2) := by
  cases h with
  | @digits i j k l a b c d ha hb hc hd =>
      have hquad : hexQuad? a b c d = some (((i * 16 + j) * 16 + k) * 16 + l) := by
        simp only [hexQuad?, hexValue?_of_spellsHex ha, hexValue?_of_spellsHex hb,
          hexValue?_of_spellsHex hc, hexValue?_of_spellsHex hd]
        show some _ = some _
        congr 1
        omega
      show stringUnits? ('\\' :: 'u' :: a :: b :: c :: d :: t) = _
      rw [stringUnits?, hquad]
      cases stringUnits? t <;> rfl

theorem stringUnits?_short {e c : Char} (h : (e, c) ∈ shortEscapes) (t : Text) :
    stringUnits? ('\\' :: e :: t) =
      (stringUnits? t).map fun parts => (c.toNat :: parts.1, parts.2) := by
  have hescapes : ∀ escape ∈ shortEscapes,
      escape.1 ≠ 'u' ∧ shortEscape? escape.1 = some escape.2.toNat := by decide
  obtain ⟨hu, hescape⟩ := hescapes _ h
  rw [stringUnits?, hescape]
  · cases stringUnits? t <;> rfl
  · simp_all

theorem stringUnits?_plain {c : Char} (hc : 0x20 ≤ c.toNat) (hquote : c ≠ '"') (hslash : c ≠ '\\')
    (t : Text) :
    stringUnits? (c :: t) = (stringUnits? t).map fun parts => (c.toNat :: parts.1, parts.2) := by
  rw [stringUnits?, if_neg (by simp [hslash]; omega)]
  · cases stringUnits? t <;> rfl
  all_goals simp_all

/-- A character is no half of a surrogate pair. -/
theorem toNat_ne_half (c : Char) : isHighHalf c.toNat = false ∧ isLowHalf c.toNat = false := by
  have hvalid : c.toNat < 0xd800 ∨ 0xdfff < c.toNat ∧ c.toNat < 0x110000 := c.valid
  simp only [isHighHalf, isLowHalf, Bool.and_eq_false_iff, decide_eq_false_iff_not]
  omega

theorem joinHalves_cons (c : Char) (units : List Nat) :
    joinHalves (c.toNat :: units) = (joinHalves units).map (c :: ·) := by
  obtain ⟨hhigh, hlow⟩ := toNat_ne_half c
  cases units with
  | nil => simp [joinHalves, hhigh, hlow]
  | cons m units => simp [joinHalves, hhigh, hlow]

theorem joinHalves_pair {high low : Nat} (hhigh : 0xd800 ≤ high) (hhigh' : high < 0xdc00)
    (hlow : 0xdc00 ≤ low) (hlow' : low < 0xe000) {c : Char}
    (hc : c.toNat = 0x10000 + (high - 0xd800) * 0x400 + (low - 0xdc00)) (units : List Nat) :
    joinHalves (high :: low :: units) = (joinHalves units).map (c :: ·) := by
  have hfirst : isLowHalf high = false ∧ isHighHalf high = true := by
    simp [isLowHalf, isHighHalf]
    omega
  have hsecond : isLowHalf low = true := by
    simp [isLowHalf]
    omega
  simp [joinHalves, hfirst, hsecond, ← hc]

/-- A spelled character gives one code unit or a surrogate pair, whatever follows. -/
theorem SpellsChar.exists_units {s : Text} {c : Char} (h : SpellsChar s c) :
    ∃ units, (∀ t, stringUnits? (s ++ t) =
        (stringUnits? t).map fun parts => (units ++ parts.1, parts.2)) ∧
      ∀ more, joinHalves (units ++ more) = (joinHalves more).map (c :: ·) := by
  cases h with
  | plain hc hquote hslash =>
      exact ⟨[c.toNat], stringUnits?_plain hc hquote hslash, joinHalves_cons c⟩
  | short he => exact ⟨[c.toNat], stringUnits?_short he, joinHalves_cons c⟩
  | quad hs => exact ⟨[c.toNat], stringUnits?_quad hs, joinHalves_cons c⟩
  | @pair s t high low _ hs ht hhigh hhigh' hlow hlow' hc =>
      refine ⟨[high, low], fun u => ?_, joinHalves_pair hhigh hhigh' hlow hlow' hc⟩
      rw [List.cons_append, List.cons_append, List.append_assoc, List.cons_append, List.cons_append,
        stringUnits?_quad hs, stringUnits?_quad ht, Option.map_map]
      rfl

theorem SpellsChars.readString? {s cs : Text} (h : SpellsChars s cs) (t : Text) :
    readString? (s ++ '"' :: t) = some (some cs, t) := by
  have hunits : ∃ units, stringUnits? (s ++ '"' :: t) = some (units, t) ∧
      joinHalves units = some cs := by
    induction h with
    | nil => exact ⟨[], by rw [List.nil_append, stringUnits?], rfl⟩
    | cons hc _ ih =>
        obtain ⟨first, hfirst, hjoined⟩ := hc.exists_units
        obtain ⟨units, hunits, hcs⟩ := ih
        refine ⟨first ++ units, ?_, ?_⟩
        · rw [List.append_assoc, hfirst, hunits, Option.map_some]
        · rw [hjoined, hcs, Option.map_some]
  obtain ⟨units, hunits, hcs⟩ := hunits
  rw [Json.readString?, hunits, Option.map_some, hcs]

/-! ## Numbers -/

/-- A text that a number before it cannot go on with. -/
def Ends (t : Text) : Prop :=
  ∀ c ∈ t.head?, c.isDigit = false ∧ c ≠ '.' ∧ c ≠ 'e' ∧ c ≠ 'E'

/-- No digit stands at the start. -/
def EndsDigits (t : Text) : Prop :=
  ∀ c ∈ t.head?, c.isDigit = false

theorem readDigits_digitText {digits : List Nat} (h : ∀ digit ∈ digits, digit < 10) {t : Text}
    (ht : EndsDigits t) : readDigits (digitText digits ++ t) = (digits, t) := by
  have hchar : ∀ i : Fin 10, (Char.ofNat (48 + i)).isDigit = true ∧
      (Char.ofNat (48 + i)).toNat - 48 = i := by decide
  have hdigits : ∀ c ∈ digitText digits, c.isDigit = true := by
    intro c hc
    obtain ⟨digit, hdigit, rfl⟩ := List.mem_map.mp hc
    exact (hchar ⟨digit, h digit hdigit⟩).1
  have htake : t.takeWhile Char.isDigit = [] ∧ t.dropWhile Char.isDigit = t := by
    cases t with
    | nil => exact ⟨rfl, rfl⟩
    | cons c t => simp [ht c rfl]
  have hvalues : (digitText digits).map (fun c => c.toNat - 48) = digits := by
    unfold digitText
    rw [List.map_map]
    conv_rhs => rw [← List.map_id digits]
    exact List.map_congr_left fun digit hdigit => (hchar ⟨digit, h digit hdigit⟩).2
  rw [readDigits, List.takeWhile_append_of_pos hdigits, List.dropWhile_append_of_pos hdigits,
    htake.1, htake.2, List.append_nil, hvalues]

theorem SpellsWhole.readWhole? {s : Text} {n : Nat} (h : SpellsWhole s n) {t : Text}
    (ht : EndsDigits t) : readWhole? (s ++ t) = some (n, t) := by
  cases h with
  | zero =>
      have hdigits : readDigits ('0' :: t) = ([0], t) :=
        @readDigits_digitText [0] (by decide) t ht
      rw [List.singleton_append, Json.readWhole?, hdigits]
      rfl
  | @digits first digits hfirst hdigits =>
      rw [Json.readWhole?, readDigits_digitText hdigits.2 ht]
      cases first with
      | zero => exact absurd hfirst (Nat.lt_irrefl 0)
      | succ first => rfl

theorem SpellsFraction.readFraction? {s : Text} {fraction : Option (List Nat)}
    (h : SpellsFraction s fraction) {t : Text} (ht : EndsDigits t) (hpoint : ∀ c ∈ t.head?, c ≠ '.') :
    readFraction? (s ++ t) = some (fraction, t) := by
  cases h with
  | none =>
      cases t with
      | nil => rfl
      | cons c t =>
          rw [List.nil_append, Json.readFraction?]
          rintro u ⟨⟩
          exact hpoint '.' rfl rfl
  | @digits digits hdigits =>
      rw [List.cons_append, Json.readFraction?, readDigits_digitText hdigits.2 ht]
      obtain ⟨digit, digits, rfl⟩ := List.exists_cons_of_ne_nil hdigits.1
      rfl

theorem readScale?_digitText {digits : List Nat} (h : IsDigits digits) (negative : Bool) {t : Text}
    (ht : EndsDigits t) :
    readScale? negative (digitText digits ++ t) =
      some (some (if negative then -(ofDigits digits : Int) else ofDigits digits), t) := by
  rw [readScale?, readDigits_digitText h.2 ht]
  obtain ⟨digit, digits, rfl⟩ := List.exists_cons_of_ne_nil h.1
  rfl

/-- Digits start with a digit. -/
theorem exists_digitText_eq_cons {digits : List Nat} (h : IsDigits digits) :
    ∃ c rest, digitText digits = c :: rest ∧ c.isDigit = true := by
  obtain ⟨hne, hlt⟩ := h
  obtain ⟨digit, digits, rfl⟩ := List.exists_cons_of_ne_nil hne
  have hdigit : ∀ i : Fin 10, (Char.ofNat (48 + i)).isDigit = true := by decide
  exact ⟨_, _, rfl, hdigit ⟨digit, hlt digit List.mem_cons_self⟩⟩

theorem SpellsExponent.readExponent? {s : Text} {exponent : Option Int}
    (h : SpellsExponent s exponent) {t : Text} (ht : Ends t) :
    readExponent? (s ++ t) = some (exponent, t) := by
  have hend : EndsDigits t := fun c hc => (ht c hc).1
  cases h with
  | none =>
      cases t with
      | nil => rfl
      | cons c t =>
          obtain ⟨-, -, hlower, hupper⟩ := ht c rfl
          rw [List.nil_append, Json.readExponent?.eq_def]
          exact if_neg (by simp [hlower, hupper])
  | @bare e digits he hdigits =>
      have hscale := readScale?_digitText hdigits false hend
      obtain ⟨c, rest, hrest, hc⟩ := exists_digitText_eq_cons hdigits
      rw [hrest, List.cons_append] at hscale
      rw [hrest, List.cons_append, List.cons_append, Json.readExponent?, if_pos (by simpa using he)]
      · exact hscale
      -- a digit is no sign
      · rintro u ⟨⟩
        cases hc
      · rintro u ⟨⟩
        cases hc
  | @plus e digits he hdigits =>
      rw [List.cons_append, List.cons_append, Json.readExponent?, if_pos (by simpa using he)]
      exact readScale?_digitText hdigits false hend
  | @minus e digits he hdigits =>
      rw [List.cons_append, List.cons_append, Json.readExponent?, if_pos (by simpa using he)]
      exact readScale?_digitText hdigits true hend

theorem SpellsExponent.eq_nil_or_cons {s : Text} {exponent : Option Int}
    (h : SpellsExponent s exponent) : s = [] ∨ ∃ e rest, s = e :: rest ∧ (e = 'e' ∨ e = 'E') := by
  cases h with
  | none => exact .inl rfl
  | bare he => exact .inr ⟨_, _, rfl, he⟩
  | plus he => exact .inr ⟨_, _, rfl, he⟩
  | minus he => exact .inr ⟨_, _, rfl, he⟩

/-- An exponent ends the digits before it. -/
theorem SpellsExponent.endsDigits {s : Text} {exponent : Option Int} (h : SpellsExponent s exponent)
    {t : Text} (ht : Ends t) :
    EndsDigits (s ++ t) ∧ ∀ c ∈ (s ++ t).head?, c ≠ '.' := by
  rcases h.eq_nil_or_cons with rfl | ⟨e, rest, rfl, he⟩
  · exact ⟨fun c hc => (ht c hc).1, fun c hc => (ht c hc).2.1⟩
  · refine ⟨?_, ?_⟩ <;> rintro c ⟨⟩
    · rcases he with rfl | rfl <;> rfl
    · rcases he with rfl | rfl <;> decide

theorem SpellsFraction.endsDigits {s : Text} {fraction : Option (List Nat)}
    (h : SpellsFraction s fraction) {t : Text} (ht : EndsDigits t) : EndsDigits (s ++ t) := by
  cases h with
  | none => exact ht
  | digits _ =>
      rintro c ⟨⟩
      rfl

theorem SpellsUnsigned.readNumber? {negative : Bool} {s : Text} {n : Number}
    (h : SpellsUnsigned negative s n) {t : Text} (ht : Ends t) :
    readNumber? negative (s ++ t) = some (n, t) := by
  cases h with
  | parts hwhole hfraction hexponent =>
      obtain ⟨hend, hpoint⟩ := hexponent.endsDigits ht
      rw [Json.readNumber?, List.append_assoc, List.append_assoc,
        hwhole.readWhole? (hfraction.endsDigits hend)]
      show (readFraction? _).bind _ = _
      rw [hfraction.readFraction? hend hpoint]
      show (readExponent? _).bind _ = _
      rw [hexponent.readExponent? ht]
      rfl

theorem SpellsUnsigned.exists_eq_cons {negative : Bool} {s : Text} {n : Number}
    (h : SpellsUnsigned negative s n) : ∃ c rest, s = c :: rest ∧ c.isDigit = true := by
  cases h with
  | parts hwhole _ _ =>
      cases hwhole with
      | zero => exact ⟨'0', _, rfl, rfl⟩
      | digits _ hdigits =>
          obtain ⟨c, rest, hrest, hc⟩ := exists_digitText_eq_cons hdigits
          exact ⟨c, _, by rw [hrest, List.cons_append], hc⟩

/-! ## Items -/

/-- The text starts with a character that neither is a blank nor closes a bracket. -/
def Opens (s : Text) : Prop :=
  ∃ c rest, s = c :: rest ∧ isSpace c = false ∧ c ≠ ']' ∧ c ≠ '}'

/-- The item is read from the text, whatever follows it. -/
structure Reads {α : Type} (item? : Text → Option (α × Text)) (s : Text) (x : α) : Prop where
  opens : Opens s
  reads : ∀ t, Ends t → item? (s ++ t) = some (x, t)

theorem Opens.skipSpace {s : Text} (h : Opens s) (t : Text) : skipSpace (s ++ t) = s ++ t := by
  obtain ⟨c, rest, rfl, hspace, -⟩ := h
  rw [List.cons_append, skipSpace_cons hspace]

theorem Gap.ends {a : Text} (h : Gap a) {t : Text} (ht : Ends t) : Ends (a ++ t) := by
  cases a with
  | nil => exact ht
  | cons c a =>
      rintro d ⟨⟩
      rcases isSpace_iff.mp (h c List.mem_cons_self) with rfl | rfl | rfl | rfl <;> decide

theorem ends_cons {c : Char} (h : c.isDigit = false ∧ c ≠ '.' ∧ c ≠ 'e' ∧ c ≠ 'E') (t : Text) :
    Ends (c :: t) := by
  rintro d ⟨⟩
  exact h

section Items

variable {α : Type} {Item : Text → α → Prop} {item? : Text → Option (α × Text)}

theorem Listed.mono {Other : Text → α → Prop} {n : Nat} {s : Text} {xs : List α}
    (h : Listed Item s xs) (hs : s.length ≤ n)
    (hitem : ∀ u x, u.length ≤ n → Item u x → Other u x) : Listed Other s xs := by
  induction h with
  | one ha hx hb =>
      simp only [List.length_append] at hs
      exact .one ha (hitem _ _ (by omega) hx) hb
  | cons ha hx hb _ ih =>
      simp only [List.length_append, List.length_cons] at hs
      exact .cons ha (hitem _ _ (by omega) hx) hb (ih (by omega))

/-- Blanks before the first item are skipped. -/
theorem Listed.skipSpace {s : Text} {xs : List α} (h : Listed (Reads item?) s xs) :
    ∃ u, Opens u ∧ Listed (Reads item?) u xs ∧ ∀ t, Json.skipSpace (s ++ t) = u ++ t := by
  cases h with
  | @one a s b x ha hx hb =>
      refine ⟨s ++ b, ?_, .one gap_nil hx hb, fun t => ?_⟩
      · obtain ⟨c, rest, rfl, hc⟩ := hx.opens
        exact ⟨c, _, rfl, hc⟩
      · rw [List.append_assoc, List.append_assoc, skipSpace_gap_append ha, hx.opens.skipSpace]
  | @cons a s b t' x xs ha hx hb hrest =>
      refine ⟨s ++ (b ++ ',' :: t'), ?_, .cons gap_nil hx hb hrest, fun t => ?_⟩
      · obtain ⟨c, rest, rfl, hc⟩ := hx.opens
        exact ⟨c, _, rfl, hc⟩
      · rw [List.append_assoc, List.append_assoc, skipSpace_gap_append ha, hx.opens.skipSpace]

variable {close : Char}

/-- The item before the bracket. -/
theorem readItems?_last {s t u : Text} {x : α} (hitem : item? (Json.skipSpace s) = some (x, t))
    (hclose : Json.skipSpace t = close :: u) (hcomma : close ≠ ',') (fuel : Nat) :
    readItems? item? close (fuel + 1) s = some ([x], u) := by
  simp [readItems?, hitem, hclose, hcomma]

/-- An item before a comma. -/
theorem readItems?_comma {s t u v : Text} {x : α} {xs : List α} {fuel : Nat}
    (hitem : item? (Json.skipSpace s) = some (x, t)) (hcomma : Json.skipSpace t = ',' :: u)
    (hitems : readItems? item? close fuel u = some (xs, v)) :
    readItems? item? close (fuel + 1) s = some (x :: xs, v) := by
  simp [readItems?, hitem, hcomma, hitems]

/-- Items are read up to the bracket. Each takes a character at least, so the reader does not give
up if it may take as many as there are characters. -/
theorem Listed.readItems? {s : Text} {xs : List α} (h : Listed (Reads item?) s xs)
    (hclose : close = ']' ∨ close = '}') (t : Text) {fuel : Nat}
    (hfuel : (s ++ close :: t).length ≤ fuel) :
    readItems? item? close fuel (s ++ close :: t) = some (xs, t) := by
  have hspace : isSpace close = false := by rcases hclose with rfl | rfl <;> rfl
  have hcomma : close ≠ ',' := by rcases hclose with rfl | rfl <;> decide
  have hends : Ends (close :: t) := ends_cons (by rcases hclose with rfl | rfl <;> decide) t
  induction h generalizing fuel with
  | @one a s b x ha hx hb =>
      obtain ⟨fuel, rfl⟩ : ∃ n, fuel = n + 1 := Nat.exists_eq_add_one.mpr (by simp at hfuel; omega)
      refine readItems?_last (t := b ++ close :: t) ?_ ?_ hcomma fuel
      · rw [List.append_assoc, List.append_assoc, skipSpace_gap_append ha, hx.opens.skipSpace,
          hx.reads _ (hb.ends hends)]
      · rw [skipSpace_gap_append hb, skipSpace_cons hspace]
  | @cons a s b u x xs ha hx hb hrest ih =>
      obtain ⟨fuel, rfl⟩ : ∃ n, fuel = n + 1 := Nat.exists_eq_add_one.mpr (by simp at hfuel; omega)
      have hrest : (u ++ close :: t).length ≤ fuel := by
        simp only [List.length_append, List.length_cons] at hfuel ⊢
        omega
      have hends' : Ends (',' :: (u ++ close :: t)) := ends_cons (by decide) _
      refine readItems?_comma (t := b ++ ',' :: (u ++ close :: t)) ?_ ?_ (ih hrest)
      · rw [List.append_assoc, List.append_assoc, List.append_assoc, List.cons_append,
          skipSpace_gap_append ha, hx.opens.skipSpace, hx.reads _ (hb.ends hends')]
      · rw [skipSpace_gap_append hb, skipSpace_cons (by decide)]

end Items

/-! ## Values -/

/-- A digit opens a value. -/
theorem opens_of_isDigit {c : Char} (h : c.isDigit = true) (s : Text) : Opens (c :: s) := by
  refine ⟨c, s, rfl, ?_, ?_, ?_⟩
  · rw [Bool.eq_false_iff]
    intro hspace
    rcases isSpace_iff.mp hspace with rfl | rfl | rfl | rfl <;> cases h
  · rintro rfl
    cases h
  · rintro rfl
    cases h

theorem Spells.opens {s : Text} {j : Json} (h : Spells s j) : Opens s := by
  cases h with
  | unsigned hn =>
      obtain ⟨c, rest, rfl, hc⟩ := hn.exists_eq_cons
      exact opens_of_isDigit hc rest
  | _ => exact ⟨_, _, rfl, by decide⟩

theorem SpellsMember.mono {Value Other : Text → Json → Prop} {n : Nat} {s : Text}
    {member : Option Text × Json} (h : SpellsMember Value s member) (hs : s.length ≤ n)
    (hvalue : ∀ t j, t.length ≤ n → Value t j → Other t j) : SpellsMember Other s member := by
  cases h with
  | pair hname ha hb ht =>
      simp only [List.length_cons, List.length_append] at hs
      exact .pair hname ha hb (hvalue _ _ (by omega) ht)

theorem readMember?_of_colon {value? : Text → Option (Json × Text)} {s t u v : Text}
    {name : Option Text} {value : Json} (hname : readString? s = some (name, t))
    (hcolon : skipSpace t = ':' :: u) (hvalue : value? (skipSpace u) = some (value, v)) :
    readMember? value? ('"' :: s) = some ((name, value), v) := by
  simp [readMember?, hname, hcolon, hvalue]

theorem SpellsMember.reads {value? : Text → Option (Json × Text)} {s : Text}
    {member : Option Text × Json} (h : SpellsMember (Reads value?) s member) :
    Reads (readMember? value?) s member := by
  cases h with
  | @pair s name a b u value hname ha hb hvalue =>
      refine ⟨⟨_, _, rfl, by decide⟩, fun t ht => ?_⟩
      simp only [List.cons_append, List.append_assoc]
      refine readMember?_of_colon (hname.readString? _) (u := b ++ (u ++ t)) ?_ ?_
      · rw [skipSpace_gap_append ha, skipSpace_cons (by decide)]
      · rw [skipSpace_gap_append hb, hvalue.opens.skipSpace, hvalue.reads t ht]

theorem readValue?_digit {c : Char} (h : c.isDigit = true) (depth : Nat) (s : Text) :
    readValue? (depth + 1) (c :: s) =
      (readNumber? false (c :: s)).map fun parts => (.number parts.1, parts.2) := by
  rw [readValue?.eq_def]
  dsimp only
  split
  case h_8 => rfl
  all_goals
    rename_i heq
    obtain ⟨rfl, -⟩ := List.cons.inj heq
    cases h

/-- What is read after an opening bracket. -/
theorem readValue?_array {depth : Nat} {s : Text} {items : List Json}
    (h : Listed (Reads (readValue? depth)) s items) (t : Text) :
    readValue? (depth + 1) ('[' :: (s ++ ']' :: t)) = some (.array items, t) := by
  obtain ⟨u, ⟨c, rest, rfl, -, hc, -⟩, hu, hskip⟩ := h.skipSpace
  rw [readValue?, hskip]
  split
  · rename_i heq
    exact absurd (List.cons.inj heq).1 hc
  · rw [hu.readItems? (.inl rfl) t (Nat.le_refl _)]
    rfl

theorem readValue?_object {depth : Nat} {s : Text} {members : List (Option Text × Json)}
    (h : Listed (Reads (readMember? (readValue? depth))) s members) (t : Text) :
    readValue? (depth + 1) ('{' :: (s ++ '}' :: t)) = some (.object members, t) := by
  obtain ⟨u, ⟨c, rest, rfl, -, -, hc⟩, hu, hskip⟩ := h.skipSpace
  rw [readValue?, hskip]
  split
  · rename_i heq
    exact absurd (List.cons.inj heq).1 hc
  · rw [hu.readItems? (.inr rfl) t (Nat.le_refl _)]
    rfl

/-- A spelled value is read, whatever follows it, if it is not longer than the reader may go down.
The induction is on the depth: what is in brackets is shorter than the text with them. -/
theorem Spells.reads {depth : Nat} {s : Text} {j : Json} (h : Spells s j) (hs : s.length ≤ depth) :
    Reads (readValue? (depth + 1)) s j := by
  induction depth generalizing s j with
  | zero =>
      obtain ⟨c, rest, rfl, -⟩ := h.opens
      simp at hs
  | succ depth ih =>
      refine ⟨h.opens, fun t ht => ?_⟩
      cases h with
      | null => rfl
      | true => rfl
      | false => rfl
      | unsigned hn =>
          obtain ⟨c, rest, rfl, hc⟩ := hn.exists_eq_cons
          rw [List.cons_append, readValue?_digit hc, ← List.cons_append, hn.readNumber? ht]
          rfl
      | negative hn =>
          rw [List.cons_append, readValue?, hn.readNumber? ht]
          rfl
      | string hchars =>
          rw [List.cons_append, List.append_assoc, readValue?]
          show (readString? (_ ++ '"' :: t)).map _ = _
          rw [hchars.readString?]
          rfl
      | emptyArray hgap =>
          rw [List.cons_append, List.append_assoc, readValue?, skipSpace_gap_append hgap]
          rfl
      | emptyObject hgap =>
          rw [List.cons_append, List.append_assoc, readValue?, skipSpace_gap_append hgap]
          rfl
      | array hitems =>
          simp only [List.length_cons, List.length_append] at hs
          rw [List.cons_append, List.append_assoc]
          exact readValue?_array
            (hitems.mono (n := depth) (by omega) fun u x hu hx => ih hx hu) t
      | object hmembers =>
          simp only [List.length_cons, List.length_append] at hs
          rw [List.cons_append, List.append_assoc]
          exact readValue?_object
            (hmembers.mono (n := depth) (by omega) fun u x hu hx =>
              (hx.mono hu fun v y hv hy => ih hy hv).reads) t

/-- Every text that spells a document is read as this document. -/
theorem SpellsDocument.read? {s : Text} {j : Json} (h : SpellsDocument s j) :
    Json.read? s = some j := by
  cases h with
  | @value a s b _ ha hs hb =>
      have hends : Ends b := by
        rw [← List.append_nil b]
        exact hb.ends fun c hc => by cases hc
      have hlength : s.length ≤ (a ++ (s ++ b)).length := by
        rw [List.length_append, List.length_append]
        omega
      have hreads := hs.reads hlength
      rw [Json.read?, skipSpace_gap_append ha, hreads.opens.skipSpace, hreads.reads b hends]
      show (if skipSpace b = [] then _ else _) = _
      rw [if_pos (skipSpace_gap hb)]

end Inlay.Json
