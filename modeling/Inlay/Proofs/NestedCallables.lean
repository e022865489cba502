import Inlay.Proofs.MaskedScan

/-!
# Nested callables

A pass over code makes the callables in it capture the indentation parameter.
It finds them by how they open. If a text has no such opening, then it has
none where margins, backslashes and expressions are put into it, as these
stop every opening. So the pass meets the generated callables only, also when
it goes over the same code again, and what it leaves of the text is the text.
-/

namespace Inlay.Callable

open Text Keyword

/-! ## Openings -/

/-- How a callable opens: the keyword, and a parenthesis after blanks. -/
def Opens (p : Text) : Prop :=
  ∃ gap, (∀ c ∈ gap, isBlank c = true) ∧ p = word ++ (gap ++ ['('])

/-- No callable opens in the text. -/
def Calm (s : Text) : Prop :=
  ∀ p, Opens p → ¬ p <:+: s

/-- The character is in no opening. -/
def Stops (c : Char) : Prop :=
  c ∉ word ∧ isBlank c = false ∧ c ≠ '('

instance : DecidablePred Stops :=
  fun c => inferInstanceAs (Decidable (c ∉ word ∧ isBlank c = false ∧ c ≠ '('))

theorem Stops.not_mem {c : Char} (hc : Stops c) {p : Text} (hp : Opens p) : c ∉ p := by
  obtain ⟨gap, hgap, rfl⟩ := hp
  obtain ⟨hword, hblank, hparenthesis⟩ := hc
  intro h
  rcases List.mem_append.mp h with h | h
  · exact hword h
  · rcases List.mem_append.mp h with h | h
    · rw [hgap c h] at hblank
      cases hblank
    · exact hparenthesis (List.mem_singleton.mp h)

theorem opening?_of_gap {gap : Text} (hgap : ∀ c ∈ gap, isBlank c = true) (inner : Text) :
    opening? (word ++ (gap ++ '(' :: inner)) = some (decide ('\n' ∉ gap), inner) := by
  have hblank : isBlank '(' = false := by decide
  have hdrop : (gap ++ '(' :: inner).dropWhile isBlank = '(' :: inner := by
    rw [List.dropWhile_append_of_pos hgap, List.dropWhile_cons_of_neg (by simp [hblank])]
  have htake : (gap ++ '(' :: inner).takeWhile isBlank = gap := by
    rw [List.takeWhile_append_of_pos hgap, List.takeWhile_cons_of_neg (by simp [hblank]),
      List.append_nil]
  simp [opening?, hdrop, htake, after?]

theorem opening?_eq_none_iff {s : Text} : opening? s = none ↔ ∀ p, Opens p → ¬ p <+: s := by
  constructor
  · rintro h p ⟨gap, hgap, rfl⟩ ⟨inner, rfl⟩
    have hfound := opening?_of_gap hgap inner
    simp only [List.append_assoc, List.singleton_append] at h
    rw [h] at hfound
    cases hfound
  · intro h
    by_contra hne
    obtain ⟨⟨sameLine, inner⟩, hfound⟩ := Option.ne_none_iff_exists'.mp hne
    obtain ⟨gap, rfl, hgap, -⟩ := eq_append_of_opening? hfound
    exact h _ ⟨gap, hgap, rfl⟩ ⟨inner, by simp⟩

theorem calm_iff_tails {s : Text} : Calm s ↔ ∀ t ∈ s.tails, opening? t = none := by
  simp only [opening?_eq_none_iff, List.mem_tails]
  constructor
  · exact fun h t ht p hp hpt => h p hp (hpt.isInfix.trans ht.isInfix)
  · intro h p hp hps
    obtain ⟨t, hpt, ht⟩ := List.infix_iff_prefix_suffix.mp hps
    exact h t ht p hp hpt

instance (s : Text) : Decidable (Calm s) :=
  decidable_of_iff _ calm_iff_tails.symm

theorem prefix_of_prefix_append_cons {c : Char} {p s t : Text} (hc : c ∉ p) (h : p <+: s ++ c :: t) :
    p <+: s := by
  rcases List.prefix_or_prefix_of_prefix h (List.prefix_append s (c :: t)) with hps | ⟨q, rfl⟩
  · exact hps
  · cases q with
    | nil =>
        rw [List.append_nil]
    | cons d q =>
        obtain ⟨rfl, -⟩ := List.cons_prefix_cons.mp ((List.prefix_append_right_inj s).mp h)
        exact absurd (List.mem_append_right s List.mem_cons_self) hc

theorem infix_of_infix_append_cons {c : Char} {p s t : Text} (hc : c ∉ p) (h : p <:+: s ++ c :: t) :
    p <:+: s ∨ p <:+: t := by
  induction s with
  | nil =>
      rcases List.infix_cons_iff.mp h with h | h
      · exact .inl (prefix_of_prefix_append_cons (s := []) hc h).isInfix
      · exact .inr h
  | cons d s ih =>
      rcases List.infix_cons_iff.mp h with h | h
      · exact .inl (prefix_of_prefix_append_cons (s := d :: s) hc h).isInfix
      · exact (ih h).imp_left List.infix_cons

namespace Calm

theorem of_isInfix {s t : Text} (ht : Calm t) (h : s <:+: t) : Calm s :=
  fun p hp hps => ht p hp (hps.trans h)

theorem append_cons {s t : Text} {c : Char} (hs : Calm s) (hc : Stops c) (ht : Calm t) :
    Calm (s ++ c :: t) :=
  fun p hp h => (infix_of_infix_append_cons (hc.not_mem hp) h).elim (hs p hp) (ht p hp)

theorem append_of_not_mem {s t : Text} (hs : 'f' ∉ s) (ht : Calm t) : Calm (s ++ t) := by
  rintro p ⟨gap, hgap, rfl⟩ h
  exact ht _ ⟨gap, hgap, rfl⟩ (infix_of_infix_append (a := 'f') hs h)

theorem of_not_mem {s : Text} (hs : 'f' ∉ s) : Calm s := by
  have hnil : Calm [] := by decide
  have h := append_of_not_mem hs hnil
  rwa [List.append_nil] at h

theorem header?_eq_none {s : Text} (hs : Calm s) : header? s = none := by
  have hnone : opening? s = none :=
    opening?_eq_none_iff.mpr fun p hp hps => hs p hp hps.isInfix
  rw [header?, hnone, Option.bind_none]

end Calm

theorem header?_eq_none_of_stops {s : Text} (hs : Calm s) {c : Char} (hc : Stops c) (t : Text) :
    header? (s ++ c :: t) = none := by
  have hnone : opening? (s ++ c :: t) = none := by
    rw [opening?_eq_none_iff]
    exact fun p hp h => hs p hp (prefix_of_prefix_append_cons (hc.not_mem hp) h).isInfix
  rw [header?, hnone, Option.bind_none]

/-- Where no callable opens, none captures. -/
theorem capture_append_cons {s : Text} (hs : Calm s) {c : Char} (hc : Stops c) (inWord : Bool)
    (t : Text) : capture inWord (s ++ c :: t) = s ++ c :: capture (isWord c) t := by
  induction s generalizing inWord with
  | nil => exact capture_cons (.inr (header?_eq_none_of_stops hs hc t))
  | cons d s ih =>
      have htail := hs.of_isInfix (List.suffix_cons d s).isInfix
      have hnone : header? (d :: (s ++ c :: t)) = none := header?_eq_none_of_stops hs hc t
      rw [List.cons_append, capture_cons (.inr hnone), ih htail, List.cons_append]

theorem capture_of_calm {s : Text} (hs : Calm s) (inWord : Bool) : capture inWord s = s := by
  induction s generalizing inWord with
  | nil => exact capture_nil inWord
  | cons c s ih =>
      have htail := hs.of_isInfix (List.suffix_cons c s).isInfix
      rw [capture_cons (.inr hs.header?_eq_none), ih htail]

/-! ## Interruptions -/

/-- A text on one line that nothing opens in, and that ends what opened before its end. -/
structure Sealed (x : Text) : Prop where
  last : ∃ y c, x = y ++ [c] ∧ Calm y ∧ Stops c
  line : '\n' ∉ x

/-- A sealed text that also ends what opened before it. -/
structure Guarded (x : Text) : Prop extends Sealed x where
  head : ∃ c y, x = c :: y ∧ Stops c

/-- The first text is the second one with guarded texts in between, or in the place of something. -/
inductive Interrupts : Text → Text → Prop
  | nil : Interrupts [] []
  | char (c) {u w} : Interrupts u w → Interrupts (c :: u) (c :: w)
  | guard {x u w} (y) : Guarded x → Interrupts u w → Interrupts (x ++ u) (y ++ w)

namespace Interrupts

theorem refl (s : Text) : Interrupts s s := by
  induction s with
  | nil => exact .nil
  | cons c s ih => exact .char c ih

theorem append {u w u' w' : Text} (h : Interrupts u w) (h' : Interrupts u' w') :
    Interrupts (u ++ u') (w ++ w') := by
  induction h with
  | nil => exact h'
  | char c _ ih => exact .char c ih
  | guard y hx _ ih =>
      rw [List.append_assoc, List.append_assoc]
      exact .guard y hx ih

theorem of_guarded {x : Text} (hx : Guarded x) (y : Text) : Interrupts x y := by
  have h := Interrupts.guard y hx .nil
  rwa [List.append_nil, List.append_nil] at h

/-- What has no stopping character at the start of the first text is at the start of the second. -/
theorem isPrefix {p u w : Text} (hp : ∀ c ∈ p, ¬ Stops c) (h : Interrupts u w) (hu : p <+: u) :
    p <+: w := by
  induction p generalizing u w with
  | nil => exact List.nil_prefix
  | cons c p ih =>
      obtain ⟨hc, hp⟩ := List.forall_mem_cons.mp hp
      cases h with
      | nil => exact absurd (List.prefix_nil.mp hu) (List.cons_ne_nil c p)
      | char d h =>
          obtain ⟨rfl, hpu⟩ := List.cons_prefix_cons.mp hu
          exact List.cons_prefix_cons.mpr ⟨rfl, ih hp h hpu⟩
      | guard y hx _ =>
          obtain ⟨d, z, rfl, hd⟩ := hx.head
          obtain ⟨rfl, -⟩ := List.cons_prefix_cons.mp hu
          exact absurd hd hc

theorem isInfix {p u w : Text} (hp : Opens p) (h : Interrupts u w) (hu : p <:+: u) : p <:+: w := by
  have hstops : ∀ c ∈ p, ¬ Stops c := fun c hc hstop => hstop.not_mem hp hc
  induction h with
  | nil => exact hu
  | @char c u w h ih =>
      rcases List.infix_cons_iff.mp hu with hu | hu
      · exact (isPrefix hstops (.char c h) hu).isInfix
      · exact List.infix_cons (ih hu)
  | guard y hx _ ih =>
      obtain ⟨z, c, rfl, hz, hc⟩ := hx.last
      rw [List.append_assoc] at hu
      rcases infix_of_infix_append_cons (hc.not_mem hp) hu with hu | hu
      · exact absurd hu (hz p hp)
      · exact (ih hu).trans (List.suffix_append y _).isInfix

theorem calm {u w : Text} (h : Interrupts u w) (hw : Calm w) : Calm u :=
  fun p hp hu => hw p hp (h.isInfix hp hu)

theorem quote (s : Text) : Interrupts (Text.quote s) s := by
  have hslash : Guarded ['\\'] :=
    { last := ⟨[], '\\', rfl, by decide, by decide⟩, line := by decide,
      head := ⟨'\\', [], rfl, by decide⟩ }
  induction s with
  | nil => exact .nil
  | cons c s ih =>
      by_cases hc : c = '\''
      · subst hc
        have hquote : Interrupts (['\\'] ++ '\'' :: Text.quote s) ([] ++ '\'' :: s) :=
          .guard [] hslash (.char _ ih)
        exact hquote
      · simpa [Text.quote, hc] using Interrupts.char c ih

theorem mask (s : Text) : Interrupts (mask s) s := by
  have hsentinel : Guarded sentinel :=
    { last := ⟨sentinel.dropLast, '!', rfl, by decide, by decide⟩, line := by decide,
      head := ⟨'!', sentinel.tail, rfl, by decide⟩ }
  induction s using replaceInduction word_ne_nil with
  | nil =>
      rw [mask_nil]
      exact .nil
  | hit s ih =>
      rw [mask_word_append]
      exact .guard word hsentinel ih
  | miss c s hc ih =>
      rw [mask_cons hc]
      exact .char c ih

section

variable {x : Text} (hx : Guarded x)

include hx

theorem owed (m : Margin) {u w : Text} (h : Interrupts u w) : Interrupts (m.owed x ++ u) w := by
  cases m with
  | paid => exact h
  | _ => exact .guard [] hx h

theorem lead {u w : Text} (h : Interrupts u w) (m : Margin) : Interrupts (lead x m u) w := by
  induction h generalizing m with
  | nil => exact .nil
  | char c _ ih => exact owed hx m (.char c (ih _))
  | @guard z u w y hz _ ih =>
      obtain ⟨c, t, rfl, -⟩ := hz.head
      obtain ⟨hlead, hafter⟩ := lead_of_line (List.cons_ne_nil c t) hz.line x m
      rw [lead_append, hlead, hafter, List.append_assoc]
      exact owed hx m (.guard y hz (ih _))

end

end Interrupts

/-! ## Headers -/

/-- What a callable that captures so many times has at the end of its parameters. -/
def captures (k : Nat) : Text :=
  (List.replicate k ")use($sp".toList).flatten

/-- The header of a callable in code that the pass has gone over so many times. -/
def header : Nat → Text
  | 0 => word ++ " ($cx, $in, $sp) \x7b".toList
  | k + 1 => word ++ ("($cx, $in, $sp".toList ++ (captures (k + 1) ++ ")\x7b".toList))

theorem captures_succ (k : Nat) : captures (k + 1) = captures k ++ ")use($sp".toList := by
  simp [captures, List.replicate_succ']

theorem header_subset (k : Nat) : header k ⊆ "function ($cx, $in, $sp)use\x7b".toList := by
  have hcaptures : ∀ k, captures k ⊆ "function ($cx, $in, $sp)use\x7b".toList := by
    intro k c h
    obtain ⟨s, hs, hmem⟩ := List.mem_flatten.mp h
    rw [List.eq_of_mem_replicate hs] at hmem
    have hclause : ")use($sp".toList ⊆ "function ($cx, $in, $sp)use\x7b".toList := by decide
    exact hclause hmem
  cases k with
  | zero => decide
  | succ k =>
      simp only [header, List.append_subset]
      exact ⟨by decide, by decide, hcaptures _, by decide⟩

theorem newline_not_mem_header (k : Nat) : '\n' ∉ header k :=
  fun h => absurd (header_subset k h) (by decide)

theorem bell_not_mem_header (k : Nat) : bell ∉ header k :=
  fun h => absurd (header_subset k h) (by decide)

theorem parameters?_append {x : Text} (hx : ∀ c ∈ x, c ≠ ')' ∧ c ≠ '\n') (s : Text) :
    parameters? (x ++ s) = (parameters? s).map fun parts => (x ++ parts.1, parts.2) := by
  induction x with
  | nil => simp
  | cons c x ih =>
      obtain ⟨⟨hclose, hline⟩, hx⟩ := List.forall_mem_cons.mp hx
      simp only [List.cons_append, parameters?, hclose, hline, if_false, ih hx, Option.map_map]
      rfl

/-- The parameters do not end before a further clause of the header. -/
theorem parameters?_captures (k : Nat) (s : Text) :
    parameters? (captures k ++ s) = (parameters? s).map fun parts => (captures k ++ parts.1, parts.2) := by
  induction k with
  | zero => simp [captures]
  | succ k ih =>
      have hclause : captures (k + 1) = ')' :: ("use($sp".toList ++ captures k) := by
        simp [captures, List.replicate_succ]
      have hopen : after? ['\x7b'] (("use($sp".toList ++ (captures k ++ s)).dropWhile isBlank) = none :=
        rfl
      rw [hclause, List.cons_append, List.append_assoc, parameters?, if_pos rfl, hopen,
        parameters?_append (by decide), ih]
      simp [Function.comp_def]

/-- Every header is found, and captures once more. -/
theorem capture_header (k : Nat) (t : Text) :
    capture false (header k ++ t) = header (k + 1) ++ capture false t := by
  have hparameters : ∀ e : Text, parameters? (e ++ t) = some ([], t) →
      parameters? (("$cx, $in, $sp".toList ++ (captures k ++ e)) ++ t) =
        some ("$cx, $in, $sp".toList ++ captures k, t) := by
    intro e he
    rw [List.append_assoc, List.append_assoc, parameters?_append (by decide),
      parameters?_captures, he, Option.map_some, Option.map_some, List.append_nil]
  have hfound : header? (header k ++ t) = some ("$cx, $in, $sp".toList ++ captures k, t) := by
    cases k with
    | zero =>
        have hgap : ∀ c ∈ [' '], isBlank c = true := by decide
        have hheader : header 0 ++ t = word ++ ([' '] ++ '(' ::
            (("$cx, $in, $sp".toList ++ (captures 0 ++ ") \x7b".toList)) ++ t)) := by
          rw [header, List.append_assoc]
          rfl
        rw [hheader, header?, opening?_of_gap hgap, Option.bind_some]
        exact hparameters ") \x7b".toList rfl
    | succ k =>
        have hgap : ∀ c ∈ ([] : Text), isBlank c = true := by decide
        have hheader : header (k + 1) ++ t = word ++ ([] ++ '(' ::
            (("$cx, $in, $sp".toList ++ (captures (k + 1) ++ ")\x7b".toList)) ++ t)) := by
          simp only [header, List.append_assoc]
          rfl
        rw [hheader, header?, opening?_of_gap hgap, Option.bind_some]
        exact hparameters ")\x7b".toList rfl
  have hnext : word ++ '(' :: ("$cx, $in, $sp".toList ++ captures k) ++ ")use($sp)\x7b".toList =
      header (k + 1) := by
    simp only [header, captures_succ, List.append_assoc]
    rfl
  rw [capture_of_header? hfound, hnext]

/-! ## Code with callables -/

/-- The code carries the text: it is the text with interruptions, some of which have callables.
The code is given for each number of times that the pass has gone over it. -/
inductive Carries : (Nat → Text) → Text → Prop
  | text {u w} : Interrupts u w → Carries (fun _ => u) w
  | callable {u w x g v} (d) : Interrupts u w → Sealed x → Carries g v →
      Carries (fun k => u ++ (", ".toList ++ (header (k + d) ++ (x ++ g k)))) (w ++ v)

namespace Carries

variable {g g' : Nat → Text} {w w' : Text}

theorem append (h : Carries g w) (h' : Carries g' w') : Carries (fun k => g k ++ g' k) (w ++ w') := by
  induction h with
  | @text u w hu =>
      cases h' with
      | text hu' => exact .text (hu.append hu')
      | callable d hu' hx hg =>
          have h := Carries.callable d (hu.append hu') hx hg
          simp only [List.append_assoc] at h ⊢
          exact h
  | callable d hu hx _ ih =>
      simp only [List.append_assoc]
      exact .callable d hu hx ih

theorem lead {x : Text} (hx : Guarded x) (h : Carries g w) (m : Margin) :
    Carries (fun k => lead x m (g k)) w := by
  induction h generalizing m with
  | text hu => exact .text (hu.lead hx m)
  | @callable u w z g v d hu hz _ ih =>
      have hline : ∀ k, '\n' ∉ ", ".toList ++ (header (k + d) ++ z) := by
        intro k h
        rcases List.mem_append.mp h with h | h
        · exact absurd h (by decide)
        · exact (List.mem_append.mp h).elim (newline_not_mem_header _) hz.line
      have hlead : ∀ k, Text.lead x m (u ++ (", ".toList ++ (header (k + d) ++ (z ++ g k)))) =
          (Text.lead x m u ++ (m.after u).owed x) ++
            (", ".toList ++ (header (k + d) ++ (z ++ Text.lead x .paid (g k)))) := by
        intro k
        have hne : ", ".toList ++ (header (k + d) ++ z) ≠ [] :=
          List.append_ne_nil_of_left_ne_nil (by decide) _
        obtain ⟨hled, hafter⟩ := lead_of_line hne (hline k) x (m.after u)
        have hsplit : u ++ (", ".toList ++ (header (k + d) ++ (z ++ g k))) =
            u ++ ((", ".toList ++ (header (k + d) ++ z)) ++ g k) := by
          simp only [List.append_assoc]
        rw [hsplit, lead_append, lead_append, hled, hafter]
        simp only [List.append_assoc]
      have howed : Interrupts (Text.lead x m u ++ (m.after u).owed x) w := by
        have h := (hu.lead hx m).append (Interrupts.owed hx (m.after u) .nil)
        rwa [List.append_nil, List.append_nil] at h
      simp only [hlead]
      exact .callable d howed hz (ih .paid)

/-- If no callable opens in the text, then the generated callables capture once more, and nothing
else is changed. -/
theorem capture (h : Carries g w) (hw : Calm w) (k : Nat) (inWord : Bool) :
    capture inWord (g k) = g (k + 1) := by
  induction h generalizing inWord with
  | text hu => exact capture_of_calm (hu.calm hw) inWord
  | @callable u w x g v d hu hx _ ih =>
      have hu : Calm u := hu.calm (hw.of_isInfix (List.prefix_append w v).isInfix)
      have hv : Calm v := hw.of_isInfix (List.suffix_append w v).isInfix
      obtain ⟨y, c, rfl, hy, hc⟩ := hx.last
      have hblank : Callable.capture false (' ' :: (header (k + d) ++ ((y ++ [c]) ++ g k))) =
          ' ' :: Callable.capture false (header (k + d) ++ ((y ++ [c]) ++ g k)) :=
        capture_cons (.inr rfl)
      have hbody : Callable.capture false ((y ++ [c]) ++ g k) = (y ++ [c]) ++ g (k + 1) := by
        rw [List.append_assoc, List.singleton_append, capture_append_cons hy hc, ih hv,
          List.append_assoc, List.singleton_append]
      calc Callable.capture inWord (u ++ (", ".toList ++ (header (k + d) ++ ((y ++ [c]) ++ g k))))
          = u ++ ',' :: Callable.capture false (' ' :: (header (k + d) ++ ((y ++ [c]) ++ g k))) :=
            capture_append_cons hu (by decide) inWord _
        _ = u ++ (", ".toList ++ (header (k + d + 1) ++ ((y ++ [c]) ++ g (k + 1)))) := by
            rw [hblank, capture_header, hbody]
            rfl
        _ = _ := by rw [Nat.add_right_comm]

end Carries

end Inlay.Callable
