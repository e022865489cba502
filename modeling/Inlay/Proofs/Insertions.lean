import Inlay.Proofs.BellFree

/-!
# Insertions into a masked text

Between masking and unmasking the code around a masked keyword changes: text
is put before and behind it. Along the scan for keywords a text has parts,
which are keywords and single characters, and masking writes the sentinel for
each keyword. Whatever is inserted between the parts, unmasking finds the
sentinels that stand for keywords and nothing else, as long as neither the
text nor what is inserted has a bell.
-/

namespace Inlay.Keyword

open Text

/-! ## The parts of a text -/

/-- What the scan for keywords meets: a keyword, or a character where no
keyword starts. -/
inductive Part where
  | keyword
  | char (c : Char)
deriving DecidableEq

/-- The parts of a text from the left. -/
def parts (s : Text) : List Part :=
  match _h : after? word s with
  | some rest => .keyword :: parts rest
  | none =>
      match s with
      | [] => []
      | c :: rest => .char c :: parts rest
termination_by s.length
decreasing_by
  · have hlength := length_of_after? _h
    have hword : word.length = 8 := rfl
    omega
  · simp

theorem parts_nil : parts [] = [] := by
  unfold parts
  rfl

theorem parts_word_append (s : Text) : parts (word ++ s) = .keyword :: parts s := by
  rw [parts]
  split
  · rename_i rest hrest
    rw [after?_append, Option.some.injEq] at hrest
    rw [hrest]
  · rename_i hnone
    simp at hnone

theorem parts_cons {c : Char} {s : Text} (h : after? word (c :: s) = none) :
    parts (c :: s) = .char c :: parts s := by
  rw [parts]
  split
  · rename_i hsome
    simp [h] at hsome
  · rfl

/-- A part as text, with `mark` for a keyword. -/
def Part.text (mark : Text) : Part → Text
  | keyword => mark
  | char c => [c]

/-- Parts one after the other, with a text inserted before each of them and
one at the end. The inserted texts are told apart by their numbers. -/
def woven (mark : Text) : List Part → (Nat → Text) → Text
  | [], gaps => gaps 0
  | p :: ps, gaps => gaps 0 ++ (p.text mark ++ woven mark ps fun i => gaps (i + 1))

/-- Nothing is inserted. -/
def noGaps : Nat → Text :=
  fun _ => []

theorem woven_cons_noGaps (mark : Text) (p : Part) (ps : List Part) :
    woven mark (p :: ps) noGaps = p.text mark ++ woven mark ps noGaps := rfl

/-- A text is made of its parts. -/
theorem woven_word_parts (s : Text) : woven word (parts s) noGaps = s := by
  induction s using replaceInduction word_ne_nil with
  | nil =>
      rw [parts_nil]
      rfl
  | hit s ih =>
      rw [parts_word_append, woven_cons_noGaps, ih]
      rfl
  | miss c s hc ih =>
      rw [parts_cons hc, woven_cons_noGaps, ih]
      rfl

/-- Masking writes the sentinel for each keyword. -/
theorem woven_sentinel_parts (s : Text) : woven sentinel (parts s) noGaps = mask s := by
  induction s using replaceInduction word_ne_nil with
  | nil =>
      rw [parts_nil, mask_nil]
      rfl
  | hit s ih =>
      rw [parts_word_append, woven_cons_noGaps, ih, mask_word_append]
      rfl
  | miss c s hc ih =>
      rw [parts_cons hc, woven_cons_noGaps, ih, mask_cons hc]
      rfl

/-! ## Inserted texts -/

theorem mem_of_mem_woven {mark : Text} {ps : List Part} {gaps : Nat → Text} {c : Char}
    (h : c ∈ woven mark ps gaps) : c ∈ woven mark ps noGaps ∨ ∃ i, c ∈ gaps i := by
  induction ps generalizing gaps with
  | nil => exact .inr ⟨0, h⟩
  | cons p ps ih =>
      rw [woven_cons_noGaps]
      rcases List.mem_append.mp h with h | h
      · exact .inr ⟨0, h⟩
      · rcases List.mem_append.mp h with h | h
        · exact .inl (List.mem_append_left _ h)
        · rcases ih h with h | ⟨i, h⟩
          · exact .inl (List.mem_append_right _ h)
          · exact .inr ⟨i + 1, h⟩

theorem veils_woven (ps : List Part) (gaps : Nat → Text) :
    Veils (woven sentinel ps gaps) (woven word ps gaps) := by
  induction ps generalizing gaps with
  | nil => exact .refl (gaps 0)
  | cons p ps ih =>
      have hrest := ih fun i => gaps (i + 1)
      cases p with
      | keyword => exact (Veils.refl (gaps 0)).append (.keyword hrest)
      | char c => exact (Veils.refl (gaps 0)).append (.char c hrest)

theorem Veils.indentLines {u w : Text} (h : Veils u w) (x : Text) :
    Veils (indentLines x u) (indentLines x w) := by
  rw [indentLines_eq_laid, indentLines_eq_laid, laid, laid, h.after_eq]
  exact (h.lead x .fresh).append (.refl _)

/-- A masked text has no keyword. For a text without bells unmasking undoes masking, and it does so
around all that is inserted between the parts of the text, if that has no bells either: no bang at
the edge of a sentinel, in the text or in what is inserted makes it meet a sentinel elsewhere, and
what is inserted stays as it is. So the text may be quoted and indented in between. -/
theorem masking_reversible (t : Text) :
    ¬ word <:+: mask t ∧
    (bell ∉ t →
      unmask (mask t) = t ∧
      woven word (parts t) noGaps = t ∧ woven sentinel (parts t) noGaps = mask t ∧
      (∀ gaps : Nat → Text, (∀ i, bell ∉ gaps i) →
        unmask (woven sentinel (parts t) gaps) = woven word (parts t) gaps) ∧
      unmask (mask t).quote = t.quote ∧
      ∀ indent, bell ∉ indent →
        unmask (indentLines indent (mask t)) = indentLines indent t) := by
  refine ⟨not_word_infix_mask t, fun ht => ⟨unmask_mask ht, woven_word_parts t,
    woven_sentinel_parts t, fun gaps hgaps => ?_, ?_, fun indent hindent => ?_⟩⟩
  · refine (veils_woven (parts t) gaps).unmask_eq fun hmem => ?_
    rcases mem_of_mem_woven hmem with hmem | ⟨i, hmem⟩
    · rw [woven_word_parts] at hmem
      exact ht hmem
    · exact hgaps i hmem
  · exact (Veils.mask t).quote.unmask_eq fun hmem => ht (mem_of_mem_quote (by decide) hmem)
  · exact ((Veils.mask t).indentLines indent).unmask_eq (Handlebars.bell_not_mem_indentLines hindent ht)

/-- Keywords next to each other, and bangs where sentinels begin and end. -/
def bangs : Text :=
  "!function!!functionfunction".toList

theorem masking_reversible_bangs :
    bell ∉ bangs ∧ (∀ i, bell ∉ (fun _ : Nat => ['!']) i) ∧ bell ∉ ['\t'] ∧
    woven sentinel (parts bangs) (fun _ => ['!']) =
      "!!!!!\x07FuNcTiOn\x07!!!!!!!!!\x07FuNcTiOn\x07!!!!!\x07FuNcTiOn\x07!!!".toList ∧
    unmask "!!!!!\x07FuNcTiOn\x07!!!!!!!!!\x07FuNcTiOn\x07!!!!!\x07FuNcTiOn\x07!!!".toList =
      "!!!function!!!!!function!function!".toList ∧
    unmask (indentLines ['\t'] (mask bangs)) = "\t!function!!functionfunction".toList := by
  have hbangs : bell ∉ bangs := by decide
  have hbang : bell ∉ ['!'] := by decide
  have hgaps : ∀ i, bell ∉ (fun _ : Nat => ['!']) i := fun _ => hbang
  have htab : bell ∉ ['\t'] := by decide
  obtain ⟨-, hmasked⟩ := masking_reversible bangs
  obtain ⟨-, -, -, hinserted, -, hindented⟩ := hmasked hbangs
  have hwoven : woven sentinel (parts bangs) (fun _ => ['!']) =
      "!!!!!\x07FuNcTiOn\x07!!!!!!!!!\x07FuNcTiOn\x07!!!!!\x07FuNcTiOn\x07!!!".toList := by
    decide +kernel
  have hplain : woven word (parts bangs) (fun _ => ['!']) =
      "!!!function!!!!!function!function!".toList := by
    decide +kernel
  refine ⟨hbangs, hgaps, htab, hwoven, ?_, ?_⟩
  · rw [← hwoven, hinserted _ hgaps, hplain]
  · rw [hindented _ htab]
    rfl

end Inlay.Keyword
