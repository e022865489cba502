import Mathlib.Data.List.DropRight
import Inlay.Text.Blank

/-!
# Trimmed texts and first words

Stripping takes a run of a class of characters off each end of a text, and
stops at characters that are not of the class. That determines the result.
-/

namespace Inlay.Text

theorem strip_eq_rdropWhile (p : Char → Bool) (s : Text) :
    s.strip p = (s.dropWhile p).rdropWhile p := rfl

/-- What is stripped are two runs of the class, and what is left neither
starts nor ends with the class. -/
theorem exists_strip (p : Char → Bool) (s : Text) :
    ∃ a b, s = a ++ (s.strip p ++ b) ∧ (∀ c ∈ a, p c = true) ∧ (∀ c ∈ b, p c = true) ∧
      (s.strip p).head?.any p = false ∧ (s.strip p).getLast?.any p = false := by
  have hparts : s.strip p ++ (s.dropWhile p).rtakeWhile p = s.dropWhile p :=
    List.rdropWhile_append_rtakeWhile
  refine ⟨s.takeWhile p, (s.dropWhile p).rtakeWhile p, ?_, ?_, ?_, ?_, ?_⟩
  · rw [hparts, List.takeWhile_append_dropWhile]
  · exact fun c hc => List.mem_takeWhile_imp hc
  · exact fun c hc => List.mem_rtakeWhile_imp hc
  · cases hs : s.strip p with
    | nil => rfl
    | cons c rest =>
        rw [hs, List.cons_append] at hparts
        have hhead := List.head?_dropWhile_not p s
        rw [← hparts, List.head?_cons] at hhead
        simpa using hhead
  · by_cases hs : s.strip p = []
    · simp [hs]
    · have hlast := List.rdropWhile_last_not p (s.dropWhile p) hs
      rw [List.getLast?_eq_some_getLast hs]
      exact Bool.eq_false_iff.mpr hlast

theorem strip_append {p : Char → Bool} {a b core : Text} (ha : ∀ c ∈ a, p c = true)
    (hb : ∀ c ∈ b, p c = true) (hfirst : core.head?.any p = false)
    (hlast : core.getLast?.any p = false) : (a ++ (core ++ b)).strip p = core := by
  rw [strip_eq_rdropWhile, List.dropWhile_append_of_pos ha]
  cases core with
  | nil =>
      rw [List.nil_append, List.dropWhile_eq_nil_iff.mpr hb, List.rdropWhile_nil]
  | cons c core =>
      have hc : ¬ p c = true := by simpa using hfirst
      rw [List.cons_append, List.dropWhile_cons_of_neg hc, ← List.cons_append, List.rdropWhile,
        List.reverse_append, List.dropWhile_append_of_pos (by simpa using hb)]
      have hself : (c :: core).rdropWhile p = c :: core := by
        rw [List.rdropWhile_eq_self_iff]
        intro hne
        rw [List.getLast?_eq_some_getLast hne] at hlast
        simpa using hlast
      exact hself

theorem strip_isInfix (p : Char → Bool) (s : Text) : s.strip p <:+: s := by
  obtain ⟨a, b, hs, -⟩ := exists_strip p s
  exact ⟨a, b, by rw [List.append_assoc, ← hs]⟩

theorem trim_isInfix (s : Text) : s.trim <:+: s :=
  strip_isInfix isBlank s

theorem firstWord_isInfix (s : Text) : s.firstWord <:+: s :=
  ((strip_isInfix _ _).trans (List.takeWhile_prefix _).isInfix).trans
    (List.dropWhile_suffix _).isInfix

/-- A first word has no blanks. -/
theorem isBlank_of_mem_firstWord {s : Text} {c : Char} (hc : c ∈ s.firstWord) :
    isBlank c = false := by
  have hmem : c ∈ (s.dropWhile isBlank).takeWhile fun c => !isBlank c :=
    (strip_isInfix _ _).subset hc
  simpa using List.mem_takeWhile_imp hmem

end Inlay.Text
