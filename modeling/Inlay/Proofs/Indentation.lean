import Inlay.Proofs.PlainText

/-!
# Indented texts

Indentation puts one text after every newline but the last character. In a
text that is followed by another one no newline is the last character.
-/

namespace Inlay.Text

/-- Puts `indent` after every newline. -/
def indentAll (indent s : Text) : Text :=
  s.flatMap fun c => if c = '\n' then c :: indent else [c]

variable (w : Text)

@[simp] theorem indentAll_nil : indentAll w [] = [] := rfl

@[simp] theorem indentAll_append (s t : Text) :
    indentAll w (s ++ t) = indentAll w s ++ indentAll w t :=
  List.flatMap_append

theorem indentAll_cons (c : Char) (s : Text) :
    indentAll w (c :: s) = indentAll w [c] ++ indentAll w s :=
  indentAll_append w [c] s

theorem indentAll_newline : indentAll w ['\n'] = '\n' :: w := by
  simp [indentAll]

theorem indentAll_singleton {c : Char} (h : c ≠ '\n') : indentAll w [c] = [c] := by
  simp [indentAll, h]

theorem indentAll_of_not_mem {s : Text} (h : '\n' ∉ s) : indentAll w s = s := by
  induction s with
  | nil => rfl
  | cons c s ih =>
      obtain ⟨hc, hs⟩ := not_or.mp (List.mem_cons.not.mp h)
      rw [indentAll_cons, ih hs, indentAll_singleton w (Ne.symm hc), List.singleton_append]

theorem indentBreaks_singleton (c : Char) : indentBreaks w [c] = [c] := by
  unfold indentBreaks
  rfl

theorem indentBreaks_cons {s : Text} (h : s ≠ []) (c : Char) :
    indentBreaks w (c :: s) = indentAll w [c] ++ indentBreaks w s := by
  obtain ⟨d, rest, rfl⟩ := List.exists_cons_of_ne_nil h
  rw [indentBreaks]
  by_cases hc : c = '\n'
  · subst hc
    rw [if_pos rfl, indentAll_newline, List.cons_append]
  · rw [if_neg hc, indentAll_singleton w hc, List.singleton_append]

theorem indentBreaks_append {t : Text} (h : t ≠ []) (s : Text) :
    indentBreaks w (s ++ t) = indentAll w s ++ indentBreaks w t := by
  induction s with
  | nil => rfl
  | cons c s ih =>
      rw [List.cons_append, indentBreaks_cons w (List.append_ne_nil_of_right_ne_nil s h), ih,
        indentAll_cons w c s, List.append_assoc]

/-- Nothing is put into what has no newline. -/
theorem indentBreaks_append_of_not_mem {x : Text} (hx : '\n' ∉ x) (s : Text) :
    indentBreaks w (x ++ s) = x ++ indentBreaks w s := by
  by_cases hs : s = []
  · subst hs
    rw [List.append_nil, indentBreaks_of_no_newline hx]
    exact (List.append_nil x).symm
  · rw [indentBreaks_append w hs, indentAll_of_not_mem w hx]

theorem length_le_indentBreaks (s : Text) : s.length ≤ (indentBreaks w s).length := by
  fun_induction indentBreaks w s with
  | case1 => exact Nat.le_refl 0
  | case2 => exact Nat.le_refl 1
  | case3 d rest ih =>
      rw [List.length_cons, List.length_cons (a := '\n'), List.length_append]
      omega
  | case4 c d rest _ ih => exact Nat.succ_le_succ ih

/-- Indentation can be seen on every text. -/
theorem indentLines_eq_self_iff {w s : Text} : indentLines w s = s ↔ w = [] := by
  constructor
  · intro h
    have hlength := congrArg List.length h
    have hle := length_le_indentBreaks w s
    rw [indentLines, List.length_append] at hlength
    exact List.length_eq_zero_iff.mp (by omega)
  · rintro rfl
    exact indentLines_empty s

/-- Breaks that are indented twice have the two indentations, the second one first. -/
theorem indentBreaks_indentBreaks {v : Text} (hv : '\n' ∉ v) (s : Text) :
    indentBreaks w (indentBreaks v s) = indentBreaks (w ++ v) s := by
  induction s with
  | nil => rfl
  | cons c s ih =>
      by_cases hs : s = []
      · subst hs
        rw [indentBreaks_singleton, indentBreaks_singleton, indentBreaks_singleton]
      · have hne : indentBreaks v s ≠ [] := by
          intro h
          have hle := length_le_indentBreaks v s
          rw [h] at hle
          exact hs (List.eq_nil_of_length_eq_zero (Nat.le_zero.mp hle))
        rw [indentBreaks_cons v hs, indentBreaks_cons (w ++ v) hs, ← ih]
        by_cases hc : c = '\n'
        · subst hc
          rw [indentAll_newline, indentAll_newline, List.cons_append, List.cons_append,
            indentBreaks_cons w (List.append_ne_nil_of_right_ne_nil v hne), indentAll_newline,
            indentBreaks_append_of_not_mem w hv, List.cons_append, List.append_assoc]
        · rw [indentAll_singleton v hc, indentAll_singleton (w ++ v) hc, List.singleton_append,
            indentBreaks_cons w hne, indentAll_singleton w hc]

/-- Indentation adds up. -/
theorem indentLines_indentLines {v : Text} (hv : '\n' ∉ v) (s : Text) :
    indentLines w (indentLines v s) = indentLines (w ++ v) s := by
  unfold indentLines
  rw [indentBreaks_append_of_not_mem w hv, indentBreaks_indentBreaks w hv, List.append_assoc]

theorem escape_of_not_mem {s : Text} (h : '\\' ∉ s) : escape s = s := by
  rw [escape_eq_replace]
  exact replace_of_disjoint (by simp) fun c hc hmem => h (List.mem_singleton.mp hmem ▸ hc)

/-- Indentation without backslashes commutes with escaping. -/
theorem escape_indentBreaks {w : Text} (hw : '\\' ∉ w) (s : Text) :
    (indentBreaks w s).escape = indentBreaks w s.escape := by
  have hself := escape_of_not_mem hw
  induction s with
  | nil => rfl
  | cons c s ih =>
      by_cases hs : s = []
      · subst hs
        rw [indentBreaks_singleton]
        by_cases hc : c = '\\'
        · subst hc
          rfl
        · have hescape : escape [c] = [c] := by simp [escape, hc]
          rw [hescape, indentBreaks_singleton]
      · have hne : escape s ≠ [] := by
          rw [escape_eq_replace]
          exact inert_escape.replace_eq_nil.not.mpr hs
        have hcons : escape (c :: s) = escape [c] ++ escape s := escape_append [c] s
        have hchar : (indentAll w [c]).escape = indentAll w (escape [c]) := by
          by_cases hc : c = '\n'
          · subst hc
            have hnewline : escape ['\n'] = ['\n'] := by decide
            rw [hnewline, indentAll_newline, ← List.singleton_append, escape_append, hself, hnewline]
          · have hmem : '\n' ∉ escape [c] := by
              by_cases hc' : c = '\\'
              · subst hc'
                decide
              · simp [escape, hc', Ne.symm hc]
            rw [indentAll_singleton w hc, indentAll_of_not_mem w hmem]
        rw [indentBreaks_cons w hs, escape_append, ih, hcons, indentBreaks_append w hne, hchar]

theorem escape_indentLines {w : Text} (hw : '\\' ∉ w) (s : Text) :
    (indentLines w s).escape = indentLines w s.escape := by
  unfold indentLines
  rw [escape_append, escape_of_not_mem hw, escape_indentBreaks hw]

end Inlay.Text
