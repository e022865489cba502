import Inlay.Proofs.InertReplacement

/-!
# Masking and unmasking the function keyword

A masked text has no keyword, and an unmasked one no sentinel. Unmasking
undoes masking for a text without bell characters, and masking undoes
unmasking for a text without keywords. A text that unmasking changes has the
keyword afterwards.
-/

namespace Inlay

namespace Text

theorem infix_of_infix_append {a : Char} {w x y : Text} (ha : a ∉ x)
    (h : (a :: w) <:+: x ++ y) : (a :: w) <:+: y := by
  induction x with
  | nil => exact h
  | cons c x ih =>
      obtain ⟨hc, hx⟩ := not_or.mp (List.mem_cons.not.mp ha)
      rcases List.infix_cons_iff.mp h with ⟨rest, hrest⟩ | h
      · rw [List.cons_append, List.cons.injEq] at hrest
        exact absurd hrest.1 hc
      · exact ih hx h

/-- A word that the new text cannot start in was there before the
replacement. -/
theorem after?_ne_none_of_replace {old new mark s : Text} (hold : old ≠ []) (hnew : new ≠ [])
    (hhead : ∀ c ∈ new.head?, c ∉ mark) (h : after? mark (replace old new s) ≠ none) :
    after? mark s ≠ none := by
  induction mark generalizing s with
  | nil => simp
  | cons m mark ih =>
      have ih := fun t => @ih t fun c hc hm => hhead c hc (List.mem_cons_of_mem _ hm)
      induction s using replaceInduction hold with
      | nil => simp [replace_nil hold, after?] at h
      | hit s =>
          obtain ⟨b, y, rfl⟩ := List.exists_cons_of_ne_nil hnew
          have hb : m ≠ b := fun e => hhead b rfl (by simp [e])
          rw [replace_append hold, List.cons_append, after?, if_neg hb] at h
          exact absurd rfl h
      | miss c s hc =>
          rw [replace_cons hc, after?] at h
          rw [after?]
          split
          · rename_i hm
            rw [if_pos hm] at h
            exact ih s h
          · rename_i hm
            rw [if_neg hm] at h
            exact absurd rfl h

/-- A replaced text does not occur any more, where neither text can start
inside the other. -/
theorem not_infix_replace {old new : Text} (hold : old ≠ []) (hnew : new ≠ [])
    (ho : ∀ c ∈ old.head?, c ∉ new) (hn : ∀ c ∈ new.head?, c ∉ old) (s : Text) :
    ¬ old <:+: replace old new s := by
  induction s using replaceInduction hold with
  | nil =>
      rw [replace_nil hold]
      exact fun h => hold (List.eq_nil_of_infix_nil h)
  | hit s ih =>
      obtain ⟨a, w, rfl⟩ := List.exists_cons_of_ne_nil hold
      rw [replace_append hold]
      exact fun h => ih (infix_of_infix_append (ho a rfl) h)
  | miss c s hc ih =>
      intro h
      have hcons : replace old new (c :: s) = c :: replace old new s := replace_cons hc
      rw [hcons] at h
      rcases List.infix_cons_iff.mp h with ⟨rest, hrest⟩ | h
      · refine after?_ne_none_of_replace hold hnew hn ?_ hc
        rw [hcons, ← hrest, after?_append]
        simp
      · exact ih h

end Text

namespace Keyword

open Text

theorem word_ne_nil : word ≠ [] := by decide

theorem sentinel_ne_nil : sentinel ≠ [] := by decide

/-- The bell character, which a well-formed template does not have. -/
def bell : Char := '\x07'

@[simp] theorem mask_nil : mask [] = [] := replace_nil word_ne_nil

@[simp] theorem unmask_nil : unmask [] = [] := replace_nil sentinel_ne_nil

theorem mask_word_append (s : Text) : mask (word ++ s) = sentinel ++ mask s :=
  replace_append word_ne_nil s

theorem mask_cons {c : Char} {s : Text} (h : after? word (c :: s) = none) :
    mask (c :: s) = c :: mask s :=
  replace_cons h

theorem unmask_sentinel_append (s : Text) : unmask (sentinel ++ s) = word ++ unmask s :=
  replace_append sentinel_ne_nil s

theorem unmask_cons {c : Char} {s : Text} (h : after? sentinel (c :: s) = none) :
    unmask (c :: s) = c :: unmask s :=
  replace_cons h

theorem not_word_infix_mask (s : Text) : ¬ word <:+: mask s :=
  not_infix_replace word_ne_nil sentinel_ne_nil (by decide) (by decide) s

theorem not_sentinel_infix_unmask (s : Text) : ¬ sentinel <:+: unmask s :=
  not_infix_replace sentinel_ne_nil word_ne_nil (by decide) (by decide) s

theorem mask_of_not_isInfix {s : Text} (h : ¬ word <:+: s) : mask s = s :=
  replace_of_not_infix word_ne_nil h

theorem mask_escape (s : Text) : mask s.escape = (mask s).escape :=
  replace_escape word_ne_nil (by decide) (by decide) s

theorem unmask_escape (s : Text) : unmask s.escape = (unmask s).escape :=
  replace_escape sentinel_ne_nil (by decide) (by decide) s

theorem unmask_unmask (s : Text) : unmask (unmask s) = unmask s :=
  replace_of_not_infix sentinel_ne_nil (not_sentinel_infix_unmask s)

/-- Unmasking either changes nothing or leaves the keyword behind. -/
theorem unmask_eq_self_or_word_isInfix (s : Text) : unmask s = s ∨ word <:+: unmask s :=
  (replace_eq_self_or_isInfix sentinel_ne_nil s).imp And.right And.right

theorem after?_bell_mask {s : Text} (hs : bell ∉ s) (m : Text) :
    after? (bell :: m) (mask s) = none := by
  induction s using replaceInduction word_ne_nil with
  | nil => rw [mask_nil]; rfl
  | hit s => rw [mask_word_append]; rfl
  | miss c s hc =>
      have hne : bell ≠ c := fun e => hs (by simp [e])
      rw [mask_cons hc, after?, if_neg hne]

/-- The sentinel starts nowhere in a masked text but where a keyword was. -/
theorem after?_sentinel_cons_mask {s : Text} (hs : bell ∉ s) (c : Char) :
    after? sentinel (c :: mask s) = none := by
  have hsecond : ∀ m, after? ('!' :: bell :: m) (mask s) = none := by
    intro m
    induction s using replaceInduction word_ne_nil with
    | nil => rw [mask_nil]; rfl
    | hit s => rw [mask_word_append]; rfl
    | miss d s hd =>
        rw [mask_cons hd, after?]
        split
        · exact after?_bell_mask (fun h => hs (List.mem_cons_of_mem _ h)) m
        · rfl
  rw [show sentinel = '!' :: '!' :: bell :: "FuNcTiOn\x07!!".toList from rfl, after?]
  split
  · exact hsecond _
  · rfl

/-- Unmasking undoes masking for a text without bell characters. -/
theorem unmask_mask {s : Text} (hs : bell ∉ s) : unmask (mask s) = s := by
  induction s using replaceInduction word_ne_nil with
  | nil => rw [mask_nil, unmask_nil]
  | hit s ih =>
      rw [mask_word_append, unmask_sentinel_append, ih fun h => hs (List.mem_append_right _ h)]
  | miss c s hc ih =>
      have hrest : bell ∉ s := fun h => hs (List.mem_cons_of_mem _ h)
      rw [mask_cons hc, unmask_cons (after?_sentinel_cons_mask hrest c), ih hrest]

/-- Masking undoes unmasking for a text without keywords. -/
theorem mask_unmask {s : Text} (hs : ¬ word <:+: s) : mask (unmask s) = s := by
  induction s using replaceInduction sentinel_ne_nil with
  | nil => rw [unmask_nil, mask_nil]
  | hit s ih =>
      have hrest : ¬ word <:+: s := fun h => hs (h.trans (List.suffix_append ..).isInfix)
      rw [unmask_sentinel_append, mask_word_append, ih hrest]
  | miss c s hc ih =>
      have hnone : after? word (c :: unmask s) = none := by
        rw [show word = 'f' :: "unction".toList from rfl, after?]
        split
        · rename_i hf
          by_contra hne
          have hs' := after?_ne_none_of_replace sentinel_ne_nil word_ne_nil (by decide) hne
          obtain ⟨rest, hrest⟩ := Option.ne_none_iff_exists'.mp hs'
          refine hs ⟨[], rest, ?_⟩
          rw [eq_append_of_after? hrest, ← hf]
          rfl
        · rfl
      rw [unmask_cons hc, mask_cons hnone, ih fun h => hs (List.infix_cons h)]

theorem length_mask_le (s : Text) : (mask s).length ≤ 2 * s.length :=
  length_replace_le word_ne_nil (by decide) (by decide) s

end Keyword

end Inlay
