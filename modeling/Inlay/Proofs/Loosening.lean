import Inlay.Proofs.Trimming
import Inlay.Proofs.TagSequence
import Inlay.Text.Lines

/-!
# Tags of an indented text

Indentation puts blanks after newlines. The tags of a text keep their kinds
and the names that they refer to: a newline never stands inside a mark or a
name, and next to a newline a few more blanks do not count.
-/

namespace Inlay

/-- The second text is the first one with blanks put in after newlines. -/
inductive Loosened : Text → Text → Prop
  | nil : Loosened [] []
  | cons (c : Char) {s t : Text} : Loosened s t → Loosened (c :: s) (c :: t)
  | gap {w s t : Text} :
      (∀ c ∈ w, isBlank c = true) → Loosened s t → Loosened ('\n' :: s) ('\n' :: (w ++ t))

theorem isBlank_newline : isBlank '\n' = true := by decide

namespace Loosened

variable {s t : Text}

theorem refl (s : Text) : Loosened s s := by
  induction s with
  | nil => exact .nil
  | cons c s ih => exact .cons c ih

theorem indentBreaks {w : Text} (hw : ∀ c ∈ w, isBlank c = true) (s : Text) :
    Loosened s (Text.indentBreaks w s) := by
  fun_induction Text.indentBreaks w s with
  | case1 => exact .nil
  | case2 c => exact refl [c]
  | case3 d rest ih => exact .gap hw ih
  | case4 c d rest _ ih => exact .cons c ih

theorem head?_eq (h : Loosened s t) : t.head? = s.head? := by
  cases h <;> rfl

theorem of_append {x y : Text} (h : Loosened (x ++ y) t) :
    ∃ x' y', t = x' ++ y' ∧ Loosened x x' ∧ Loosened y y' := by
  induction x generalizing t with
  | nil => exact ⟨[], t, rfl, .nil, h⟩
  | cons c x ih =>
      cases h with
      | cons _ h =>
          obtain ⟨x', y', rfl, hx, hy⟩ := ih h
          exact ⟨c :: x', y', rfl, .cons c hx, hy⟩
      | @gap w _ _ hw h =>
          obtain ⟨x', y', rfl, hx, hy⟩ := ih h
          exact ⟨'\n' :: (w ++ x'), y', by simp, .gap hw hx, hy⟩

theorem eq_nil_iff (h : Loosened s t) : t = [] ↔ s = [] := by
  cases h <;> simp

theorem eq_of_not_mem (h : Loosened s t) (hs : '\n' ∉ s) : t = s := by
  induction h with
  | nil => rfl
  | cons c _ ih => rw [ih fun hm => hs (List.mem_cons_of_mem _ hm)]
  | gap => exact absurd List.mem_cons_self hs

theorem isBlank_of_mem (h : Loosened s t) (hs : ∀ c ∈ s, isBlank c = true) :
    ∀ c ∈ t, isBlank c = true := by
  induction h with
  | nil => exact hs
  | cons c _ ih =>
      obtain ⟨hc, hs⟩ := List.forall_mem_cons.mp hs
      exact List.forall_mem_cons.mpr ⟨hc, ih hs⟩
  | gap hw _ ih =>
      obtain ⟨hc, hs⟩ := List.forall_mem_cons.mp hs
      exact List.forall_mem_cons.mpr ⟨hc, List.forall_mem_append.mpr ⟨hw, ih hs⟩⟩

theorem getLast?_iff (h : Loosened s t) {d : Char} (hd : isBlank d = false) :
    t.getLast? = some d ↔ s.getLast? = some d := by
  induction h with
  | nil => rfl
  | @cons c s t h ih =>
      cases s with
      | nil => rw [h.eq_nil_iff.mpr rfl]
      | cons a s =>
          obtain ⟨b, t, rfl⟩ := List.exists_cons_of_ne_nil (h.eq_nil_iff.not.mpr (List.cons_ne_nil a s))
          rw [List.getLast?_cons_cons, List.getLast?_cons_cons, ih]
  | @gap w s t hw h ih =>
      cases s with
      | nil =>
          rw [h.eq_nil_iff.mpr rfl, List.append_nil]
          have hne : ∀ c ∈ '\n' :: w, c ≠ d := by
            rintro c hc rfl
            rcases List.mem_cons.mp hc with rfl | hc
            · simp [isBlank_newline] at hd
            · simp [hw c hc] at hd
          constructor
          · intro hl
            exact absurd rfl (hne d (List.mem_of_getLast? hl))
          · intro hl
            exact absurd rfl (hne d (List.mem_cons.mpr (.inl (by simpa using hl.symm))))
      | cons a s =>
          obtain ⟨b, t, rfl⟩ := List.exists_cons_of_ne_nil (h.eq_nil_iff.not.mpr (List.cons_ne_nil a s))
          rw [← List.cons_append, List.getLast?_append, List.getLast?_cons_cons, ← ih]
          cases hb : (b :: t).getLast? with
          | none => simp at hb
          | some l => rfl

/-! ## Searching -/

variable {p : Char → Bool}

/-- A class that has no blanks ends a run in the same place. -/
theorem takeWhile_eq (hp : ∀ c, isBlank c = true → p c = false) (h : Loosened s t) :
    t.takeWhile p = s.takeWhile p := by
  induction h with
  | nil => rfl
  | cons c _ ih => rw [List.takeWhile_cons, List.takeWhile_cons, ih]
  | gap =>
      rw [List.takeWhile_cons_of_neg (by simp [hp _ isBlank_newline]),
        List.takeWhile_cons_of_neg (by simp [hp _ isBlank_newline])]

/-- A class that has all blanks is left at the same place. -/
theorem dropWhile (hp : ∀ c, isBlank c = true → p c = true) (h : Loosened s t) :
    Loosened (s.dropWhile p) (t.dropWhile p) := by
  induction h with
  | nil => exact .nil
  | @cons c s t h ih =>
      by_cases hc : p c = true
      · rw [List.dropWhile_cons_of_pos hc, List.dropWhile_cons_of_pos hc]
        exact ih
      · rw [List.dropWhile_cons_of_neg hc, List.dropWhile_cons_of_neg hc]
        exact .cons c h
  | gap hw _ ih =>
      rw [List.dropWhile_cons_of_pos (hp _ isBlank_newline),
        List.dropWhile_cons_of_pos (hp _ isBlank_newline),
        List.dropWhile_append_of_pos fun c hc => hp c (hw c hc)]
      exact ih

theorem takeWhile (hp : ∀ c, isBlank c = true → p c = true) (h : Loosened s t) :
    Loosened (s.takeWhile p) (t.takeWhile p) := by
  induction h with
  | nil => exact .nil
  | @cons c s t h ih =>
      by_cases hc : p c = true
      · rw [List.takeWhile_cons_of_pos hc, List.takeWhile_cons_of_pos hc]
        exact .cons c ih
      · rw [List.takeWhile_cons_of_neg hc, List.takeWhile_cons_of_neg hc]
        exact .nil
  | gap hw _ ih =>
      rw [List.takeWhile_cons_of_pos (hp _ isBlank_newline),
        List.takeWhile_cons_of_pos (hp _ isBlank_newline),
        List.takeWhile_append_of_pos fun c hc => hp c (hw c hc)]
      exact .gap hw ih

/-- A mark without a newline starts both texts or none. -/
theorem after? (mark : Text) (hmark : '\n' ∉ mark) (h : Loosened s t) :
    (Text.after? mark s = none ∧ Text.after? mark t = none) ∨
      ∃ s' t', Text.after? mark s = some s' ∧ Text.after? mark t = some t' ∧ Loosened s' t' := by
  induction mark generalizing s t with
  | nil => exact .inr ⟨s, t, by simp, by simp, h⟩
  | cons m mark ih =>
      obtain ⟨hm, hmark⟩ := not_or.mp (List.mem_cons.not.mp hmark)
      cases h with
      | nil => exact .inl ⟨rfl, rfl⟩
      | @cons c s t h =>
          by_cases hc : m = c
          · simp only [Text.after?, hc, if_true]
            exact ih hmark h
          · simp [Text.after?, hc]
      | gap => simp [Text.after?, Ne.symm hm]

/-- A mark without blanks is found in the same place. -/
theorem cut? (m : Char) (mark : Text) (hmark : ∀ c ∈ m :: mark, isBlank c = false)
    (h : Loosened s t) :
    (Text.cut? (m :: mark) s = none ∧ Text.cut? (m :: mark) t = none) ∨
      ∃ before rest before' rest', Text.cut? (m :: mark) s = some (before, rest) ∧
        Text.cut? (m :: mark) t = some (before', rest') ∧ Loosened before before' ∧
        Loosened rest rest' := by
  have hnewline : '\n' ∉ m :: mark := fun hm =>
    absurd isBlank_newline (Bool.eq_false_iff.mp (hmark _ hm))
  induction h with
  | nil => exact .inl ⟨rfl, rfl⟩
  | @cons c s t h ih =>
      rcases (Loosened.cons c h).after? (m :: mark) hnewline with ⟨hs, ht⟩ | ⟨s', t', hs, ht, hrest⟩
      · rcases ih with ⟨hs', ht'⟩ | ⟨b, r, b', r', hs', ht', hb, hr⟩
        · left
          simp [Text.cut?, hs, ht, hs', ht']
        · right
          refine ⟨c :: b, r, c :: b', r', ?_, ?_, .cons c hb, hr⟩
          · simp [Text.cut?, hs, hs']
          · simp [Text.cut?, ht, ht']
      · right
        refine ⟨[], s', [], t', ?_, ?_, .nil, hrest⟩
        · simp [Text.cut?, hs]
        · simp [Text.cut?, ht]
  | @gap w s t hw _ ih =>
      have hm : isBlank m = false := hmark m List.mem_cons_self
      have hs : m ∉ ['\n'] := by
        intro h
        rw [List.mem_singleton.mp h, isBlank_newline] at hm
        cases hm
      have ht : m ∉ '\n' :: w := by
        intro h
        rcases List.mem_cons.mp h with h | h
        · exact hs (List.mem_singleton.mpr h)
        · rw [hw m h] at hm
          cases hm
      have hs : Text.cut? (m :: mark) ('\n' :: s) =
          (Text.cut? (m :: mark) s).map fun parts => ('\n' :: parts.1, parts.2) :=
        Text.cut?_append_of_not_mem hs s
      have ht : Text.cut? (m :: mark) ('\n' :: (w ++ t)) =
          (Text.cut? (m :: mark) t).map fun parts => ('\n' :: (w ++ parts.1), parts.2) :=
        Text.cut?_append_of_not_mem ht t
      rcases ih with ⟨hs', ht'⟩ | ⟨b, r, b', r', hs', ht', hb, hr⟩
      · left
        rw [hs'] at hs
        rw [ht'] at ht
        exact ⟨hs, ht⟩
      · right
        rw [hs'] at hs
        rw [ht'] at ht
        exact ⟨'\n' :: b, r, '\n' :: (w ++ b'), r', hs, ht, .gap hw hb, hr⟩

/-- What is left of a trimmed text. -/
theorem trim (h : Loosened s t) : Loosened s.trim t.trim := by
  obtain ⟨a, b, hs, ha, hb, hfirst, hlast⟩ := Text.exists_strip isBlank s
  rw [hs] at h
  obtain ⟨a', rest, rfl, haa, hrest⟩ := h.of_append
  obtain ⟨core, b', rfl, hcore, hbb⟩ := hrest.of_append
  have htrim : (a' ++ (core ++ b')).trim = core := by
    apply Text.strip_append (haa.isBlank_of_mem ha) (hbb.isBlank_of_mem hb)
    · rw [hcore.head?_eq]
      exact hfirst
    · cases hl : (s.strip isBlank).getLast? with
      | none =>
          rw [hcore.eq_nil_iff.mpr (List.getLast?_eq_none_iff.mp hl)]
          rfl
      | some d =>
          rw [hl] at hlast
          rw [(hcore.getLast?_iff (by simpa using hlast)).mpr hl]
          exact hlast
  rw [htrim]
  exact hcore

theorem firstWord_eq (h : Loosened s t) : t.firstWord = s.firstWord := by
  unfold Text.firstWord
  rw [(h.dropWhile fun _ hc => hc).takeWhile_eq fun c hc => by rw [hc]; rfl]

theorem next? (h : Loosened s t) :
    (Tag.next? s = none ∧ Tag.next? t = none) ∨
      ∃ before inside rest before' inside' rest', Tag.next? s = some (before, inside, rest) ∧
        Tag.next? t = some (before', inside', rest') ∧ Loosened before before' ∧
        Loosened inside inside' ∧ Loosened rest rest' := by
  unfold Tag.next?
  rcases h.cut? '\x7b' ['\x7b'] (by decide) with
    ⟨hs, ht⟩ | ⟨b, u, b', u', hs, ht, hb, hu⟩
  · left
    rw [Tag.opening, hs, ht]
    exact ⟨rfl, rfl⟩
  · rw [Tag.opening, hs, ht]
    simp only [Option.bind_eq_bind, Option.bind_some]
    rcases hu.cut? '\x7d' ['\x7d'] (by decide) with
      ⟨hs', ht'⟩ | ⟨i, r, i', r', hs', ht', hi, hr⟩
    · left
      rw [Tag.closing, hs', ht']
      exact ⟨rfl, rfl⟩
    · right
      rw [Tag.closing, hs', ht']
      exact ⟨b, i, r, b', i', r', rfl, rfl, hb, hi, hr⟩

theorem isSome_parenthesized? (h : Loosened s t) :
    (Tag.parenthesized? t).isSome = (Tag.parenthesized? s).isSome := by
  cases h with
  | nil => rfl
  | @cons c s t h =>
      by_cases hc : c = '('
      · subst hc
        have hlast := h.getLast?_iff (d := ')') (by decide)
        simp only [Tag.parenthesized?, beq_iff_eq, hlast]
        split <;> rfl
      · have hnone : ∀ u, Tag.parenthesized? (c :: u) = none := by
          intro u
          unfold Tag.parenthesized?
          split
          · rename_i heq
            exact absurd (List.cons.inj heq).1 hc
          · rfl
        rw [hnone, hnone]
  | gap => rfl

theorem length_beq_one (h : Loosened s t) (hs : ∀ c ∈ s.head?, c ≠ '\n') :
    (t.length == 1) = (s.length == 1) := by
  cases h with
  | nil => rfl
  | cons c h =>
      cases h with
      | nil => rfl
      | cons => simp
      | gap => simp
  | gap => exact absurd rfl (hs '\n' rfl)

theorem isEmpty_eq (h : Loosened s t) : t.isEmpty = s.isEmpty := by
  cases h <;> rfl

theorem isSome_inlineName? (h : Loosened s t) :
    (Tag.inlineName? t).isSome = (Tag.inlineName? s).isSome := by
  unfold Tag.inlineName?
  rcases h.after? "#*inline".toList (by decide) with ⟨hs, ht⟩ | ⟨s', t', hs, ht, h'⟩
  · rw [hs, ht]
  · rw [hs, ht]
    simp only [Option.bind_eq_bind, Option.bind_some]
    rw [h'.head?_eq]
    split
    · have hname := h'.dropWhile fun _ hc => hc
      revert hname
      generalize s'.dropWhile isBlank = x
      generalize t'.dropWhile isBlank = y
      intro hname
      cases hname with
      | nil => rfl
      | @cons q x y h =>
          have hblank : ∀ c, isBlank c = true → (!Tag.isQuote c) = true := by
            intro c hc
            have h₁ : c ≠ '"' := fun e => absurd (e ▸ hc) (by decide)
            have h₂ : c ≠ '\'' := fun e => absurd (e ▸ hc) (by decide)
            simp [Tag.isQuote, h₁, h₂]
          have hend : ∀ c ∈ (x.dropWhile fun c => !Tag.isQuote c).head?, c ≠ '\n' := by
            intro c hc
            have hstop := List.head?_dropWhile_not (fun c => !Tag.isQuote c) x
            rw [Option.mem_def.mp hc] at hstop
            rintro rfl
            cases hstop
          simp only [(h.takeWhile hblank).isEmpty_eq, (h.dropWhile hblank).length_beq_one hend]
          split <;> rfl
      | gap => rfl
    · rfl

end Loosened

/-! ## Kinds of tags -/

/-- The tag without the text that blanks may stand in. -/
def Tag.outline : Tag → Tag
  | .reference (.dynamic _) => .reference (.dynamic [])
  | .openInline _ => .openInline []
  | .close _ => .close []
  | .variable _ => .variable []
  | tag => tag

namespace Loosened

variable {s t : Text}

theorem outline_referenceOf (h : Loosened s t) :
    (Tag.reference (Tag.referenceOf t)).outline = (Tag.reference (Tag.referenceOf s)).outline := by
  have hp := h.trim.isSome_parenthesized?
  unfold Tag.referenceOf
  rw [h.firstWord_eq]
  cases hs : Tag.parenthesized? s.trim with
  | none =>
      rw [hs, Option.isSome_none, Option.isSome_eq_false_iff, Option.isNone_iff_eq_none] at hp
      rw [hp]
  | some expr =>
      rw [hs, Option.isSome_some] at hp
      obtain ⟨expr', ht⟩ := Option.isSome_iff_exists.mp hp
      rw [ht]
      rfl

theorem outline_ofText (h : Loosened s t) :
    (Tag.ofText t).outline = (Tag.ofText s).outline := by
  have h := h.trim
  unfold Tag.ofText Tag.ofInside
  rcases h.after? ['#', '>'] (by decide) with ⟨hs, ht⟩ | ⟨s', t', hs, ht, h'⟩
  · rw [hs, ht]
    rcases h.after? ['>'] (by decide) with ⟨hs, ht⟩ | ⟨s', t', hs, ht, h'⟩
    · rw [hs, ht]
      have hi := h.isSome_inlineName?
      cases hs : Tag.inlineName? s.trim with
      | some name =>
          rw [hs, Option.isSome_some] at hi
          obtain ⟨name', ht⟩ := Option.isSome_iff_exists.mp hi
          rw [ht]
          rfl
      | none =>
          rw [hs, Option.isSome_none, Option.isSome_eq_false_iff, Option.isNone_iff_eq_none] at hi
          rw [hi]
          rcases h.after? ['/'] (by decide) with ⟨hs, ht⟩ | ⟨s', t', hs, ht, h'⟩
          · rw [hs, ht]
            rfl
          · rw [hs, ht]
            rfl
    · rw [hs, ht]
      exact h'.outline_referenceOf
  · rw [hs, ht]
    show (Tag.openBlock t'.firstWord).outline = (Tag.openBlock s'.firstWord).outline
    rw [h'.firstWord_eq]

/-- Blanks after newlines change no kind of tag and no name referred to. -/
theorem map_outline_tags (h : Loosened s t) :
    t.tags.map Tag.outline = s.tags.map Tag.outline := by
  induction hn : s.length using Nat.strong_induction_on generalizing s t with
  | _ n ih =>
      rcases h.next? with ⟨hs, ht⟩ | ⟨b, i, r, b', i', r', hs, ht, _, hi, hr⟩
      · rw [Text.tags_of_next?_eq_none hs, Text.tags_of_next?_eq_none ht]
      · have hlen := Tag.length_of_next? hs
        rw [Text.tags_of_next? hs, Text.tags_of_next? ht, List.map_cons, List.map_cons,
          hi.outline_ofText, ih r.length (hn ▸ hlen) hr rfl]

end Loosened

/-- Indentation by blanks changes no kind of tag and no name referred to. -/
theorem Text.map_outline_tags_indentLines {w : Text} (hw : ∀ c ∈ w, isBlank c = true) (s : Text) :
    (Text.indentLines w s).tags.map Tag.outline = s.tags.map Tag.outline := by
  have hbrace : '\x7b' ∉ w := fun h => absurd (hw _ h) (by decide)
  unfold Text.indentLines
  rw [Text.tags_append_of_not_mem hbrace]
  exact (Loosened.indentBreaks hw s).map_outline_tags

end Inlay
