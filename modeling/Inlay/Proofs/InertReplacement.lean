import Inlay.Proofs.Replacement
import Inlay.Proofs.Trimming

/-!
# Replacements that leave tags alone

Escaping backslashes, masking the function keyword and unmasking it replace
one text by another, and neither text has a blank, a quote, a brace or any
other character that tells tags apart. Such a replacement commutes with the
search for tags and with their reading.
-/

namespace Inlay

/-- A character that the reading of tags looks at. -/
def isTagMark (c : Char) : Bool :=
  isBlank c || "\x7b\x7d()\"'#>/*@".toList.contains c

/-- The words that the reading of tags looks for. -/
def tagWords : Text :=
  "#*inline".toList ++ Tag.blockName

/-- Neither text has a character that tags are told apart by, and neither
starts inside a word that tags are told apart by. -/
structure Inert (old new : Text) : Prop where
  old_ne : old ≠ []
  new_ne : new ≠ []
  old_marks : ∀ c ∈ old, isTagMark c = false
  new_marks : ∀ c ∈ new, isTagMark c = false
  old_head : ∀ c ∈ old.head?, c ∉ tagWords
  new_head : ∀ c ∈ new.head?, c ∉ tagWords

theorem inert_escape : Inert ['\\'] ['\\', '\\'] := by
  constructor <;> decide

theorem inert_mask : Inert Keyword.word Keyword.sentinel := by
  constructor <;> decide

theorem inert_unmask : Inert Keyword.sentinel Keyword.word := by
  constructor <;> decide

theorem Text.escape_eq_replace (s : Text) : s.escape = Text.replace ['\\'] ['\\', '\\'] s := by
  induction s with
  | nil => exact (Text.replace_nil (by simp)).symm
  | cons c s ih =>
      by_cases hc : c = '\\'
      · have h : Text.replace ['\\'] ['\\', '\\'] (['\\'] ++ s) =
            ['\\', '\\'] ++ Text.replace ['\\'] ['\\', '\\'] s :=
          Text.replace_append (by simp) s
        rw [hc, ← List.singleton_append, h, ← ih]
        rfl
      · rw [Text.replace_cons_of_not_mem (by simp) (by simpa using hc), ← ih]
        simp [Text.escape, hc]

/-- The reference with its text changed. -/
def Reference.map (f : Text → Text) : Reference → Reference
  | .named name => .named (f name)
  | .dynamic expr => .dynamic (f expr)
  | .block => .block

/-- The tag with its text changed. -/
def Tag.map (f : Text → Text) : Tag → Tag
  | .reference target => .reference (target.map f)
  | .openBlock name => .openBlock (f name)
  | .openInline name => .openInline (f name)
  | .close name => .close (f name)
  | .variable name => .variable (f name)

theorem ne_of_isTagMark {c d : Char} (hc : isTagMark c = false) (hd : isTagMark d = true) :
    c ≠ d := by
  rintro rfl
  simp [hc] at hd

theorem isBlank_eq_false_of_isTagMark {c : Char} (h : isTagMark c = false) :
    isBlank c = false :=
  (Bool.or_eq_false_iff.mp h).1

theorem isQuote_eq_false_of_isTagMark {c : Char} (h : isTagMark c = false) :
    Tag.isQuote c = false := by
  have h₁ : c ≠ '"' := ne_of_isTagMark h (by decide)
  have h₂ : c ≠ '\'' := ne_of_isTagMark h (by decide)
  simp [Tag.isQuote, h₁, h₂]

namespace Inert

open Text

variable {old new : Text} (h : Inert old new)

include h

theorem not_mem_old {c : Char} (hc : isTagMark c = true) : c ∉ old :=
  fun hm => ne_of_isTagMark (h.old_marks c hm) hc rfl

theorem not_mem_new {c : Char} (hc : isTagMark c = true) : c ∉ new :=
  fun hm => ne_of_isTagMark (h.new_marks c hm) hc rfl

theorem replace_nil : replace old new [] = [] :=
  Text.replace_nil h.old_ne

@[simp] theorem replace_eq_nil {s : Text} : replace old new s = [] ↔ s = [] :=
  replace_eq_nil_iff h.old_ne h.new_ne

theorem replace_cons {c : Char} (hc : isTagMark c = true) (s : Text) :
    replace old new (c :: s) = c :: replace old new s :=
  replace_cons_of_not_mem h.old_ne (h.not_mem_old hc) s

/-! ## Searching -/

/-- A word in which neither text starts is found in the same places. -/
theorem after?_replace {mark : Text} (ho : ∀ c ∈ old.head?, c ∉ mark)
    (hn : ∀ c ∈ new.head?, c ∉ mark) (s : Text) :
    after? mark (replace old new s) = (after? mark s).map (replace old new) := by
  induction mark generalizing s with
  | nil => simp
  | cons m mark ih =>
      have ih := ih (fun c hc hm => ho c hc (List.mem_cons_of_mem _ hm))
        (fun c hc hm => hn c hc (List.mem_cons_of_mem _ hm))
      induction s using replaceInduction h.old_ne with
      | nil => simp [h.replace_nil, after?]
      | hit s =>
          rw [replace_append h.old_ne]
          obtain ⟨a, x, rfl⟩ := List.exists_cons_of_ne_nil h.old_ne
          obtain ⟨b, y, rfl⟩ := List.exists_cons_of_ne_nil h.new_ne
          have ha : m ≠ a := fun e => ho a rfl (by simp [e])
          have hb : m ≠ b := fun e => hn b rfl (by simp [e])
          simp [after?, ha, hb]
      | miss c s hc =>
          rw [Text.replace_cons hc]
          by_cases hm : m = c
          · simp [after?, hm, ih]
          · simp [after?, hm]

theorem after?_replace_of_isTagMark {mark : Text} (hm : ∀ c ∈ mark, isTagMark c = true)
    (s : Text) : after? mark (replace old new s) = (after? mark s).map (replace old new) := by
  apply h.after?_replace
  · exact fun c hc hm' => h.not_mem_old (hm c hm') (List.mem_of_mem_head? hc)
  · exact fun c hc hm' => h.not_mem_new (hm c hm') (List.mem_of_mem_head? hc)

/-- A word in which neither text starts is neither made nor destroyed. -/
theorem replace_eq_iff {mark : Text} (ho : ∀ c ∈ old.head?, c ∉ mark)
    (hn : ∀ c ∈ new.head?, c ∉ mark) {s : Text} : replace old new s = mark ↔ s = mark := by
  have hword := h.after?_replace ho hn s
  constructor
  · intro hs
    have hnil := after?_append mark []
    rw [List.append_nil] at hnil
    rw [hs, hnil] at hword
    obtain ⟨rest, hr, hrest⟩ := Option.map_eq_some_iff.mp hword.symm
    rw [eq_append_of_after? hr, h.replace_eq_nil.mp hrest, List.append_nil]
  · rintro rfl
    have hnil := after?_append s []
    rw [List.append_nil] at hnil
    rw [hnil, Option.map_some, h.replace_nil] at hword
    rw [eq_append_of_after? hword, List.append_nil]

theorem cut?_replace {mark : Text} (hmark : mark ≠ []) (hm : ∀ c ∈ mark, isTagMark c = true)
    (s : Text) :
    cut? mark (replace old new s) =
      (cut? mark s).map fun parts => (replace old new parts.1, replace old new parts.2) := by
  have hskip : ∀ x : Text, (∀ c ∈ x, isTagMark c = false) → ∀ s : Text,
      cut? mark (x ++ s) = (cut? mark s).map fun parts => (x ++ parts.1, parts.2) := by
    intro x hx s
    induction x with
    | nil => simp
    | cons c x ih =>
        obtain ⟨m, rest, rfl⟩ := List.exists_cons_of_ne_nil hmark
        have hc : m ≠ c := (ne_of_isTagMark (hx c (by simp)) (hm m (by simp))).symm
        have ih := ih fun d hd => hx d (List.mem_cons_of_mem _ hd)
        simp [cut?, after?, hc, ih, Function.comp_def]
  induction s using replaceInduction h.old_ne with
  | nil =>
      obtain ⟨m, rest, rfl⟩ := List.exists_cons_of_ne_nil hmark
      simp [h.replace_nil, cut?, after?]
  | hit s ih =>
      rw [replace_append h.old_ne, hskip new h.new_marks, hskip old h.old_marks, ih]
      simp [Function.comp_def, replace_append h.old_ne]
  | miss c s hc ih =>
      have hword := h.after?_replace_of_isTagMark hm (c :: s)
      rw [Text.replace_cons hc] at hword ⊢
      cases hs : after? mark (c :: s) with
      | some rest =>
          rw [hs, Option.map_some] at hword
          simp [cut?, hword, hs, h.replace_nil]
      | none =>
          rw [hs, Option.map_none] at hword
          have hkeep : ∀ parts ∈ cut? mark s,
              replace old new (c :: parts.1) = c :: replace old new parts.1 := by
            rintro ⟨before, rest⟩ hp
            have hcs := eq_append_of_cut? hp
            apply Text.replace_cons
            cases ho : after? old (c :: before) with
            | none => rfl
            | some r =>
                have hr : c :: s = old ++ (r ++ (mark ++ rest)) := by
                  rw [hcs, ← List.cons_append, eq_append_of_after? ho, List.append_assoc]
                rw [hr, after?_append] at hc
                simp at hc
          cases hp : cut? mark s with
          | none => simp [cut?, hword, hs, ih, hp]
          | some parts => simp [cut?, hword, hs, ih, hp, hkeep parts (hp ▸ rfl)]

/-! ## Runs of a class of characters -/

variable {p : Char → Bool}

theorem dropWhile_replace_of_false (hp : ∀ c, isTagMark c = false → p c = false) (s : Text) :
    (replace old new s).dropWhile p = replace old new (s.dropWhile p) := by
  induction s using replaceInduction h.old_ne with
  | nil => simp [h.replace_nil]
  | hit s ih =>
      rw [replace_append h.old_ne]
      obtain ⟨a, x, rfl⟩ := List.exists_cons_of_ne_nil h.old_ne
      obtain ⟨b, y, rfl⟩ := List.exists_cons_of_ne_nil h.new_ne
      have ha := hp a (h.old_marks a (by simp))
      have hb := hp b (h.new_marks b (by simp))
      rw [List.cons_append, List.cons_append, List.dropWhile_cons_of_neg (by rw [hb]; decide),
        List.dropWhile_cons_of_neg (by rw [ha]; decide), ← List.cons_append, ← List.cons_append,
        replace_append h.old_ne]
  | miss c s hc ih =>
      rw [Text.replace_cons hc, List.dropWhile_cons, List.dropWhile_cons]
      split
      · exact ih
      · rw [Text.replace_cons hc]

theorem dropWhile_replace_of_true (hp : ∀ c, isTagMark c = false → p c = true) (s : Text) :
    (replace old new s).dropWhile p = replace old new (s.dropWhile p) := by
  induction s using replaceInduction h.old_ne with
  | nil => simp [h.replace_nil]
  | hit s ih =>
      rw [replace_append h.old_ne, List.dropWhile_append_of_pos, List.dropWhile_append_of_pos, ih]
      · exact fun c hc => hp c (h.old_marks c hc)
      · exact fun c hc => hp c (h.new_marks c hc)
  | miss c s hc ih =>
      rw [Text.replace_cons hc, List.dropWhile_cons, List.dropWhile_cons]
      split
      · exact ih
      · rw [Text.replace_cons hc]

theorem takeWhile_replace_of_true (hp : ∀ c, isTagMark c = false → p c = true) (s : Text) :
    (replace old new s).takeWhile p = replace old new (s.takeWhile p) := by
  induction s using replaceInduction h.old_ne with
  | nil => simp [h.replace_nil]
  | hit s ih =>
      rw [replace_append h.old_ne, List.takeWhile_append_of_pos, List.takeWhile_append_of_pos, ih,
        replace_append h.old_ne]
      · exact fun c hc => hp c (h.old_marks c hc)
      · exact fun c hc => hp c (h.new_marks c hc)
  | miss c s hc ih =>
      rw [Text.replace_cons hc, List.takeWhile_cons, List.takeWhile_cons]
      split
      · rw [ih, Text.replace_cons]
        cases ho : after? old (c :: s.takeWhile p) with
        | none => rfl
        | some r =>
            have hr : c :: s = old ++ (r ++ s.dropWhile p) := by
              rw [← List.append_assoc, ← eq_append_of_after? ho, List.cons_append,
                List.takeWhile_append_dropWhile]
            rw [hr, after?_append] at hc
            simp at hc
      · exact h.replace_nil.symm

theorem head?_replace (hp : ∀ c, isTagMark c = false → p c = false) (s : Text) :
    (replace old new s).head?.any p = s.head?.any p := by
  induction s using replaceInduction h.old_ne with
  | nil => simp [h.replace_nil]
  | hit s ih =>
      rw [replace_append h.old_ne]
      obtain ⟨a, x, rfl⟩ := List.exists_cons_of_ne_nil h.old_ne
      obtain ⟨b, y, rfl⟩ := List.exists_cons_of_ne_nil h.new_ne
      simp [hp a (h.old_marks a (by simp)), hp b (h.new_marks b (by simp))]
  | miss c s hc ih => simp [Text.replace_cons hc]

theorem getLast?_replace (hp : ∀ c, isTagMark c = false → p c = false) (s : Text) :
    (replace old new s).getLast?.any p = s.getLast?.any p := by
  have happend : ∀ x : Text, x ≠ [] → (∀ c ∈ x, isTagMark c = false) → ∀ t : Text,
      (x ++ t).getLast?.any p = t.getLast?.any p := by
    intro x hx hxm t
    rw [List.getLast?_append]
    cases t.getLast? with
    | some c => rfl
    | none =>
        have hlast := hp _ (hxm _ (List.getLast_mem hx))
        simp [List.getLast?_eq_some_getLast hx, hlast]
  induction s using replaceInduction h.old_ne with
  | nil => simp [h.replace_nil]
  | hit s ih =>
      rw [replace_append h.old_ne, happend new h.new_ne h.new_marks,
        happend old h.old_ne h.old_marks, ih]
  | miss c s hc ih =>
      rw [Text.replace_cons hc, List.getLast?_cons, List.getLast?_cons]
      cases hs : s.getLast? with
      | none =>
          rw [List.getLast?_eq_none_iff] at hs
          simp [hs, h.replace_nil]
      | some d =>
          have hne : replace old new s ≠ [] := by
            rw [Ne, h.replace_eq_nil]
            rintro rfl
            simp at hs
          rw [hs, List.getLast?_eq_some_getLast hne] at ih
          rw [List.getLast?_eq_some_getLast hne]
          simpa using ih

/-! ## Trimming and words -/

theorem strip_replace (hp : ∀ c, isTagMark c = false → p c = false) (s : Text) :
    (replace old new s).strip p = replace old new (s.strip p) := by
  have hmark : ∀ c, p c = true → c ∉ old := by
    intro c hc hm
    simp [hp c (h.old_marks c hm)] at hc
  obtain ⟨a, b, hs, ha, hb, hfirst, hlast⟩ := exists_strip p s
  have hreplace : replace old new s = a ++ (replace old new (s.strip p) ++ b) := by
    rw [hs, replace_append_of_disjoint h.old_ne fun c hc => hmark c (ha c hc),
      replace_append_right_of_disjoint h.old_ne fun c hc => hmark c (hb c hc), ← hs]
  rw [hreplace, strip_append ha hb]
  · rw [h.head?_replace hp, hfirst]
  · rw [h.getLast?_replace hp, hlast]

theorem trim_replace (s : Text) : (replace old new s).trim = replace old new s.trim :=
  h.strip_replace (fun _ => isBlank_eq_false_of_isTagMark) s

theorem firstWord_replace (s : Text) :
    (replace old new s).firstWord = replace old new s.firstWord := by
  unfold firstWord
  rw [h.dropWhile_replace_of_false fun _ => isBlank_eq_false_of_isTagMark,
    h.takeWhile_replace_of_true fun c hc => by simp [isBlank_eq_false_of_isTagMark hc]]
  exact h.strip_replace (fun _ => isQuote_eq_false_of_isTagMark) _

/-! ## Reading tags -/

theorem parenthesized?_replace (s : Text) :
    Tag.parenthesized? (replace old new s) =
      (Tag.parenthesized? s).map (replace old new) := by
  have hopen : ∀ s : Text, s.head?.any (· == '(') = false → Tag.parenthesized? s = none := by
    intro s hs
    unfold Tag.parenthesized?
    split
    · simp at hs
    · rfl
  by_cases hs : s.head?.any (· == '(') = true
  · cases s with
    | nil => simp at hs
    | cons c s =>
        obtain rfl : c = '(' := by simpa using hs
        have hlast := h.getLast?_replace (p := (· == ')'))
          (fun c hc => by simpa using ne_of_isTagMark (d := ')') hc (by decide)) s
        have hany : ∀ t : Text, (t.getLast? == some ')') = t.getLast?.any (· == ')') := by
          intro t
          cases t.getLast? <;> rfl
        rw [h.replace_cons (by decide), Tag.parenthesized?, Tag.parenthesized?, hany, hany, hlast]
        split
        · rename_i hclose
          rw [← hany] at hclose
          have hsplit := List.dropLast_append_getLast? ')' (by simpa using hclose)
          rw [← hsplit, replace_append_cons h.old_ne (h.not_mem_old (by decide)), h.replace_nil]
          simp
        · rfl
  · have hs : s.head?.any (· == '(') = false := Bool.eq_false_iff.mpr hs
    rw [hopen s hs, hopen]
    · rfl
    · rw [h.head?_replace, hs]
      exact fun c hc => by simpa using ne_of_isTagMark (d := '(') hc (by decide)

theorem isEmpty_replace (s : Text) : (replace old new s).isEmpty = s.isEmpty := by
  cases s with
  | nil => simp [h.replace_nil]
  | cons c s =>
      have hne := h.replace_eq_nil.not.mpr (List.cons_ne_nil c s)
      rw [List.isEmpty_eq_false_iff.mpr hne, List.isEmpty_cons]

/-- A text that starts with a tag mark keeps being this mark alone, or not. -/
theorem length_replace_beq_one {s : Text} (hs : ∀ c ∈ s.head?, isTagMark c = true) :
    ((replace old new s).length == 1) = (s.length == 1) := by
  cases s with
  | nil => rw [h.replace_nil]
  | cons c s =>
      rw [h.replace_cons (hs c rfl)]
      cases s with
      | nil => rw [h.replace_nil]
      | cons d s =>
          have hne := h.replace_eq_nil.not.mpr (List.cons_ne_nil d s)
          obtain ⟨e, u, he⟩ := List.exists_cons_of_ne_nil hne
          simp [he]

theorem inlineName?_replace (s : Text) :
    Tag.inlineName? (replace old new s) = (Tag.inlineName? s).map (replace old new) := by
  have hblank : ∀ c, isTagMark c = false → isBlank c = false :=
    fun _ => isBlank_eq_false_of_isTagMark
  have hquote : ∀ c, isTagMark c = false → Tag.isQuote c = false :=
    fun _ => isQuote_eq_false_of_isTagMark
  have hname : ∀ c, isTagMark c = false → (!Tag.isQuote c) = true :=
    fun c hc => by simp [hquote c hc]
  have hword : after? "#*inline".toList (replace old new s) =
      (after? "#*inline".toList s).map (replace old new) :=
    h.after?_replace (fun c hc hm => h.old_head c hc (List.mem_append_left _ hm))
      (fun c hc hm => h.new_head c hc (List.mem_append_left _ hm)) s
  unfold Tag.inlineName?
  rw [hword]
  cases after? "#*inline".toList s with
  | none => rfl
  | some rest =>
      simp only [Option.map_some, Option.bind_eq_bind, Option.bind_some]
      rw [h.head?_replace hblank, h.dropWhile_replace_of_false hblank]
      have hfirst := h.head?_replace hquote (rest.dropWhile isBlank)
      cases hrest : rest.dropWhile isBlank with
      | nil => simp [h.replace_nil]
      | cons q t =>
          rw [hrest] at hfirst
          cases hq : Tag.isQuote q with
          | true =>
              have hmark : isTagMark q = true :=
                Bool.of_not_eq_false fun hc => by simp [hquote q hc] at hq
              have hend : ∀ c ∈ (t.dropWhile fun c => !Tag.isQuote c).head?,
                  isTagMark c = true := by
                intro c hc
                have hstop := List.head?_dropWhile_not (fun c => !Tag.isQuote c) t
                rw [Option.mem_def.mp hc] at hstop
                refine Bool.of_not_eq_false fun hm => ?_
                simp [hquote c hm] at hstop
              rw [h.replace_cons hmark]
              simp only [hq, h.takeWhile_replace_of_true hname, h.dropWhile_replace_of_true hname,
                h.length_replace_beq_one hend, h.isEmpty_replace]
              split
              · split <;> rfl
              · rfl
          | false =>
              have hne := h.replace_eq_nil.not.mpr (List.cons_ne_nil q t)
              obtain ⟨q', t', hq'⟩ := List.exists_cons_of_ne_nil hne
              rw [hq'] at hfirst ⊢
              have hfalse : Tag.isQuote q' = false := by simpa [hq] using hfirst
              simp [hq, hfalse]

theorem referenceOf_replace (s : Text) :
    Tag.referenceOf (replace old new s) = (Tag.referenceOf s).map (replace old new) := by
  have hblock : ∀ w : Text, replace old new w = Tag.blockName ↔ w = Tag.blockName := fun w =>
    h.replace_eq_iff (fun c hc hm => h.old_head c hc (List.mem_append_right _ hm))
      (fun c hc hm => h.new_head c hc (List.mem_append_right _ hm))
  unfold Tag.referenceOf
  rw [h.trim_replace, h.parenthesized?_replace, h.firstWord_replace]
  cases Tag.parenthesized? s.trim with
  | some expr => simp [Reference.map, h.trim_replace]
  | none =>
      simp only [Option.map_none, hblock]
      split <;> rfl

/-- The reading of a tag commutes with the replacement. -/
theorem ofText_replace (inside : Text) :
    Tag.ofText (replace old new inside) = (Tag.ofText inside).map (replace old new) := by
  unfold Tag.ofText Tag.ofInside
  rw [h.trim_replace, h.after?_replace_of_isTagMark (by decide),
    h.after?_replace_of_isTagMark (by decide), h.after?_replace_of_isTagMark (by decide),
    h.inlineName?_replace]
  cases Text.after? ['#', '>'] inside.trim with
  | some s => simp [Tag.map, h.firstWord_replace]
  | none =>
      cases Text.after? ['>'] inside.trim with
      | some s => simp [Tag.map, h.referenceOf_replace]
      | none =>
          cases Tag.inlineName? inside.trim with
          | some name => simp [Tag.map]
          | none =>
              cases Text.after? ['/'] inside.trim with
              | some s => simp [Tag.map, h.trim_replace]
              | none => simp [Tag.map]

/-- The replacement commutes with the search for the next tag. -/
theorem next?_replace (s : Text) :
    Tag.next? (replace old new s) = (Tag.next? s).map fun parts =>
      (replace old new parts.1, replace old new parts.2.1, replace old new parts.2.2) := by
  unfold Tag.next?
  rw [h.cut?_replace (by decide) (by decide)]
  cases Text.cut? Tag.opening s with
  | none => rfl
  | some parts =>
      simp only [Option.map_some, Option.bind_eq_bind, Option.bind_some]
      rw [h.cut?_replace (by decide) (by decide)]
      cases Text.cut? Tag.closing parts.2 <;> rfl

end Inert

end Inlay
