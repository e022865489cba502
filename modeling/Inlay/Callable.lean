import Inlay.Keyword
import Inlay.Options.Basic
import Inlay.Text.Blank
import Inlay.Text.Lines
import Inlay.Text.Word

/-!
# Callables and their indentation

A callable that indents its output takes the indentation as a parameter.
Its code gets the parameter at the start of every line, and each callable
nested in it captures the parameter. Code that indents its own output is
led by a mark, and its line gets no further indentation.
-/

namespace Inlay.Callable

def indentParameter : Text :=
  "$sp".toList

/-- Leads code that starts a line and indents its own output. -/
def selfIndented : Text :=
  "!!\x07SeLfInDeNt\x07!!".toList

/-! ## Headers of nested callables -/

/-- Parameters up to the nearest closing parenthesis after which only blanks
stand before an opening brace, and what follows the brace. Parameters stay
on one line. -/
def parameters? : Text → Option (Text × Text)
  | [] => none
  | c :: s =>
      match (if c = ')' then Text.after? ['{'] (s.dropWhile isBlank) else none) with
      | some rest => some ([], rest)
      | none =>
          if c = '\n' then none
          else (parameters? s).map fun parts => (c :: parts.1, parts.2)

/-- What follows the opening parenthesis of a header that starts the text,
and whether the parenthesis is on the same line. -/
def opening? (s : Text) : Option (Bool × Text) := do
  let rest ← Text.after? Keyword.word s
  let inner ← Text.after? ['('] (rest.dropWhile isBlank)
  return ('\n' ∉ rest.takeWhile isBlank, inner)

/-- The parameters of a callable whose header starts the text, and its body. -/
def header? (s : Text) : Option (Text × Text) :=
  (opening? s).bind fun found => parameters? found.2

theorem length_dropWhile_le (p : Char → Bool) (s : Text) :
    (s.dropWhile p).length ≤ s.length :=
  (List.dropWhile_sublist p).length_le

theorem length_of_parameters? {s params rest : Text} (h : parameters? s = some (params, rest)) :
    rest.length < s.length := by
  induction s generalizing params with
  | nil => simp [parameters?] at h
  | cons c s ih =>
      simp only [parameters?] at h
      split at h
      · rename_i r hr
        obtain ⟨rfl, rfl⟩ := Prod.mk.injEq .. ▸ Option.some.inj h
        split at hr
        · have h₁ := Text.length_of_after? hr
          have h₂ := length_dropWhile_le isBlank s
          simp only [List.length_cons, List.length_nil] at h₁ ⊢
          omega
        · simp at hr
      · split at h
        · simp at h
        · obtain ⟨⟨p, r⟩, hr, hp⟩ := Option.map_eq_some_iff.mp h
          obtain ⟨rfl, rfl⟩ := Prod.mk.injEq .. ▸ hp
          exact Nat.lt_succ_of_lt (ih hr)

theorem eq_append_of_opening? {s inner : Text} {sameLine : Bool}
    (h : opening? s = some (sameLine, inner)) :
    ∃ gap, s = Keyword.word ++ (gap ++ '(' :: inner) ∧ (∀ c ∈ gap, isBlank c = true) ∧
      sameLine = decide ('\n' ∉ gap) := by
  simp only [opening?, Option.bind_eq_bind, Option.bind_eq_some_iff] at h
  obtain ⟨a, ha, b, hb, hp⟩ := h
  simp only [pure, Option.some.injEq, Prod.mk.injEq] at hp
  obtain ⟨rfl, rfl⟩ := hp
  refine ⟨a.takeWhile isBlank, ?_, ?_, rfl⟩
  · rw [Text.eq_append_of_after? ha]
    congr 1
    have hb := Text.eq_append_of_after? hb
    rw [← List.singleton_append, ← hb, List.takeWhile_append_dropWhile]
  · exact fun c hc => List.all_eq_true.mp List.all_takeWhile c hc

theorem length_of_opening? {s inner : Text} {sameLine : Bool}
    (h : opening? s = some (sameLine, inner)) : inner.length < s.length := by
  obtain ⟨gap, hs, -⟩ := eq_append_of_opening? h
  have := congrArg List.length hs
  simp only [List.length_append, List.length_cons] at this
  omega

theorem length_of_header? {s params rest : Text} (h : header? s = some (params, rest)) :
    rest.length < s.length := by
  obtain ⟨⟨sameLine, inner⟩, ho, hp⟩ := Option.bind_eq_some_iff.mp h
  exact Nat.lt_trans (length_of_parameters? hp) (length_of_opening? ho)

/-- Makes every nested callable capture the indentation parameter. A header
starts where a word starts; `inWord` tells that a word character precedes. -/
def capture (inWord : Bool) (s : Text) : Text :=
  match _h : (if inWord then none else header? s) with
  | some (params, rest) =>
      Keyword.word ++ '(' :: params ++ ")use($sp)\x7b".toList ++ capture false rest
  | none =>
      match s with
      | [] => []
      | c :: rest => c :: capture (isWord c) rest
termination_by s.length
decreasing_by
  · split at _h
    · simp at _h
    · exact length_of_header? _h
  · simp

@[simp] theorem capture_nil (inWord : Bool) : capture inWord [] = [] := by
  have h : header? [] = none := by decide
  rw [capture]
  split
  · rename_i hs
    simp [h] at hs
  · rfl

theorem capture_of_header? {s params rest : Text} (h : header? s = some (params, rest)) :
    capture false s =
      Keyword.word ++ '(' :: params ++ ")use($sp)\x7b".toList ++ capture false rest := by
  rw [capture]
  split
  · rename_i p r hs
    simp only [Bool.false_eq_true, if_false, h, Option.some.injEq, Prod.mk.injEq] at hs
    rw [hs.1, hs.2]
  · rename_i hs
    simp [h] at hs

theorem capture_cons {inWord : Bool} {c : Char} {s : Text}
    (h : inWord = true ∨ header? (c :: s) = none) :
    capture inWord (c :: s) = c :: capture (isWord c) s := by
  rw [capture]
  split
  · rename_i hs
    rcases h with h | h <;> simp [h] at hs
  · rfl

/-! ## One pass

A search for the end of the parameters that fails has gone to the end of the
line, so no header whose parameters start on that line can be complete. The
pass remembers this and looks at each line once.
-/

/-- No parameters that start on the present line come to an end. -/
def Barren (s : Text) : Prop :=
  ∀ a b, s = a ++ b → '\n' ∉ a → parameters? b = none

/-- Makes every nested callable capture the indentation parameter. With
`barren`, no parameters that start on the present line come to an end. -/
def sweep (inWord barren : Bool) (s : Text) : Text :=
  match _ho : (if inWord then none else opening? s) with
  | some (sameLine, inner) =>
      match _hp : (if barren && sameLine then none else parameters? inner) with
      | some (params, rest) =>
          Keyword.word ++ '(' :: params ++ ")use($sp)\x7b".toList ++ sweep false false rest
      | none =>
          match s with
          | [] => []
          | c :: rest => c :: sweep (isWord c) (barren || sameLine) rest
  | none =>
      match s with
      | [] => []
      | c :: rest => c :: sweep (isWord c) (barren && c != '\n') rest
termination_by s.length
decreasing_by
  · split at _ho
    · simp at _ho
    · split at _hp
      · simp at _hp
      · exact Nat.lt_trans (length_of_parameters? _hp) (length_of_opening? _ho)
  · simp
  · simp

theorem parameters?_cons_eq_none {c : Char} {s : Text} (h : parameters? (c :: s) = none)
    (hc : c ≠ '\n') : parameters? s = none := by
  simp only [parameters?, hc, if_false] at h
  split at h
  · simp at h
  · simpa using h

theorem barren_of_parameters? {s : Text} (h : parameters? s = none) : Barren s := by
  induction s with
  | nil =>
      rintro a b hab -
      obtain ⟨-, rfl⟩ := List.append_eq_nil_iff.mp hab.symm
      rfl
  | cons c s ih =>
      rintro a b hab ha
      cases a with
      | nil =>
          rw [List.nil_append] at hab
          rw [← hab, h]
      | cons d a =>
          rw [List.cons_append, List.cons.injEq] at hab
          simp only [List.mem_cons, not_or] at ha
          exact ih (parameters?_cons_eq_none h (hab.1 ▸ Ne.symm ha.1)) a b hab.2 ha.2

theorem Barren.tail {c : Char} {s : Text} (h : Barren (c :: s)) (hc : c ≠ '\n') :
    Barren s := by
  intro a b hab ha
  exact h (c :: a) b (by rw [hab, List.cons_append]) (by simp [ha, Ne.symm hc])

theorem parameters?_append_eq_none {a b : Text} (ha : ∀ c ∈ a, c ≠ ')' ∧ c ≠ '\n')
    (hb : parameters? b = none) : parameters? (a ++ b) = none := by
  induction a with
  | nil => exact hb
  | cons c a ih =>
      have hc := ha c (by simp)
      simp only [List.cons_append, parameters?, hc.1, hc.2, if_false]
      rw [ih fun d hd => ha d (List.mem_cons_of_mem _ hd)]
      rfl

theorem Barren.append {a b : Text} (h : Barren b) (ha : ∀ c ∈ a, c ≠ ')' ∧ c ≠ '\n') :
    Barren (a ++ b) := by
  intro x y hxy hx
  rcases List.append_eq_append_iff.mp hxy with ⟨t, rfl, rfl⟩ | ⟨t, rfl, rfl⟩
  · exact h t y rfl fun ht => hx (by simp [ht])
  · exact parameters?_append_eq_none (fun c hc => ha c (by simp [hc]))
      (h [] b rfl (by simp))

theorem opening_ne {s inner : Text} (h : opening? s = some (true, inner)) :
    ∃ front, s = front ++ inner ∧ ∀ c ∈ front, c ≠ ')' ∧ c ≠ '\n' := by
  obtain ⟨gap, hs, hgap, hline⟩ := eq_append_of_opening? h
  have hline : '\n' ∉ gap := of_decide_eq_true hline.symm
  refine ⟨Keyword.word ++ (gap ++ ['(']), by simp [hs], ?_⟩
  intro c hc
  simp only [List.mem_append, List.mem_singleton] at hc
  rcases hc with hc | hc | rfl
  · have hword : Keyword.word.all (fun d => d != ')' && d != '\n') = true := by decide
    simpa using List.all_eq_true.mp hword c hc
  · refine ⟨?_, fun e => hline (e ▸ hc)⟩
    rintro rfl
    exact absurd (hgap _ hc) (by decide)
  · decide

theorem header?_eq_parameters? {s inner : Text} {sameLine : Bool}
    (h : opening? s = some (sameLine, inner)) : header? s = parameters? inner := by
  simp [header?, h]

theorem ne_newline_of_opening? {c : Char} {s : Text} {found : Bool × Text}
    (h : opening? (c :: s) = some found) : c ≠ '\n' := by
  obtain ⟨gap, hs, -⟩ := eq_append_of_opening? h
  have hword : Keyword.word = 'f' :: Keyword.word.tail := by decide
  rw [hword, List.cons_append, List.cons.injEq] at hs
  rw [hs.1]
  decide

theorem sweep_eq_capture (inWord barren : Bool) (s : Text) (h : barren = true → Barren s) :
    sweep inWord barren s = capture inWord s := by
  fun_induction sweep inWord barren s with
  | case1 inWord barren s sameLine inner ho params rest hp ih =>
      split at ho
      · simp at ho
      · rename_i hw
        split at hp
        · simp at hp
        · rw [ih (by simp), Bool.eq_false_iff.mpr hw,
            capture_of_header? ((header?_eq_parameters? ho).trans hp)]
  | case2 => simp
  | case3 inWord barren sameLine inner hp c s ho ih =>
      split at ho
      · simp at ho
      · have hc := ne_newline_of_opening? ho
        have hnone : parameters? inner = none := by
          split at hp
          · rename_i hb
            obtain ⟨hbarren, rfl⟩ := Bool.and_eq_true_iff.mp hb
            obtain ⟨front, hs, hfront⟩ := opening_ne ho
            exact h hbarren front inner hs fun hm => (hfront _ hm).2 rfl
          · exact hp
        rw [capture_cons (.inr ((header?_eq_parameters? ho).trans hnone)), ih]
        intro hb
        rcases Bool.or_eq_true_iff.mp hb with hb | rfl
        · exact (h hb).tail hc
        · obtain ⟨front, hs, hfront⟩ := opening_ne ho
          refine Barren.tail ?_ hc
          rw [hs]
          exact (barren_of_parameters? hnone).append hfront
  | case4 => simp
  | case5 inWord barren c s ho ih =>
      rw [capture_cons, ih]
      · intro hb
        obtain ⟨hb, hc⟩ := Bool.and_eq_true_iff.mp hb
        exact (h hb).tail (by simpa using hc)
      · split at ho
        · rename_i hw
          exact .inl hw
        · exact .inr (by simp [header?, ho])

/-! ## Threading -/

/-- Starts every line with the indentation parameter, lines of code that
indents its own output excepted, and hands the parameter on to nested
callables. -/
def threadIndent (f : Fragments) (code : Text) : Text :=
  let marker := f.splice indentParameter
  sweep false false
    (Text.replace selfIndented []
      (Text.replace (marker ++ selfIndented) [] (Text.indentLines marker code)))

/-- A callable from its further parameters and the inside of the literal
that it returns. -/
def define (f : Fragments) (further code : Text) : Text :=
  "function ($cx, $in".toList ++ further ++ ") \x7b".toList ++ f.opening ++
    '\'' :: code ++ '\'' :: f.closing ++ ['}']

end Inlay.Callable
