/-!
# Text

Templates, names and generated code are lists of characters. This module
holds the searches on them: what follows a leading word, the first
occurrence of a mark, and replacement of every occurrence.
-/

namespace Inlay

/-- Template text, names and generated code. -/
abbrev Text := List Char

instance : LawfulBEq Text := inferInstance

namespace Text

/-- What follows `mark` in a text that starts with it. -/
def after? : Text → Text → Option Text
  | [], s => some s
  | _ :: _, [] => none
  | m :: mark, c :: s => if m = c then after? mark s else none

@[simp] theorem after?_nil (s : Text) : after? [] s = some s := by
  cases s <;> rfl

@[simp] theorem after?_append (mark s : Text) : after? mark (mark ++ s) = some s := by
  induction mark with
  | nil => exact after?_nil s
  | cons m mark ih => simp [after?, ih]

theorem eq_append_of_after? {mark s rest : Text} (h : after? mark s = some rest) :
    s = mark ++ rest := by
  induction mark generalizing s with
  | nil => simpa using h
  | cons m mark ih =>
      cases s with
      | nil => simp [after?] at h
      | cons c s =>
          by_cases hc : m = c
          · rw [hc]
            simp only [after?, hc, if_true] at h
            rw [ih h, List.cons_append]
          · simp [after?, hc] at h

theorem length_of_after? {mark s rest : Text} (h : after? mark s = some rest) :
    s.length = mark.length + rest.length := by
  rw [eq_append_of_after? h, List.length_append]

/-- The text before and the text after the first occurrence of `mark`. -/
def cut? (mark : Text) : Text → Option (Text × Text)
  | [] => (after? mark []).map fun rest => ([], rest)
  | c :: s =>
      match after? mark (c :: s) with
      | some rest => some ([], rest)
      | none => (cut? mark s).map fun parts => (c :: parts.1, parts.2)

theorem eq_append_of_cut? {mark s before rest : Text}
    (h : cut? mark s = some (before, rest)) : s = before ++ (mark ++ rest) := by
  induction s generalizing before with
  | nil =>
      obtain ⟨r, hr, hp⟩ := Option.map_eq_some_iff.mp h
      obtain ⟨rfl, rfl⟩ := Prod.mk.injEq .. ▸ hp
      simpa using eq_append_of_after? hr
  | cons c s ih =>
      simp only [cut?] at h
      split at h
      · rename_i r hr
        obtain ⟨rfl, rfl⟩ := Prod.mk.injEq .. ▸ Option.some.inj h
        simpa using eq_append_of_after? hr
      · obtain ⟨⟨b, r⟩, hr, hp⟩ := Option.map_eq_some_iff.mp h
        obtain ⟨rfl, rfl⟩ := Prod.mk.injEq .. ▸ hp
        rw [ih hr, List.cons_append]

/-- Replaces every occurrence of `old`, leftmost first and without overlap.
The empty text occurs before every character and at the end. -/
def replace (old new s : Text) : Text :=
  if old = [] then new ++ s.flatMap fun c => c :: new
  else
    match _h : after? old s with
    | some rest => new ++ replace old new rest
    | none =>
        match s with
        | [] => []
        | c :: rest => c :: replace old new rest
termination_by s.length
decreasing_by
  · have := length_of_after? _h
    have : old.length ≠ 0 := by simp_all
    omega
  · simp

theorem replace_nil {old new : Text} (h : old ≠ []) : replace old new [] = [] := by
  unfold replace
  cases old with
  | nil => exact absurd rfl h
  | cons c old => simp [after?]

theorem replace_append {old new : Text} (h : old ≠ []) (s : Text) :
    replace old new (old ++ s) = new ++ replace old new s := by
  rw [replace, if_neg h]
  split
  · rename_i rest hr
    rw [after?_append, Option.some.injEq] at hr
    rw [hr]
  · rename_i hr
    simp at hr

theorem replace_cons {old new : Text} {c : Char} {s : Text} (h : after? old (c :: s) = none) :
    replace old new (c :: s) = c :: replace old new s := by
  have hold : old ≠ [] := by
    rintro rfl
    simp at h
  rw [replace, if_neg hold]
  split
  · rename_i hr
    simp [h] at hr
  · rfl

def strip (p : Char → Bool) (s : Text) : Text :=
  ((s.dropWhile p).reverse.dropWhile p).reverse

/-- Lists the parts with ` -> ` between neighbours. -/
def arrowed (parts : List Text) : Text :=
  List.intercalate " -> ".toList parts

end Text

end Inlay
