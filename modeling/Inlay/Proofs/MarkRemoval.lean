import Inlay.Callable
import Inlay.Proofs.Masking

/-!
# Taking the mark of self-indented code out

The mark has a bell before its first letter, and no other bell in the code
is followed by this letter. So the mark is found where it was written and
nowhere else, and a margin right before it goes with it.
-/

namespace Inlay

namespace Text

/-- Every `k` in the text is followed by another character than `d`, in the text itself. -/
def Parted (k d : Char) (s : Text) : Prop :=
  ∀ a b, s = a ++ k :: b → ∃ c rest, b = c :: rest ∧ c ≠ d

section

variable {k d : Char}

theorem parted_of_not_mem {s : Text} (h : k ∉ s) : Parted k d s := by
  rintro a b rfl
  exact absurd (List.mem_append_right a List.mem_cons_self) h

theorem Parted.append {s t : Text} (hs : Parted k d s) (ht : Parted k d t) :
    Parted k d (s ++ t) := by
  intro a b h
  rcases List.append_eq_append_iff.mp h with ⟨x, -, hx⟩ | ⟨x, hx, hrest⟩
  · exact ht x b hx
  · cases x with
    | nil => exact ht [] b hrest.symm
    | cons e x =>
        obtain ⟨rfl, rfl⟩ := List.cons.inj hrest
        obtain ⟨c, rest, rfl, hc⟩ := hs a x hx
        exact ⟨c, rest ++ t, rfl, hc⟩

theorem Parted.of_append {s t : Text} (h : Parted k d (s ++ t)) : Parted k d t := by
  rintro a b rfl
  exact h (s ++ a) b (List.append_assoc ..).symm

theorem parted_pair {c : Char} (hk : c ≠ k) (hd : c ≠ d) : Parted k d [k, c] := by
  intro a b h
  cases a with
  | nil =>
      obtain ⟨-, rfl⟩ := List.cons.inj h
      exact ⟨c, [], rfl, hd⟩
  | cons e a =>
      have hmem : k ∈ [c] := by
        rw [(List.cons.inj h).2]
        exact List.mem_append_right a List.mem_cons_self
      exact absurd (List.mem_singleton.mp hmem).symm hk

/-- The first place where `k` is followed by `d` can be told. -/
theorem Parted.eq_of_append {y p r t : Text} (hy : Parted k d y) (hp : k ∉ p)
    (h : y ++ k :: d :: r = p ++ k :: d :: t) : y = p := by
  rcases List.append_eq_append_iff.mp h with ⟨x, rfl, hx⟩ | ⟨x, rfl, hx⟩
  · cases x with
    | nil => exact (List.append_nil _).symm
    | cons e x =>
        obtain ⟨rfl, -⟩ := List.cons.inj hx
        exact absurd (List.mem_append_right y List.mem_cons_self) hp
  · cases x with
    | nil => exact List.append_nil _
    | cons e x =>
        obtain ⟨rfl, htail⟩ := List.cons.inj hx
        obtain ⟨c, rest, rfl, hc⟩ := hy p x rfl
        exact absurd (List.cons.inj htail).1.symm hc

/-- A `k` before `d` is not within the text. -/
theorem Parted.append_ne {y p r t : Text} (hy : Parted k d y) (hlen : p.length < y.length) :
    y ++ r ≠ p ++ k :: d :: t := by
  intro h
  rcases List.append_eq_append_iff.mp h with ⟨x, rfl, -⟩ | ⟨x, rfl, hx⟩
  · rw [List.length_append] at hlen
    omega
  · cases x with
    | nil =>
        rw [List.append_nil] at hlen
        exact absurd hlen (Nat.lt_irrefl _)
    | cons e x =>
        obtain ⟨rfl, htail⟩ := List.cons.inj hx
        obtain ⟨c, rest, rfl, hc⟩ := hy p x rfl
        exact hc (List.cons.inj htail).1.symm

variable {p q new : Text}

theorem replace_of_parted {s : Text} (hs : Parted k d s) :
    replace (p ++ k :: d :: q) new s = s := by
  refine replace_of_not_infix (List.append_ne_nil_of_right_ne_nil p (List.cons_ne_nil _ _)) ?_
  rintro ⟨a, b, rfl⟩
  obtain ⟨c, rest, hcd, hc⟩ := hs (a ++ p) (d :: (q ++ b)) (by simp)
  exact hc (List.cons.inj hcd).1.symm

/-- The old text does not start where its `k` would be within the text. -/
theorem replace_append_of_parted {x y : Text} (h : Parted k d (x ++ y))
    (hlen : p.length ≤ y.length) (r : Text) :
    replace (p ++ k :: d :: q) new (x ++ (y ++ r)) =
      x ++ replace (p ++ k :: d :: q) new (y ++ r) := by
  induction x with
  | nil => rfl
  | cons c x ih =>
      have hnone : after? (p ++ k :: d :: q) (c :: (x ++ (y ++ r))) = none := by
        by_contra hne
        obtain ⟨rest, hrest⟩ := Option.ne_none_iff_exists'.mp hne
        have hsplit : (c :: (x ++ y)) ++ r = p ++ k :: d :: (q ++ rest) := by
          simpa using eq_append_of_after? hrest
        refine h.append_ne ?_ hsplit
        rw [List.cons_append, List.length_cons, List.length_append]
        omega
      have htail : Parted k d (x ++ y) := Parted.of_append (s := [c]) h
      rw [List.cons_append, replace_cons hnone, ih htail, List.cons_append]

end

end Text

namespace Callable

open Text Keyword

/-- What puts the indentation parameter at the start of a line. -/
def margin (f : Fragments) : Text :=
  f.splice indentParameter

/-- The code without marks, and without the margins right before marks. -/
def unmark (f : Fragments) (s : Text) : Text :=
  replace selfIndented [] (replace (margin f ++ selfIndented) [] s)

theorem threadIndent_eq (f : Fragments) (code : Text) :
    threadIndent f code = sweep false false (unmark f (indentLines (margin f) code)) := rfl

/-- The separator has nothing that literals, lines and marks are told by. -/
structure Separates (f : Fragments) : Prop where
  apostrophe : '\'' ∉ f.separator
  backslash : '\\' ∉ f.separator
  newline : '\n' ∉ f.separator
  bell : bell ∉ f.separator

/-- No bell in the code starts the word of the mark. -/
abbrev Unmarked (s : Text) : Prop :=
  Parted bell 'S' s

/-- What follows the bell in the mark. -/
def markWord : Text :=
  "eLfInDeNt\x07!!".toList

theorem selfIndented_eq : selfIndented = "!!".toList ++ bell :: 'S' :: markWord := rfl

theorem margin_eq (f : Fragments) :
    margin f = '\'' :: (f.separator ++ (indentParameter ++ (f.separator ++ ['\'']))) := by
  simp [margin, Fragments.splice]

theorem margin_selfIndented_eq (f : Fragments) :
    margin f ++ selfIndented = (margin f ++ "!!".toList) ++ bell :: 'S' :: markWord := by
  rw [List.append_assoc]
  rfl

theorem bell_not_mem_margin {f : Fragments} (hf : Separates f) : bell ∉ margin f := by
  have hparameter : bell ∉ indentParameter := by decide
  have hquote : bell ≠ '\'' := by decide
  simp [margin_eq, hf.bell, hparameter, hquote]

theorem bell_not_mem_margin_bangs {f : Fragments} (hf : Separates f) :
    bell ∉ margin f ++ "!!".toList := by
  have hbangs : bell ∉ "!!".toList := by decide
  exact fun h => (List.mem_append.mp h).elim (bell_not_mem_margin hf) hbangs

theorem Unmarked.append_bangs {x : Text} (hx : Unmarked x) : Unmarked (x ++ "!!".toList) :=
  Parted.append hx (parted_of_not_mem (by decide))

theorem unmark_of_unmarked (f : Fragments) {s : Text} (h : Unmarked s) : unmark f s = s := by
  unfold unmark
  rw [margin_selfIndented_eq, replace_of_parted h, selfIndented_eq, replace_of_parted h]

/-- The beginning of a call, which follows the mark. -/
def callStart (f : Fragments) : Text :=
  '\'' :: (f.separator ++ "LR".toList)

theorem callStart_append (f : Fragments) (s : Text) :
    callStart f ++ s = '\'' :: (f.separator ++ ("LR".toList ++ s)) := by
  rw [callStart, List.cons_append, List.append_assoc]

theorem after?_append_left (x mark s : Text) :
    after? (x ++ mark) (x ++ s) = after? mark s := by
  induction x with
  | nil => rfl
  | cons c x ih => simpa [after?] using ih

section

variable {f : Fragments} (hf : Separates f)

include hf

theorem replace_led_callStart (s : Text) :
    replace (margin f ++ selfIndented) [] (callStart f ++ s) =
      callStart f ++ replace (margin f ++ selfIndented) [] s := by
  have hnone : after? (margin f ++ selfIndented) ('\'' :: (f.separator ++ ("LR".toList ++ s))) = none := by
    rw [margin_eq, List.cons_append, List.append_assoc]
    exact after?_append_left f.separator _ _
  have hquote : '\'' ∉ f.separator ++ "LR".toList := by
    simp [hf.apostrophe]
  have hrest : replace (margin f ++ selfIndented) [] ((f.separator ++ "LR".toList) ++ s) =
      (f.separator ++ "LR".toList) ++ replace (margin f ++ selfIndented) [] s :=
    replace_append_of_head hquote s
  rw [List.append_assoc, List.append_assoc] at hrest
  rw [callStart_append, replace_cons hnone, hrest, callStart_append]

omit hf in
/-- Before a call the mark goes, and what is before it stays. -/
theorem replace_selfIndented_callStart {x : Text} (hx : Unmarked x) (s : Text) :
    replace selfIndented [] (x ++ (callStart f ++ s)) =
      x ++ replace selfIndented [] (callStart f ++ s) := by
  have hquote : '\'' ∉ selfIndented := by decide
  have hself : replace selfIndented [] x = x := by rw [selfIndented_eq, replace_of_parted hx]
  rw [callStart_append, replace_append_cons (by decide) hquote, hself,
    replace_cons_of_not_mem (by decide) hquote]

theorem unmark_led {x : Text} (hx : Unmarked x) (s : Text) :
    unmark f (x ++ (margin f ++ (selfIndented ++ (callStart f ++ s)))) =
      x ++ unmark f (callStart f ++ s) := by
  have hled : replace (margin f ++ selfIndented) []
      (x ++ (margin f ++ (selfIndented ++ (callStart f ++ s)))) =
        x ++ replace (margin f ++ selfIndented) [] (callStart f ++ s) := by
    have hparted : Unmarked (x ++ (margin f ++ "!!".toList)) :=
      Parted.append hx (parted_of_not_mem (bell_not_mem_margin_bangs hf))
    have hkeep : replace (margin f ++ "!!".toList ++ bell :: 'S' :: markWord) []
        (x ++ (margin f ++ "!!".toList ++ (bell :: 'S' :: markWord ++ (callStart f ++ s)))) =
          x ++ replace (margin f ++ "!!".toList ++ bell :: 'S' :: markWord) []
            (margin f ++ "!!".toList ++ (bell :: 'S' :: markWord ++ (callStart f ++ s))) :=
      replace_append_of_parted hparted (Nat.le_refl _) _
    have hmark : margin f ++ "!!".toList ++ (bell :: 'S' :: markWord ++ (callStart f ++ s)) =
        (margin f ++ selfIndented) ++ (callStart f ++ s) := by
      rw [margin_selfIndented_eq, List.append_assoc _ (bell :: 'S' :: markWord)]
    rw [hmark, ← margin_selfIndented_eq] at hkeep
    rw [← List.append_assoc (margin f), hkeep,
      replace_append (List.append_ne_nil_of_right_ne_nil _ (by decide)), List.nil_append]
  unfold unmark
  rw [hled, replace_led_callStart hf, replace_selfIndented_callStart hx]

/-- Without a margin before it the mark is left to the second replacement. -/
theorem replace_append_of_unled {x : Text} (hx : Unmarked x) (hled : ¬ margin f <:+ x) (s : Text) :
    replace (margin f ++ selfIndented) [] (x ++ (selfIndented ++ s)) =
      x ++ replace (margin f ++ selfIndented) [] (selfIndented ++ s) := by
  induction x with
  | nil => rfl
  | cons c x ih =>
      have hnone : after? (margin f ++ selfIndented) (c :: (x ++ (selfIndented ++ s))) = none := by
        by_contra hne
        obtain ⟨rest, hrest⟩ := Option.ne_none_iff_exists'.mp hne
        have hsplit : (c :: x ++ "!!".toList) ++ bell :: 'S' :: (markWord ++ s) =
            (margin f ++ "!!".toList) ++ bell :: 'S' :: (markWord ++ rest) := by
          simpa [selfIndented_eq] using eq_append_of_after? hrest
        have hsame := hx.append_bangs.eq_of_append (bell_not_mem_margin_bangs hf) hsplit
        exact hled (List.append_cancel_right hsame ▸ List.suffix_refl _)
      have htail : Unmarked x := Parted.of_append (s := [c]) hx
      have hunled : ¬ margin f <:+ x := fun h => hled (h.trans (List.suffix_cons c x))
      rw [List.cons_append, replace_cons hnone, ih htail hunled, List.cons_append]

theorem unmark_unled {x : Text} (hx : Unmarked x) (hled : ¬ margin f <:+ x) (s : Text) :
    unmark f (x ++ (selfIndented ++ (callStart f ++ s))) = x ++ unmark f (callStart f ++ s) := by
  have hhead : margin f ++ selfIndented =
      '\'' :: (f.separator ++ (indentParameter ++ (f.separator ++ ('\'' :: selfIndented)))) := by
    simp [margin_eq]
  have hself : replace (margin f ++ selfIndented) [] (selfIndented ++ (callStart f ++ s)) =
      selfIndented ++ replace (margin f ++ selfIndented) [] (callStart f ++ s) := by
    rw [hhead]
    exact replace_append_of_head (by decide) _
  have hkeep : replace (margin f ++ selfIndented) [] (x ++ (selfIndented ++ (callStart f ++ s))) =
      x ++ (selfIndented ++ replace (margin f ++ selfIndented) [] (callStart f ++ s)) := by
    rw [replace_append_of_unled hf hx hled, hself]
  have hmark : replace selfIndented []
      (x ++ (selfIndented ++ replace (margin f ++ selfIndented) [] (callStart f ++ s))) =
        x ++ replace selfIndented [] (replace (margin f ++ selfIndented) [] (callStart f ++ s)) := by
    have hparted : Unmarked (x ++ "!!".toList) := hx.append_bangs
    have hfirst : replace ("!!".toList ++ bell :: 'S' :: markWord) [] (x ++ ("!!".toList ++
        (bell :: 'S' :: markWord ++ replace (margin f ++ selfIndented) [] (callStart f ++ s)))) =
          x ++ replace ("!!".toList ++ bell :: 'S' :: markWord) [] ("!!".toList ++
            (bell :: 'S' :: markWord ++ replace (margin f ++ selfIndented) [] (callStart f ++ s))) :=
      replace_append_of_parted hparted (Nat.le_refl _) _
    rw [← selfIndented_eq] at hfirst
    refine hfirst.trans (congrArg (x ++ ·) ?_)
    exact replace_append (by decide) _
  unfold unmark
  rw [hkeep, hmark]

end

end Callable

end Inlay
