import Mathlib.Data.List.Infix
import Inlay.Keyword
import Inlay.Template.Tag
import Inlay.Text.Quoted

/-!
# Replacement along the scan

Replacement reads a text from the left, as hits and single kept characters.
A character that the old text does not have cuts the scan in two, and a
replacement whose texts have nothing that tags are made of leaves searching,
trimming and taking words alone.
-/

namespace Inlay.Text

/-! ## Decisions along a text

What all characters of a text have is decided along the text, and not for
every character that there is.
-/

instance (p : Char → Prop) [DecidablePred p] (s : Text) : Decidable (∀ c ∈ s, p c) :=
  List.decidableBAll p s

instance (p : Char → Prop) [DecidablePred p] (o : Option Char) : Decidable (∀ c ∈ o, p c) :=
  Option.decidableForallMem o

variable {old new : Text}

/-! ## The scan -/

/-- Along the scan of a replacement a text is empty, an occurrence before a
text, or a character that starts no occurrence before a text. -/
@[elab_as_elim]
theorem replaceInduction (hold : old ≠ []) {motive : Text → Prop} (nil : motive [])
    (hit : ∀ s, motive s → motive (old ++ s))
    (miss : ∀ c s, after? old (c :: s) = none → motive s → motive (c :: s)) (s : Text) :
    motive s := by
  induction hn : s.length using Nat.strong_induction_on generalizing s with
  | _ n ih =>
      cases hs : after? old s with
      | some rest =>
          have hlen := length_of_after? hs
          have hpos := List.length_pos_iff.mpr hold
          rw [eq_append_of_after? hs]
          exact hit rest (ih rest.length (by omega) rest rfl)
      | none =>
          cases s with
          | nil => exact nil
          | cons c s => exact miss c s hs (ih s.length (by simp [← hn]) s rfl)

theorem after?_append_cons {mark : Text} {c : Char} (hc : c ∉ mark) (s t : Text) :
    after? mark (s ++ c :: t) = (after? mark s).map (· ++ c :: t) := by
  induction mark generalizing s with
  | nil => simp
  | cons m mark ih =>
      obtain ⟨hm, hmark⟩ := not_or.mp (List.mem_cons.not.mp hc)
      cases s with
      | nil => simp [after?, Ne.symm hm]
      | cons d s =>
          by_cases hd : m = d
          · simp [after?, hd, ih hmark]
          · simp [after?, hd]

/-- A character that the old text does not have cuts the scan in two. -/
theorem replace_append_cons (hold : old ≠ []) {c : Char} (hc : c ∉ old) (s t : Text) :
    replace old new (s ++ c :: t) = replace old new s ++ c :: replace old new t := by
  induction s using replaceInduction hold with
  | nil =>
      have hnone : after? old (c :: t) = none := by
        have h := after?_append_cons hc [] t
        cases old with
        | nil => exact absurd rfl hold
        | cons a old => simpa [after?] using h
      rw [List.nil_append, replace_cons hnone, replace_nil hold, List.nil_append]
  | hit s ih =>
      rw [List.append_assoc, replace_append hold, replace_append hold, ih, List.append_assoc]
  | miss d s hd ih =>
      have hnone : after? old (d :: (s ++ c :: t)) = none := by
        rw [← List.cons_append, after?_append_cons hc, hd, Option.map_none]
      rw [List.cons_append, replace_cons hnone, replace_cons hd, ih, List.cons_append]

theorem replace_cons_of_not_mem (hold : old ≠ []) {c : Char} (hc : c ∉ old) (t : Text) :
    replace old new (c :: t) = c :: replace old new t := by
  have h : replace old new ([] ++ c :: t) = replace old new [] ++ c :: replace old new t :=
    replace_append_cons hold hc [] t
  simpa [replace_nil hold] using h

/-- Characters that the old text does not have are kept. -/
theorem replace_append_of_disjoint (hold : old ≠ []) {x : Text} (hx : ∀ c ∈ x, c ∉ old)
    (s : Text) : replace old new (x ++ s) = x ++ replace old new s := by
  induction x with
  | nil => rfl
  | cons c x ih =>
      rw [List.cons_append, replace_cons_of_not_mem hold (hx c (by simp)),
        ih fun d hd => hx d (List.mem_cons_of_mem _ hd), List.cons_append]

theorem replace_of_disjoint (hold : old ≠ []) {x : Text} (hx : ∀ c ∈ x, c ∉ old) :
    replace old new x = x := by
  have h : replace old new (x ++ []) = x ++ replace old new [] :=
    replace_append_of_disjoint hold hx []
  simpa [replace_nil hold] using h

theorem replace_append_right_of_disjoint (hold : old ≠ []) {x : Text} (hx : ∀ c ∈ x, c ∉ old)
    (s : Text) : replace old new (s ++ x) = replace old new s ++ x := by
  cases x with
  | nil => simp
  | cons c x =>
      rw [replace_append_cons hold (hx c (by simp)),
        replace_of_disjoint hold fun d hd => hx d (List.mem_cons_of_mem _ hd)]

/-- No occurrence starts in a text without the first character of the old
text. -/
theorem replace_append_of_head {a : Char} {x : Text} (hx : a ∉ x) (s : Text) :
    replace (a :: old) new (x ++ s) = x ++ replace (a :: old) new s := by
  induction x with
  | nil => rfl
  | cons c x ih =>
      obtain ⟨hc, hx⟩ := not_or.mp (List.mem_cons.not.mp hx)
      have hnone : after? (a :: old) (c :: (x ++ s)) = none := by simp [after?, hc]
      rw [List.cons_append, replace_cons hnone, ih hx, List.cons_append]

/-- Where the old text does not occur nothing is replaced, and else the new
text occurs in the result. -/
theorem replace_eq_self_or_isInfix (hold : old ≠ []) (s : Text) :
    (¬ old <:+: s ∧ replace old new s = s) ∨ (old <:+: s ∧ new <:+: replace old new s) := by
  induction s using replaceInduction hold with
  | nil => exact .inl ⟨fun h => hold (List.eq_nil_of_infix_nil h), replace_nil hold⟩
  | hit s ih =>
      rw [replace_append hold]
      exact .inr ⟨⟨[], s, by simp⟩, ⟨[], replace old new s, by simp⟩⟩
  | miss c s hc ih =>
      rw [replace_cons hc]
      rcases ih with ⟨hno, hs⟩ | ⟨hin, hs⟩
      · refine .inl ⟨fun h => ?_, by rw [hs]⟩
        rcases List.infix_cons_iff.mp h with ⟨rest, hrest⟩ | h
        · rw [← hrest, after?_append] at hc
          simp at hc
        · exact hno h
      · exact .inr ⟨List.infix_cons hin, List.infix_cons hs⟩

theorem replace_of_not_infix (hold : old ≠ []) {s : Text} (h : ¬ old <:+: s) :
    replace old new s = s :=
  (replace_eq_self_or_isInfix hold s).elim And.right fun hs => absurd hs.1 h

theorem length_replace_le (hold : old ≠ []) {k : Nat} (hk : 1 ≤ k)
    (hlen : new.length ≤ k * old.length) (s : Text) :
    (replace old new s).length ≤ k * s.length := by
  induction s using replaceInduction hold with
  | nil => simp [replace_nil hold]
  | hit s ih =>
      rw [replace_append hold, List.length_append, List.length_append, Nat.mul_add]
      omega
  | miss c s hc ih =>
      rw [replace_cons hc, List.length_cons, List.length_cons, Nat.mul_add]
      omega

theorem replace_eq_nil_iff (hold : old ≠ []) (hnew : new ≠ []) {s : Text} :
    replace old new s = [] ↔ s = [] := by
  induction s using replaceInduction hold with
  | nil => simp [replace_nil hold]
  | hit s ih => simp [replace_append hold, hold, hnew]
  | miss c s hc ih => simp [replace_cons hc]

/-! ## Characters written as more than one -/

/-- A mark is found alike where other characters are written as something else. -/
theorem after?_flatMap {g : Char → Text} {mark : Text} (hmark : ∀ c ∈ mark, g c = [c])
    (hg : ∀ c, g c = [c] ∨ g c ≠ [] ∧ ∀ d ∈ g c, d ∉ mark) (s : Text) :
    after? mark (s.flatMap g) = (after? mark s).map (·.flatMap g) := by
  induction mark generalizing s with
  | nil => simp
  | cons m mark ih =>
      obtain ⟨hm, hmark⟩ := List.forall_mem_cons.mp hmark
      have hg' : ∀ c, g c = [c] ∨ g c ≠ [] ∧ ∀ d ∈ g c, d ∉ mark := fun c =>
        (hg c).imp_right (And.imp_right fun h d hd hmem => h d hd (List.mem_cons_of_mem m hmem))
      cases s with
      | nil => rfl
      | cons c s =>
          rw [List.flatMap_cons]
          rcases hg c with hc | ⟨hne, hc⟩
          · rw [hc, List.singleton_append, after?, after?, ih hmark hg']
            split <;> rfl
          · obtain ⟨d, u, hd⟩ := List.exists_cons_of_ne_nil hne
            have hmd : m ≠ d := by
              rintro rfl
              exact hc m (hd ▸ List.mem_cons_self) List.mem_cons_self
            have hmc : m ≠ c := by
              rintro rfl
              exact hc m (hm ▸ List.mem_cons_self) List.mem_cons_self
            rw [hd, List.cons_append, after?, if_neg hmd, after?, if_neg hmc, Option.map_none]

/-- A replacement can be made before or after other characters are written as something else. -/
theorem replace_flatMap {g : Char → Text} (hne : old ≠ []) (hold : ∀ c ∈ old, g c = [c])
    (hnew : ∀ c ∈ new, g c = [c]) (hg : ∀ c, g c = [c] ∨ g c ≠ [] ∧ ∀ d ∈ g c, d ∉ old) (s : Text) :
    replace old new (s.flatMap g) = (replace old new s).flatMap g := by
  have hself : ∀ x : Text, (∀ c ∈ x, g c = [c]) → x.flatMap g = x := by
    intro x hx
    rw [List.flatMap_congr hx, List.flatMap_singleton']
  induction s using replaceInduction hne with
  | nil => rw [List.flatMap_nil, replace_nil hne, List.flatMap_nil]
  | hit s ih =>
      rw [List.flatMap_append, hself old hold, replace_append hne, ih, replace_append hne,
        List.flatMap_append, hself new hnew]
  | miss c s hc ih =>
      rw [replace_cons hc, List.flatMap_cons, List.flatMap_cons]
      rcases hg c with hkeep | ⟨-, hdisjoint⟩
      · have hnone : after? old (c :: s.flatMap g) = none := by
          have h := after?_flatMap hold hg (c :: s)
          rwa [hc, Option.map_none, List.flatMap_cons, hkeep] at h
        rw [hkeep, List.singleton_append, replace_cons hnone, ih, List.singleton_append]
      · rw [replace_append_of_disjoint hne hdisjoint, ih]

theorem replace_escape (hne : old ≠ []) (hold : '\\' ∉ old) (hnew : '\\' ∉ new) (s : Text) :
    replace old new s.escape = (replace old new s).escape := by
  refine replace_flatMap hne (fun c hc => if_neg ?_) (fun c hc => if_neg ?_) (fun c => ?_) s
  · rintro rfl
    exact hold hc
  · rintro rfl
    exact hnew hc
  · by_cases hc : c = '\\'
    · refine .inr ⟨by simp [hc], fun d hd => ?_⟩
      obtain rfl : d = '\\' := by simpa [hc] using hd
      exact hold
    · exact .inl (if_neg hc)

theorem replace_quote (hne : old ≠ []) (hold : '\'' ∉ old) (hslash : '\\' ∉ old) (hnew : '\'' ∉ new)
    (s : Text) : replace old new s.quote = (replace old new s).quote := by
  refine replace_flatMap hne (fun c hc => if_neg ?_) (fun c hc => if_neg ?_) (fun c => ?_) s
  · rintro rfl
    exact hold hc
  · rintro rfl
    exact hnew hc
  · by_cases hc : c = '\''
    · refine .inr ⟨by simp [hc], fun d hd => ?_⟩
      have hd : d = '\\' ∨ d = '\'' := by simpa [hc] using hd
      rcases hd with rfl | rfl
      · exact hslash
      · exact hold
    · exact .inl (if_neg hc)

end Inlay.Text
