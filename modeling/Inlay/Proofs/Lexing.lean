import Inlay.Callable
import Inlay.Proofs.CallNames
import Inlay.Proofs.Indentation
import Inlay.Proofs.Masking

/-!
# Lexing generated code

Generated code is a sequence of marks and of single-quoted literals, where a
backslash stands before an apostrophe or a backslash only. A lexer is inside
or outside of a literal, so the code that is spliced into a literal is read
from inside to inside. What it learns on the way are the names of the calls
to units. The passes over the code of a callable keep it readable: they work
inside of literals, at the marks of the header of a callable, or take out an
expression with the apostrophes around it.
-/

namespace Inlay

namespace Text

/-! ## Text that protects itself -/

/-- No character needs a backslash in a literal. -/
def Bare (s : Text) : Prop :=
  ∀ c ∈ s, c ≠ '\'' ∧ c ≠ '\\'

instance (s : Text) : Decidable s.Bare :=
  inferInstanceAs (Decidable (∀ c ∈ s, c ≠ '\'' ∧ c ≠ '\\'))

variable {s old new : Text}

theorem Bare.protect_eq (h : s.Bare) : s.protect = s := by
  induction s with
  | nil => rfl
  | cons c s ih =>
      obtain ⟨⟨hquote, hslash⟩, hs⟩ := List.forall_mem_cons.mp h
      rw [protect_cons, protect_singleton hslash hquote, ih hs, List.singleton_append]

/-- The replacement of one bare text by another one can be made before or after protection. -/
theorem replace_protect (hne : old ≠ []) (hold : old.Bare) (hnew : new.Bare) (s : Text) :
    replace old new s.protect = (replace old new s).protect := by
  have hquote : '\'' ∉ old ∧ '\'' ∉ new := ⟨fun h => (hold _ h).1 rfl, fun h => (hnew _ h).1 rfl⟩
  have hslash : '\\' ∉ old ∧ '\\' ∉ new := ⟨fun h => (hold _ h).2 rfl, fun h => (hnew _ h).2 rfl⟩
  rw [protect, replace_quote hne hquote.1 hslash.1 hquote.2, replace_escape hne hslash.1 hslash.2]
  rfl

end Text

namespace Target

open Text

/-- What stands between the literals of generated code. -/
def marks : List Text :=
  ["function", "return", "use", "LR::pb", "LR::p($cx, $in[", "$cx", "$in", "$sp", "=>", " ", ".", ",",
    ";", "(", ")", "[", "]", "\x7b", "\x7d"].map String.toList

/-- What comes before the name in a call to a unit. -/
def beforeName : Text :=
  "LR::p($cx, '".toList

/-- What comes after the literal of the name in a call to a unit. -/
def valueArgument : Text :=
  ", $in".toList

/-- The start of a call to a unit, up to the value that the unit gets. -/
def callStart (name : Text) : Text :=
  beforeName ++ (name.protect ++ '\'' :: valueArgument)

theorem length_lt_call (name s : Text) : s.length < (callStart name ++ s).length := by
  have hbefore : beforeName.length = 12 := by decide
  rw [callStart, List.length_append, List.length_append, hbefore]
  omega

theorem head_of_mark : ∀ w ∈ marks, w ≠ [] ∧ w.head? ≠ some '\'' ∧ w.head? ≠ some '!' := by
  decide +kernel

/-- Where a mark ends can be told from its characters. -/
theorem marks_apart : ∀ w ∈ marks, ∀ w' ∈ marks, w <+: w' → w = w' := by
  decide +kernel

theorem mark_apart_call : ∀ w ∈ marks,
    ¬ w <+: beforeName ∧ ¬ beforeName <+: w := by
  decide +kernel

/-- The lexer goes over the text from inside or outside of a literal to inside or outside of one,
and meets calls with these names. -/
inductive Lexes : Bool → Text → List Text → Bool → Prop
  | done (inside : Bool) : Lexes inside [] [] inside
  | char {c s names inside} : c ≠ '\'' → c ≠ '\\' →
      Lexes true s names inside → Lexes true (c :: s) names inside
  | escaped {c s names inside} : c = '\'' ∨ c = '\\' →
      Lexes true s names inside → Lexes true ('\\' :: c :: s) names inside
  | close {s names inside} : Lexes false s names inside → Lexes true ('\'' :: s) names inside
  | quote {s names inside} : Lexes true s names inside → Lexes false ('\'' :: s) names inside
  | mark {w s names inside} : w ∈ marks →
      Lexes false s names inside → Lexes false (w ++ s) names inside
  | call {name s names inside} :
      Lexes false s names inside → Lexes false (callStart name ++ s) (name :: names) inside

/-! ## Parts of code -/

namespace Lexes

variable {a b c : Bool} {s t : Text} {names others : List Text}

theorem append (h : Lexes a s names b) (h' : Lexes b t others c) :
    Lexes a (s ++ t) (names ++ others) c := by
  induction h with
  | done => exact h'
  | char hquote hslash _ ih => exact .char hquote hslash (ih h')
  | escaped hc _ ih => exact .escaped hc (ih h')
  | close _ ih => exact .close (ih h')
  | quote _ ih => exact .quote (ih h')
  | mark hw _ ih =>
      rw [List.append_assoc]
      exact .mark hw (ih h')
  | call _ ih =>
      rw [List.append_assoc]
      exact .call (ih h')

/-- Text without apostrophes and backslashes stays inside a literal. -/
theorem bare_append {x : Text} (hx : x.Bare) (h : Lexes true s names b) :
    Lexes true (x ++ s) names b := by
  induction x with
  | nil => exact h
  | cons d x ih =>
      obtain ⟨⟨hquote, hslash⟩, hx⟩ := List.forall_mem_cons.mp hx
      exact .char hquote hslash (ih hx)

theorem protect (value : Text) : Lexes true value.protect [] true := by
  induction value with
  | nil => exact .done true
  | cons d value ih =>
      rw [protect_cons]
      by_cases hslash : d = '\\'
      · subst hslash
        exact .escaped (.inr rfl) ih
      · by_cases hquote : d = '\''
        · subst hquote
          exact .escaped (.inl rfl) ih
        · rw [protect_singleton hslash hquote]
          exact .char hquote hslash ih

theorem quoted (value : Text) : Lexes false (quoted value) [] false :=
  .quote ((protect value).append (.close (.done false)))

/-- A sequence of marks. -/
theorem flatten {ws : List Text} (hws : ∀ w ∈ ws, w ∈ marks) : Lexes false ws.flatten [] false := by
  induction ws with
  | nil => exact .done false
  | cons w ws ih =>
      obtain ⟨hw, hws⟩ := List.forall_mem_cons.mp hws
      exact .mark hw (ih hws)

/-! ## What comes next -/

/-- Inside of a literal comes the end, a character, an escaped one or the end of the literal. -/
theorem inside_cases (h : Lexes true t names b) :
    (t = [] ∧ names = [] ∧ b = true) ∨
    (∃ d s, t = d :: s ∧ d ≠ '\'' ∧ d ≠ '\\' ∧ Lexes true s names b) ∨
    (∃ d s, t = '\\' :: d :: s ∧ (d = '\'' ∨ d = '\\') ∧ Lexes true s names b) ∨
    ∃ s, t = '\'' :: s ∧ Lexes false s names b := by
  generalize ha : true = a at h
  cases h with
  | done => exact .inl ⟨rfl, rfl, rfl⟩
  | char hquote hslash h => exact .inr (.inl ⟨_, _, rfl, hquote, hslash, h⟩)
  | escaped hd h => exact .inr (.inr (.inl ⟨_, _, rfl, hd, h⟩))
  | close h => exact .inr (.inr (.inr ⟨_, rfl, h⟩))
  | quote => cases ha
  | mark => cases ha
  | call => cases ha

/-- Outside of literals comes the end, a literal, a mark or a call. -/
theorem outside_cases (h : Lexes false t names b) :
    (t = [] ∧ names = [] ∧ b = false) ∨
    (∃ s, t = '\'' :: s ∧ Lexes true s names b) ∨
    (∃ w ∈ marks, ∃ s, t = w ++ s ∧ Lexes false s names b) ∨
    ∃ name s rest, t = callStart name ++ s ∧ names = name :: rest ∧ Lexes false s rest b := by
  generalize ha : false = a at h
  cases h with
  | done => exact .inl ⟨rfl, rfl, rfl⟩
  | quote h => exact .inr (.inl ⟨_, rfl, h⟩)
  | mark hw h => exact .inr (.inr (.inl ⟨_, hw, _, rfl, h⟩))
  | call h => exact .inr (.inr (.inr ⟨_, _, _, rfl, rfl, h⟩))
  | char => cases ha
  | escaped => cases ha
  | close => cases ha

theorem of_char {d : Char} (hquote : d ≠ '\'') (hslash : d ≠ '\\') (h : Lexes true (d :: s) names b) :
    Lexes true s names b := by
  rcases h.inside_cases with ⟨ht, -⟩ | ⟨e, u, ht, -, -, hu⟩ | ⟨e, u, ht, -, -⟩ | ⟨u, ht, -⟩
  · cases ht
  · obtain ⟨rfl, rfl⟩ := List.cons.inj ht
    exact hu
  · exact absurd (List.cons.inj ht).1 hslash
  · exact absurd (List.cons.inj ht).1 hquote

theorem of_bare_append {x : Text} (hx : x.Bare) (h : Lexes true (x ++ s) names b) :
    Lexes true s names b := by
  induction x with
  | nil => exact h
  | cons d x ih =>
      obtain ⟨⟨hquote, hslash⟩, hx⟩ := List.forall_mem_cons.mp hx
      exact ih hx (of_char hquote hslash h)

theorem of_close (h : Lexes true ('\'' :: s) names b) : Lexes false s names b := by
  rcases h.inside_cases with ⟨ht, -⟩ | ⟨e, u, ht, hquote, -, -⟩ | ⟨e, u, ht, -, -⟩ | ⟨u, ht, hu⟩
  · cases ht
  · exact absurd (List.cons.inj ht).1.symm hquote
  · exact absurd (List.cons.inj ht).1 (by decide)
  · obtain ⟨-, rfl⟩ := List.cons.inj ht
    exact hu

/-- What starts with none of the characters that start marks, literals and calls is not code. -/
theorem head_cases {d : Char} (h : Lexes false (d :: s) names b) :
    d = '\'' ∧ Lexes true s names b ∨ (∃ w, d :: w ∈ marks ∧ ∃ u, s = w ++ u ∧ Lexes false u names b) ∨
      d = 'L' := by
  rcases h.outside_cases with ⟨ht, -⟩ | ⟨u, ht, hu⟩ | ⟨w, hw, u, ht, hu⟩ | ⟨name, u, rest, ht, -, -⟩
  · cases ht
  · obtain ⟨hd, rfl⟩ := List.cons.inj ht
    exact .inl ⟨hd, hu⟩
  · have hne : ∀ w ∈ marks, w ≠ [] := by decide
    obtain ⟨e, w, rfl⟩ := List.exists_cons_of_ne_nil (hne w hw)
    obtain ⟨rfl, rfl⟩ := List.cons.inj ht
    exact .inr (.inl ⟨w, hw, u, rfl, hu⟩)
  · exact .inr (.inr (List.cons.inj ht).1)

theorem of_mark {w : Text} (hw : w ∈ marks) (h : Lexes false (w ++ s) names b) :
    Lexes false s names b := by
  obtain ⟨d, v, rfl⟩ := List.exists_cons_of_ne_nil (head_of_mark w hw).1
  rcases h.outside_cases with ⟨ht, -⟩ | ⟨u, ht, -⟩ | ⟨w', hw', u, ht, hu⟩ | ⟨name, u, rest, ht, -, -⟩
  · cases ht
  · obtain ⟨rfl, -⟩ := List.cons.inj ht
    exact absurd rfl (head_of_mark _ hw).2.1
  · rcases List.append_eq_append_iff.mp ht with ⟨x, hx, hs⟩ | ⟨x, hx, hu'⟩
    · rw [← marks_apart _ hw w' hw' ⟨x, hx.symm⟩] at hx
      rw [hs, List.self_eq_append_right.mp hx]
      exact hu
    · rw [← marks_apart w' hw' _ hw ⟨x, hx.symm⟩] at hx
      rw [hu', List.self_eq_append_right.mp hx] at hu
      exact hu
  · rw [callStart, List.append_assoc] at ht
    rcases List.append_eq_append_iff.mp ht with ⟨x, hx, -⟩ | ⟨x, hx, -⟩
    · exact absurd ⟨x, hx.symm⟩ (mark_apart_call _ hw).1
    · exact absurd ⟨x, hx.symm⟩ (mark_apart_call _ hw).2

theorem of_quote (h : Lexes false ('\'' :: s) names b) : Lexes true s names b := by
  rcases h.head_cases with ⟨-, h⟩ | ⟨w, hw, -⟩ | hd
  · exact h
  · exact absurd rfl (head_of_mark _ hw).2.1
  · cases hd

theorem not_bang : ¬ Lexes false ('!' :: s) names b := by
  intro h
  rcases h.head_cases with ⟨hd, -⟩ | ⟨w, hw, -⟩ | hd
  · cases hd
  · exact absurd rfl (head_of_mark _ hw).2.2
  · cases hd

theorem of_escaped {d : Char} (h : Lexes true ('\\' :: d :: s) names b) : Lexes true s names b := by
  rcases h.inside_cases with ⟨ht, -⟩ | ⟨e, u, ht, -, hslash, -⟩ | ⟨e, u, ht, -, hu⟩ | ⟨u, ht, -⟩
  · cases ht
  · exact absurd (List.cons.inj ht).1.symm hslash
  · obtain ⟨-, rfl⟩ := List.cons.inj (List.cons.inj ht).2
    exact hu
  · exact absurd (List.cons.inj ht).1 (by decide)

theorem of_call {name : Text} (h : Lexes false (callStart name ++ s) names b) :
    ∃ rest, names = name :: rest ∧ Lexes false s rest b := by
  rcases h.outside_cases with ⟨ht, -⟩ | ⟨u, ht, -⟩ | ⟨w, hw, u, ht, -⟩ | ⟨other, u, rest, ht, hrest, hu⟩
  · cases ht
  · cases ht
  · rw [callStart, List.append_assoc] at ht
    rcases List.append_eq_append_iff.mp ht with ⟨x, hx, -⟩ | ⟨x, hx, -⟩
    · exact absurd ⟨x, hx.symm⟩ (mark_apart_call w hw).2
    · exact absurd ⟨x, hx.symm⟩ (mark_apart_call w hw).1
  · simp only [callStart, List.append_assoc] at ht
    obtain ⟨rfl, hs⟩ := protect_append_inj (List.append_cancel_left ht)
    obtain rfl := List.append_cancel_left hs
    exact ⟨rest, hrest, hu⟩

theorem of_nil (h : Lexes a [] names b) : names = [] ∧ b = a := by
  cases a with
  | true => rcases h.inside_cases with ⟨-, hnames⟩ | ⟨_, _, ht, -⟩ | ⟨_, _, ht, -⟩ | ⟨_, ht, -⟩
            · exact hnames
            · cases ht
            · cases ht
            · cases ht
  | false =>
      rcases h.outside_cases with ⟨-, hnames⟩ | ⟨_, ht, -⟩ | ⟨w, hw, _, ht, -⟩ | ⟨_, _, _, ht, -⟩
      · exact hnames
      · cases ht
      · exact absurd (List.append_eq_nil_iff.mp ht.symm).1 (head_of_mark w hw).1
      · cases ht

/-- The lexer has no choice: it is over a part of the code before it comes to the rest. -/
theorem of_append (h : Lexes a s names b) (h' : Lexes a (s ++ t) others c) :
    ∃ rest, others = names ++ rest ∧ Lexes b t rest c := by
  induction h generalizing others with
  | done => exact ⟨others, rfl, h'⟩
  | char hquote hslash _ ih => exact ih (of_char hquote hslash h')
  | escaped _ _ ih => exact ih (of_escaped h')
  | close _ ih => exact ih (of_close h')
  | quote _ ih => exact ih (of_quote h')
  | mark hw _ ih =>
      rw [List.append_assoc] at h'
      exact ih (h'.of_mark hw)
  | call _ ih =>
      rw [List.append_assoc] at h'
      obtain ⟨more, rfl, hmore⟩ := h'.of_call
      obtain ⟨rest, rfl, hrest⟩ := ih hmore
      exact ⟨rest, rfl, hrest⟩

theorem unique (h : Lexes a s names b) (h' : Lexes a s others c) : others = names ∧ c = b := by
  rw [← List.append_nil s] at h'
  obtain ⟨rest, rfl, hrest⟩ := h.of_append h'
  obtain ⟨rfl, rfl⟩ := hrest.of_nil
  exact ⟨List.append_nil names, rfl⟩

/-! ## Passes over the code of a callable -/

theorem newline_not_mem_callStart {name : Text} (hname : '\n' ∉ name) : '\n' ∉ callStart name := by
  have hbefore : '\n' ∉ beforeName := by decide
  have hvalue : '\n' ∉ valueArgument := by decide
  have hprotect : '\n' ∉ name.protect :=
    fun hmem => hname (mem_of_mem_escape (mem_of_mem_quote (by decide) hmem))
  simp [callStart, hbefore, hvalue, hprotect]

/-- Newlines are in literals only. What is put after them is read there. -/
theorem indentBreaks {w : Text} (hw : Lexes true w [] true) (h : Lexes a s names b)
    (hnames : ∀ name ∈ names, '\n' ∉ name) : Lexes a (indentBreaks w s) names b := by
  have hmarks : ∀ w ∈ marks, '\n' ∉ w := by decide +kernel
  have hcons : ∀ {d : Char} (s : Text), d ≠ '\n' →
      Text.indentBreaks w (d :: s) = d :: Text.indentBreaks w s := fun s hd =>
    indentBreaks_append_of_not_mem w (List.mem_singleton.not.mpr hd.symm) s
  induction h with
  | done => exact .done _
  | @char d s names b hquote hslash h ih =>
      by_cases hd : d = '\n'
      · subst hd
        -- a newline at the end of the code is followed by no line
        by_cases hs : s = []
        · subst hs
          exact .char hquote hslash h
        · rw [indentBreaks_cons w hs, indentAll_newline]
          exact .char hquote hslash (hw.append (ih hnames))
      · rw [hcons s hd]
        exact .char hquote hslash (ih hnames)
  | @escaped d s names b hd _ ih =>
      have hne : d ≠ '\n' := by
        rcases hd with rfl | rfl <;> decide
      rw [hcons _ (by decide), hcons s hne]
      exact .escaped hd (ih hnames)
  | close _ ih =>
      rw [hcons _ (by decide)]
      exact .close (ih hnames)
  | quote _ ih =>
      rw [hcons _ (by decide)]
      exact .quote (ih hnames)
  | mark hmark _ ih =>
      rw [indentBreaks_append_of_not_mem w (hmarks _ hmark)]
      exact .mark hmark (ih hnames)
  | call _ ih =>
      obtain ⟨hname, hnames⟩ := List.forall_mem_cons.mp hnames
      rw [indentBreaks_append_of_not_mem w (newline_not_mem_callStart hname)]
      exact .call (ih hnames)

theorem replace_callStart {old new : Text} (hold : Bare ('!' :: old)) (hnew : new.Bare)
    (name s : Text) :
    Text.replace ('!' :: old) new (callStart name ++ s) =
      callStart (Text.replace ('!' :: old) new name) ++ Text.replace ('!' :: old) new s := by
  have hne : '!' :: old ≠ [] := List.cons_ne_nil _ _
  have hquote : '\'' ∉ '!' :: old := fun hmem => (hold _ hmem).1 rfl
  have hbefore : '!' ∉ beforeName := by decide
  have hvalue : '!' ∉ valueArgument := by decide
  simp only [callStart, List.append_assoc, List.cons_append]
  rw [replace_append_of_head hbefore, replace_append_cons hne hquote, replace_protect hne hold hnew,
    replace_append_of_head hvalue]

/-- A text that starts with an exclamation mark is in literals only, and so is replaced there. -/
theorem replace {old new : Text} (hold : Bare ('!' :: old)) (hnew : new.Bare)
    (h : Lexes a s names b) :
    Lexes a (Text.replace ('!' :: old) new s) (names.map (Text.replace ('!' :: old) new)) b := by
  have hne : '!' :: old ≠ [] := List.cons_ne_nil _ _
  have hmarks : ∀ w ∈ marks, '!' ∉ w := by decide +kernel
  induction hn : s.length using Nat.strong_induction_on generalizing a s names with
  | _ n ih =>
      subst hn
      cases h with
      | done =>
          rw [replace_nil hne]
          exact .done _
      | @char d s _ _ hquote hslash h =>
          cases hs : after? ('!' :: old) (d :: s) with
          | some rest =>
              have heq := eq_append_of_after? hs
              have hlen := congrArg List.length heq
              have hrest := of_bare_append hold (heq ▸ Lexes.char hquote hslash h)
              rw [heq, replace_append hne]
              refine bare_append hnew (ih rest.length ?_ hrest rfl)
              simp only [List.length_append, List.length_cons] at hlen ⊢
              omega
          | none =>
              rw [replace_cons hs]
              exact .char hquote hslash (ih s.length (by simp) h rfl)
      | @escaped d s _ _ hd h =>
          have hfirst : after? ('!' :: old) ('\\' :: d :: s) = none := rfl
          have hsecond : after? ('!' :: old) (d :: s) = none := by
            rcases hd with rfl | rfl <;> rfl
          rw [replace_cons hfirst, replace_cons hsecond]
          exact .escaped hd (ih s.length (by simp only [List.length_cons]; omega) h rfl)
      | @close s _ _ h =>
          have hnone : after? ('!' :: old) ('\'' :: s) = none := rfl
          rw [replace_cons hnone]
          exact .close (ih s.length (by simp) h rfl)
      | @quote s _ _ h =>
          have hnone : after? ('!' :: old) ('\'' :: s) = none := rfl
          rw [replace_cons hnone]
          exact .quote (ih s.length (by simp) h rfl)
      | @mark w s _ _ hw h =>
          have hpos := List.length_pos_iff.mpr (head_of_mark w hw).1
          rw [replace_append_of_head (hmarks w hw)]
          refine .mark hw (ih s.length ?_ h rfl)
          rw [List.length_append]
          omega
      | @call name s names _ h =>
          rw [replace_callStart hold hnew]
          exact .call (ih s.length (length_lt_call name s) h rfl)

/-! ### Margins before code that indents itself -/

/-- The margin and the mark after it. -/
def ledMark : Text :=
  Fragments.standard.splice Callable.indentParameter ++ Callable.selfIndented

theorem ledMark_eq :
    ledMark = '\'' :: (".$sp.".toList ++ '\'' :: Callable.selfIndented) := by
  decide

theorem bare_selfIndented : Callable.selfIndented.Bare := by
  decide

/-- The margin does not start where a literal starts, and not with an escaped apostrophe. -/
theorem after?_ledMark (h : Lexes true s names b) : after? ledMark ('\'' :: s) = none := by
  by_contra hne
  obtain ⟨rest, hrest⟩ := Option.ne_none_iff_exists'.mp hne
  have heq := eq_append_of_after? hrest
  rw [ledMark_eq, List.cons_append, List.append_assoc, List.cons_append] at heq
  rw [(List.cons.inj heq).2] at h
  have hmargin : Bare ".$sp.".toList := by decide
  exact (of_bare_append hmargin h).of_close.not_bang

/-- Behind the margin the lexer is where it was before. -/
theorem of_ledMark {rest : Text} (h : Lexes false s names b)
    (hs : after? ledMark ('\'' :: s) = some rest) : Lexes true rest names b := by
  have hmarks : [['.'], "$sp".toList, ['.']] ⊆ marks := by decide +kernel
  obtain ⟨hstop, hparameter⟩ : ['.'] ∈ marks ∧ "$sp".toList ∈ marks :=
    ⟨hmarks (by simp), hmarks (by simp)⟩
  have heq := eq_append_of_after? hs
  rw [ledMark_eq, List.cons_append, List.append_assoc, List.cons_append] at heq
  rw [(List.cons.inj heq).2] at h
  have hafter := ((h.of_mark hstop).of_mark (w := "$sp".toList) hparameter).of_mark hstop
  exact of_bare_append bare_selfIndented hafter.of_quote

theorem replace_ledMark_cons {d : Char} (hd : d ≠ '\'') (u : Text) :
    Text.replace ledMark [] (d :: u) = d :: Text.replace ledMark [] u := by
  refine replace_cons ?_
  rw [ledMark_eq, after?, if_neg hd.symm]

theorem replace_ledMark_append {x : Text} (hx : '\'' ∉ x) (u : Text) :
    Text.replace ledMark [] (x ++ u) = x ++ Text.replace ledMark [] u := by
  rw [ledMark_eq]
  exact replace_append_of_head hx u

theorem replace_ledMark_protect {name t : Text} (h : Lexes true (name.protect ++ t) names b) :
    Text.replace ledMark [] (name.protect ++ t) = name.protect ++ Text.replace ledMark [] t := by
  induction name with
  | nil => rfl
  | cons d name ih =>
      rw [protect_cons, List.append_assoc] at h ⊢
      by_cases hslash : d = '\\'
      · subst hslash
        have hrest : Lexes true (Text.protect name ++ t) names b := of_escaped h
        rw [replace_ledMark_append (by decide), ih hrest, List.append_assoc]
      · by_cases hquote : d = '\''
        · subst hquote
          have hrest : Lexes true (Text.protect name ++ t) names b := of_escaped h
          simp only [protect_apostrophe, List.cons_append, List.nil_append]
          rw [replace_ledMark_cons (by decide), replace_cons (after?_ledMark hrest), ih hrest]
        · rw [protect_singleton hslash hquote, List.singleton_append] at h ⊢
          rw [replace_ledMark_cons hquote, ih (of_char hquote hslash h)]
          rfl

/-- The literal of a name has no margin to take out, and none starts behind it. -/
theorem replace_ledMark_call (name : Text) (h : Lexes false s names b) :
    Text.replace ledMark [] (callStart name ++ s) = callStart name ++ Text.replace ledMark [] s := by
  have hbefore : beforeName = beforeName.dropLast ++ ['\''] := by decide
  have hhead : '\'' ∉ beforeName.dropLast := by decide
  have hvalue : Lexes false valueArgument [] false := by
    have hmarks : ∀ w ∈ [[','], [' '], "$in".toList], w ∈ marks := by decide +kernel
    exact flatten hmarks
  have hname := (protect name).append (.close (hvalue.append h))
  have hnone : after? ledMark ('\'' :: (valueArgument ++ s)) = none := by
    have hcomma : valueArgument = ',' :: valueArgument.tail := by decide
    rw [ledMark_eq, hcomma]
    rfl
  simp only [callStart, List.append_assoc, List.cons_append]
  rw [hbefore, List.append_assoc, List.append_assoc, replace_ledMark_append hhead,
    List.singleton_append, replace_cons (after?_ledMark hname), replace_ledMark_protect hname,
    replace_cons hnone, replace_ledMark_append (by decide)]
  rfl

/-- The margins that go are expressions between literals. -/
theorem replace_ledMark (h : Lexes a s names b) :
    Lexes a (Text.replace ledMark [] s) names b := by
  have hne : ledMark ≠ [] := by decide
  have hmarks : ∀ w ∈ marks, '\'' ∉ w := by decide +kernel
  induction hn : s.length using Nat.strong_induction_on generalizing a s names with
  | _ n ih =>
      subst hn
      cases h with
      | done =>
          rw [replace_nil hne]
          exact .done _
      | @char d s _ _ hquote hslash h =>
          rw [replace_ledMark_cons hquote]
          exact .char hquote hslash (ih s.length (by simp) h rfl)
      | @escaped d s _ _ hd h =>
          have hrest := ih s.length (by simp only [List.length_cons]; omega) h rfl
          rcases hd with rfl | rfl
          · rw [replace_ledMark_cons (by decide), replace_cons (after?_ledMark h)]
            exact .escaped (.inl rfl) hrest
          · rw [replace_ledMark_cons (by decide), replace_ledMark_cons (by decide)]
            exact .escaped (.inr rfl) hrest
      | @close s _ _ h =>
          cases hs : after? ledMark ('\'' :: s) with
          | some rest =>
              have hlen := length_of_after? hs
              have hpos : 0 < ledMark.length := by decide
              rw [eq_append_of_after? hs, replace_append hne, List.nil_append]
              -- the margin took the lexer out of the literal and back into it
              exact ih rest.length (by omega) (of_ledMark h hs) rfl
          | none =>
              rw [replace_cons hs]
              exact .close (ih s.length (by simp) h rfl)
      | @quote s _ _ h =>
          rw [replace_cons (after?_ledMark h)]
          exact .quote (ih s.length (by simp) h rfl)
      | @mark w s _ _ hw h =>
          have hpos := List.length_pos_iff.mpr (head_of_mark w hw).1
          rw [replace_ledMark_append (hmarks w hw)]
          refine .mark hw (ih s.length ?_ h rfl)
          rw [List.length_append]
          omega
      | @call name s names _ h =>
          rw [replace_ledMark_call name h]
          exact .call (ih s.length (length_lt_call name s) h rfl)

end Lexes

end Target

end Inlay
