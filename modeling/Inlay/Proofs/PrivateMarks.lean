import Inlay.Proofs.LexedCallables
import Inlay.Proofs.KeywordText

/-!
# The marks that code is made with

Masked keywords and marks of self-indented code have bells. If nobody else
writes a bell, then each bell in code that is under way is in a whole mark,
and whatever is done to code keeps its marks whole. So all of them go: the
marks of self-indented code are taken out when the code of a callable gets
its margins, and masked keywords are unmasked after that. No unit of the
dispatch table has a bell, and no code of a template.
-/

namespace Inlay

open Keyword Callable

/-- The texts that have bells. -/
def privateMarks : List Text :=
  [sentinel, selfIndented]

/-- Each bell in the text is in one of the marks, and the mark is whole. -/
inductive Whole (marks : List Text) : Text → Prop
  | nil : Whole marks []
  | char {c s} : c ≠ bell → Whole marks s → Whole marks (c :: s)
  | mark {m s} : m ∈ marks → Whole marks s → Whole marks (m ++ s)

namespace Whole

open Text

/-- A mark has its first bell third. -/
theorem exists_eq_of_mem : ∀ m ∈ privateMarks, ∃ rest, m = '!' :: '!' :: bell :: rest := by
  intro m hm
  rcases List.mem_cons.mp hm with rfl | hm
  · exact ⟨_, rfl⟩
  · obtain rfl := List.mem_singleton.mp hm
    exact ⟨_, rfl⟩

/-- No mark has a character that literals, lines or headers are told by. -/
theorem not_mem_mark : ∀ m ∈ privateMarks, ∀ c ∈ "'\n()\x7b".toList, c ∉ m := by
  decide

variable {marks : List Text} {s t : Text}

theorem append (hs : Whole marks s) (ht : Whole marks t) : Whole marks (s ++ t) := by
  induction hs with
  | nil => exact ht
  | char hc _ ih => exact .char hc ih
  | mark hm _ ih =>
      rw [List.append_assoc]
      exact .mark hm ih

theorem of_not_mem (h : bell ∉ s) : Whole marks s := by
  induction s with
  | nil => exact .nil
  | cons c s ih =>
      obtain ⟨hc, hs⟩ := not_or.mp (List.mem_cons.not.mp h)
      exact .char (Ne.symm hc) (ih hs)

theorem mono {others : List Text} (h : Whole marks s) (hmarks : marks ⊆ others) :
    Whole others s := by
  induction h with
  | nil => exact .nil
  | char hc _ ih => exact .char hc ih
  | mark hm _ ih => exact .mark (hmarks hm) ih

theorem flatMap {α : Type} {items : List α} {f : α → Text}
    (h : ∀ item ∈ items, Whole marks (f item)) : Whole marks (items.flatMap f) := by
  induction items with
  | nil => exact .nil
  | cons item items ih =>
      obtain ⟨hitem, hitems⟩ := List.forall_mem_cons.mp h
      exact hitem.append (ih hitems)

/-- Text without marks has no bells. -/
theorem bell_not_mem (h : Whole [] s) : bell ∉ s := by
  induction h with
  | nil => exact List.not_mem_nil
  | char hc _ ih => exact List.not_mem_cons_of_ne_of_not_mem (Ne.symm hc) ih
  | mark hm => cases hm

theorem mask (h : bell ∉ s) : Whole [sentinel] (mask s) := by
  induction s using replaceInduction word_ne_nil with
  | nil =>
      rw [mask_nil]
      exact .nil
  | hit s ih =>
      rw [mask_word_append]
      exact .mark List.mem_cons_self (ih fun hmem => h (List.mem_append_right _ hmem))
  | miss c s hc ih =>
      obtain ⟨hne, hs⟩ := not_or.mp (List.mem_cons.not.mp h)
      rw [mask_cons hc]
      exact .char (Ne.symm hne) (ih hs)

section

variable (hmarks : marks ⊆ privateMarks)

include hmarks

/-- A mark does not start in the middle. -/
theorem not_starts (h : Whole marks s) (rest : Text) : s ≠ bell :: rest ∧ s ≠ '!' :: bell :: rest := by
  have hbell : ∀ {s}, Whole marks s → ∀ rest, s ≠ bell :: rest := by
    intro s h rest
    cases h with
    | nil => exact List.cons_ne_nil _ _ |>.symm
    | char hc _ => exact fun heq => hc (List.cons.inj heq).1
    | mark hm _ =>
        obtain ⟨after, rfl⟩ := exists_eq_of_mem _ (hmarks hm)
        exact fun heq => absurd (List.cons.inj heq).1 (by decide)
  refine ⟨hbell h rest, ?_⟩
  cases h with
  | nil => exact List.cons_ne_nil _ _ |>.symm
  | char _ h => exact fun heq => hbell h rest (List.cons.inj heq).2
  | mark hm _ =>
      obtain ⟨after, rfl⟩ := exists_eq_of_mem _ (hmarks hm)
      exact fun heq => absurd (List.cons.inj (List.cons.inj heq).2).1 (by decide)

/-- After a character a mark starts afresh. -/
theorem after?_cons_eq_none (h : Whole marks s) (c : Char) {m : Text} (hm : m ∈ privateMarks) :
    after? m (c :: s) = none := by
  obtain ⟨rest, rfl⟩ := exists_eq_of_mem m hm
  by_contra hne
  obtain ⟨after, hafter⟩ := Option.ne_none_iff_exists'.mp hne
  have heq := List.cons.inj (eq_append_of_after? hafter)
  exact (not_starts hmarks h _).2 heq.2

/-- What follows a mark has whole marks. -/
theorem of_mark {m : Text} (hm : m ∈ privateMarks) (h : Whole marks (m ++ s)) : Whole marks s := by
  generalize hu : m ++ s = u at h
  cases h with
  | nil =>
      obtain ⟨rest, rfl⟩ := exists_eq_of_mem m hm
      cases hu
  | @char c u hc h =>
      have hnone := after?_cons_eq_none hmarks h c hm
      rw [← hu, after?_append] at hnone
      cases hnone
  | @mark m' u hm' h =>
      have hapart : ∀ m ∈ privateMarks, ∀ m' ∈ privateMarks, m <+: m' → m = m' := by decide
      have hsame : m = m' := by
        rcases List.prefix_or_prefix_of_prefix ⟨s, rfl⟩ ⟨u, hu.symm⟩ with hshort | hlong
        · exact hapart m hm m' (hmarks hm') hshort
        · exact (hapart m' (hmarks hm') m hm hlong).symm
      rw [hsame] at hu
      exact List.append_cancel_left hu ▸ h

/-- A character that no mark has cuts a text in two. -/
theorem of_append_cons {c : Char} (hc : ∀ m ∈ privateMarks, c ∉ m) {x y : Text}
    (h : Whole marks (x ++ c :: y)) : Whole marks x ∧ Whole marks y := by
  generalize hu : x ++ c :: y = u at h
  induction h generalizing x with
  | nil => exact absurd hu (List.append_ne_nil_of_right_ne_nil x (List.cons_ne_nil _ _))
  | @char d s hd h ih =>
      cases x with
      | nil =>
          obtain ⟨-, rfl⟩ := List.cons.inj hu
          exact ⟨.nil, h⟩
      | cons e x =>
          obtain ⟨rfl, hrest⟩ := List.cons.inj hu
          obtain ⟨hx, hy⟩ := ih hrest
          exact ⟨.char hd hx, hy⟩
  | @mark m s hm h ih =>
      rcases List.append_eq_append_iff.mp hu with ⟨a, hm', hs⟩ | ⟨a, rfl, hs⟩
      · cases a with
        | nil =>
            obtain ⟨hx, hy⟩ := ih (x := []) hs
            rw [List.append_nil] at hm'
            rw [← hm', ← List.append_nil m]
            exact ⟨.mark hm .nil, hy⟩
        | cons e a =>
            obtain ⟨rfl, -⟩ := List.cons.inj hs
            exact absurd (hm' ▸ List.mem_append_right x List.mem_cons_self) (hc m (hmarks hm))
      · obtain ⟨hx, hy⟩ := ih hs.symm
        exact ⟨.mark hm hx, hy⟩

/-! ## What is done to code -/

theorem quote (h : Whole marks s) : Whole marks s.quote := by
  have hkept : ∀ m ∈ privateMarks, m.quote = m := by decide
  induction h with
  | nil => exact .nil
  | @char c s hc _ ih =>
      show Whole marks ((if c = '\'' then ['\\', '\''] else [c]) ++ s.quote)
      split
      · exact .char (by decide) (.char (by decide) ih)
      · exact .char hc ih
  | @mark m s hm _ ih =>
      rw [quote_append, hkept m (hmarks hm)]
      exact .mark hm ih

theorem lead {w : Text} (hw : bell ∉ w) (h : Whole marks s) (margin : Margin) :
    Whole marks (lead w margin s) := by
  have howed : ∀ margin : Margin, Whole marks (margin.owed w) := fun margin =>
    .of_not_mem fun hmem => hw (Margin.mem_of_mem_owed hmem)
  induction h generalizing margin with
  | nil => exact .nil
  | char hc _ ih => exact (howed margin).append (.char hc (ih _))
  | @mark m s hm _ ih =>
      obtain ⟨rest, hrest⟩ := exists_eq_of_mem m (hmarks hm)
      have hline : '\n' ∉ m := not_mem_mark m (hmarks hm) _ (by decide)
      obtain ⟨hlead, hafter⟩ := lead_of_line (hrest ▸ List.cons_ne_nil _ _) hline w margin
      rw [lead_append, hlead, hafter, List.append_assoc]
      exact (howed margin).append (.mark hm (ih .paid))

theorem indentLines {w : Text} (hw : bell ∉ w) (h : Whole marks s) :
    Whole marks (indentLines w s) := by
  rw [indentLines_eq_laid]
  refine (lead hmarks hw h .fresh).append (.of_not_mem fun hmem => hw ?_)
  generalize Margin.fresh.after s = last at hmem
  cases last with
  | fresh => exact hmem
  | _ => cases hmem

/-- A margin before a mark goes with the mark. -/
theorem replace_led {p : Text} (h : Whole marks s) :
    Whole marks (replace (('\'' :: (p ++ ['\''])) ++ selfIndented) [] s) := by
  have hquote : ∀ m ∈ privateMarks, '\'' ∉ m := fun m hm => not_mem_mark m hm _ (by decide)
  have hself : selfIndented ∈ privateMarks := List.mem_cons_of_mem _ List.mem_cons_self
  induction hn : s.length using Nat.strong_induction_on generalizing s with
  | _ n ih =>
      subst hn
      generalize hu : s = u at h
      cases h with
      | nil =>
          rw [replace_nil (by simp)]
          exact .nil
      | @char c u hc h =>
          cases hafter : after? (('\'' :: (p ++ ['\''])) ++ selfIndented) (c :: u) with
          | none =>
              rw [replace_cons hafter]
              exact .char hc (ih u.length (by simp [hu]) h rfl)
          | some rest =>
              have heq := eq_append_of_after? hafter
              have hparts : c :: u = ('\'' :: p) ++ '\'' :: (selfIndented ++ rest) := by
                rw [heq]
                simp
              have hwhole : Whole marks (('\'' :: p) ++ '\'' :: (selfIndented ++ rest)) :=
                hparts ▸ .char hc h
              have hrest := of_mark hmarks hself (of_append_cons hmarks hquote hwhole).2
              have hlength := congrArg List.length hparts
              simp only [List.length_append, List.length_cons] at hlength
              rw [heq, replace_append (by simp), List.nil_append]
              refine ih rest.length ?_ hrest rfl
              rw [hu, List.length_cons]
              omega
      | @mark m u hm h =>
          obtain ⟨after, hafter⟩ := exists_eq_of_mem m (hmarks hm)
          have hkept : replace (('\'' :: (p ++ ['\''])) ++ selfIndented) [] (m ++ u) =
              m ++ replace (('\'' :: (p ++ ['\''])) ++ selfIndented) [] u :=
            replace_append_of_head (hquote m (hmarks hm)) u
          rw [hkept]
          refine .mark hm (ih u.length ?_ h rfl)
          rw [hu, hafter, List.length_append]
          simp

/-- Without the marks of self-indented code only masked keywords are left. -/
theorem replace_selfIndented (h : Whole marks s) :
    Whole [sentinel] (replace selfIndented [] s) := by
  have hself : selfIndented ∈ privateMarks := List.mem_cons_of_mem _ List.mem_cons_self
  induction h with
  | nil =>
      rw [replace_nil (by decide)]
      exact .nil
  | @char c s hc h ih =>
      rw [replace_cons (after?_cons_eq_none hmarks h c hself)]
      exact .char hc ih
  | @mark m s hm h ih =>
      rcases List.mem_cons.mp (hmarks hm) with rfl | hm'
      · -- the mark of self-indented code does not start within a masked keyword
        have hlast : replace selfIndented [] ('!' :: '!' :: s) =
            '!' :: '!' :: replace selfIndented [] s := by
          have hbang : Whole marks ('!' :: s) := .char (by decide) h
          rw [replace_cons (after?_cons_eq_none hmarks hbang '!' hself),
            replace_cons (after?_cons_eq_none hmarks h '!' hself)]
        have hmiddle : replace selfIndented [] ((bell :: "FuNcTiOn\x07".toList) ++ ('!' :: '!' :: s)) =
            (bell :: "FuNcTiOn\x07".toList) ++ replace selfIndented [] ('!' :: '!' :: s) :=
          replace_append_of_head (by decide) _
        have hkept : replace selfIndented [] (sentinel ++ s) =
            sentinel ++ replace selfIndented [] s := by
          have hsplit : sentinel ++ s =
              '!' :: '!' :: ((bell :: "FuNcTiOn\x07".toList) ++ ('!' :: '!' :: s)) := rfl
          rw [hsplit, replace_cons rfl, replace_cons rfl, hmiddle, hlast]
          rfl
        rw [hkept]
        exact .mark List.mem_cons_self ih
      · obtain rfl := List.mem_singleton.mp hm'
        rw [replace_append (by decide), List.nil_append]
        exact ih

end

theorem sentinel_subset : [sentinel] ⊆ privateMarks :=
  List.cons_subset_cons _ (List.nil_subset _)

/-- Capturing rewrites headers, and these have no marks. -/
theorem recasts (h : Whole [sentinel] s) (hst : Recasts s t) : Whole [sentinel] t := by
  induction hn : s.length using Nat.strong_induction_on generalizing s t with
  | _ n ih =>
      subst hn
      generalize hu : s = u at h
      cases h with
      | nil =>
          rw [hu] at hst
          exact hst.of_nil ▸ .nil
      | @char c u hc h =>
          rw [hu] at hst
          rcases hst.cons_cases with ⟨v, rfl, hv⟩ | ⟨x, y, r, v, hxy, hx, rfl, hv⟩
          · exact .char hc (ih u.length (by simp [hu]) h hv rfl)
          · have hlength := hxy.length_lt hx
            have hwhole : Whole [sentinel] (x ++ r) := hx ▸ .char hc h
            have hrest : Whole [sentinel] y ∧ Whole [sentinel] r := by
              cases hxy with
              | @front gap hgap =>
                  have hopen : ∀ m ∈ privateMarks, '(' ∉ m :=
                    fun m hm => not_mem_mark m hm _ (by decide)
                  have hsplit : (word ++ (gap ++ ['('])) ++ r = (word ++ gap) ++ '(' :: r := by simp
                  rw [hsplit] at hwhole
                  exact ⟨.of_not_mem (by decide), (of_append_cons sentinel_subset hopen hwhole).2⟩
              | @back gap hgap =>
                  have hopen : ∀ m ∈ privateMarks, '\x7b' ∉ m :=
                    fun m hm => not_mem_mark m hm _ (by decide)
                  have hsplit : (')' :: (gap ++ ['\x7b'])) ++ r = (')' :: gap) ++ '\x7b' :: r := by
                    simp
                  rw [hsplit] at hwhole
                  exact ⟨.of_not_mem (by decide), (of_append_cons sentinel_subset hopen hwhole).2⟩
            rw [← hu] at hlength
            exact hrest.1.append (ih r.length hlength hrest.2 hv rfl)
      | @mark m u hm h =>
          obtain rfl := List.mem_singleton.mp hm
          rw [hu] at hst
          obtain ⟨v, rfl, hv⟩ := hst.kept (by decide)
          refine .mark hm (ih u.length ?_ h hv rfl)
          rw [hu, List.length_append]
          exact Nat.lt_add_of_pos_left (by decide)

/-- Unmasking leaves no bell. -/
theorem bell_not_mem_unmask (h : Whole [sentinel] s) : bell ∉ unmask s := by
  induction h with
  | nil =>
      rw [unmask_nil]
      exact List.not_mem_nil
  | @char c s hc h ih =>
      rw [unmask_cons (after?_cons_eq_none sentinel_subset h c List.mem_cons_self)]
      exact List.not_mem_cons_of_ne_of_not_mem (Ne.symm hc) ih
  | mark hm h ih =>
      obtain rfl := List.mem_singleton.mp hm
      rw [unmask_sentinel_append]
      exact List.not_mem_append (by decide) ih

end Whole

/-! ## Code -/

theorem Node.BlankIndent.bell_not_mem {n : Node} (h : n.BlankIndent) : ∀ w ∈ n.indent?, bell ∉ w :=
  fun w hw hbell => (h w hw bell hbell).elim (absurd · (by decide)) (absurd · (by decide))

namespace Handlebars

open Text

/-- The fragments have no bells. -/
structure WithoutBells (f : Fragments) : Prop where
  separator : bell ∉ f.separator
  opening : bell ∉ f.opening
  closing : bell ∉ f.closing

section

variable {marks : List Text} {f : Fragments}

theorem WithoutBells.splice (hf : WithoutBells f) {e : Text} (he : Whole marks e) :
    Whole marks (f.splice e) := by
  have hquote : Whole marks ['\''] := .of_not_mem (by decide)
  have hseparator : Whole marks f.separator := .of_not_mem hf.separator
  exact (((hquote.append hseparator).append he).append hseparator).append hquote

theorem WithoutBells.bell_not_mem_margin (hf : WithoutBells f) : bell ∉ margin f :=
  (hf.splice (.of_not_mem (by decide) : Whole [] indentParameter)).bell_not_mem

variable {v : View}

/-- The mark of self-indented code is written where indentation is passed on, and nowhere else. -/
theorem whole_dispatch (hf : WithoutBells v.fragments)
    (hmark : v.indentBound = true → v.flags.noIndent = false → selfIndented ∈ marks) {name : Text}
    (hname : Whole marks name) {indent block : Option Text} (hindent : ∀ w ∈ indent, bell ∉ w)
    (hblock : ∀ unit ∈ block, bell ∉ unit) : Whole marks (dispatch v name indent block) := by
  have hargument : Whole marks (indentArgument v indent) := by
    unfold indentArgument
    split
    · exact .nil
    · cases indent with
      | none =>
          show Whole marks ", ''".toList
          exact .of_not_mem (by decide)
      | some w =>
          have hw : Whole marks w := .of_not_mem (hindent w rfl)
          have hquote : Whole marks ['\''] := .of_not_mem (by decide)
          have hcomma : Whole marks (", ".toList ++ indentParameter) := .of_not_mem (by decide)
          have hopen : Whole marks ", '".toList := .of_not_mem (by decide)
          simp only
          split
          · exact ((hcomma.append (.of_not_mem hf.separator)).append (hquote.append hw)).append hquote
          · exact (hopen.append hw).append hquote
  have hcall : ∀ further, Whole marks further →
      Whole marks (v.fragments.splice ("LR::p($cx, ".toList ++ name ++ ", $in".toList ++
        indentArgument v indent ++ further ++ [')'])) := by
    intro further hfurther
    have hcallee : Whole marks "LR::p($cx, ".toList := .of_not_mem (by decide)
    have hinput : Whole marks ", $in".toList := .of_not_mem (by decide)
    have hclose : Whole marks [')'] := .of_not_mem (by decide)
    exact hf.splice ((((hcallee.append hname).append hinput).append hargument).append hfurther |>.append
      hclose)
  have hled : ∀ further, Whole marks further → ∀ self : Bool,
      (self = true → v.indentBound = true ∧ v.flags.noIndent = false) →
      Whole marks (if self then
        selfIndented ++ v.fragments.splice ("LR::p($cx, ".toList ++ name ++ ", $in".toList ++
          indentArgument v indent ++ further ++ [')'])
      else v.fragments.splice ("LR::p($cx, ".toList ++ name ++ ", $in".toList ++
        indentArgument v indent ++ further ++ [')'])) := by
    intro further hfurther self hself
    split
    · rename_i hled
      exact .mark (hmark (hself hled).1 (hself hled).2) (hcall further hfurther)
    · exact hcall further hfurther
  have hself : (indent.isSome && v.indentBound && !v.flags.noIndent) = true →
      v.indentBound = true ∧ v.flags.noIndent = false := by
    intro hled
    simp only [Bool.and_eq_true, Bool.not_eq_true'] at hled
    exact ⟨hled.1.2, hled.2⟩
  unfold dispatch
  cases block with
  | none => exact hled [] .nil _ hself
  | some unit =>
      have hcomma : Whole marks ", ".toList := .of_not_mem (by decide)
      exact hled _ (hcomma.append (.of_not_mem (hblock unit rfl))) _ hself

theorem whole_nodeCode (hmarks : marks ⊆ privateMarks) (hf : WithoutBells v.fragments)
    (hmark : v.indentBound = true → v.flags.noIndent = false → selfIndented ∈ marks)
    {unit : Text → Text} {n : Node} (htexts : ∀ text ∈ n.texts, Whole marks text)
    (hindent : ∀ w ∈ n.indent?, bell ∉ w)
    (hunit : ∀ name body closed, n = .block name body closed → bell ∉ unit body) :
    Whole marks (nodeCode v unit n) := by
  have hquote : Whole marks ['\''] := .of_not_mem (by decide)
  have hopen : Whole marks "$in['".toList := .of_not_mem (by decide)
  have hclose : Whole marks "']".toList := .of_not_mem (by decide)
  have hliteral : ∀ {name : Text}, Whole marks name → Whole marks (nameLiteral name) :=
    fun hname => (hquote.append hname).append hquote
  have hlookup : ∀ {name : Text}, Whole marks name → Whole marks (lookup name) :=
    fun hname => (hopen.append (hname.quote hmarks)).append hclose
  have hcall : ∀ {name : Text}, Whole marks name → Whole marks (dispatch v name n.indent? none) :=
    fun hname => whole_dispatch hf hmark hname hindent fun _ h => by cases h
  cases n with
  | literal text => exact (htexts text List.mem_cons_self).quote hmarks
  | «variable» name => exact hf.splice (hlookup (htexts name List.mem_cons_self))
  | reference target indent =>
      cases target with
      | named name =>
          have hname := hliteral (htexts name List.mem_cons_self)
          exact hcall hname
      | dynamic expr =>
          have hexpr := hlookup (htexts expr List.mem_cons_self)
          exact hcall hexpr
      | block =>
          have hblock : Whole marks "LR::pb($cx, $in)".toList := .of_not_mem (by decide)
          exact hf.splice hblock
  | block name body closed =>
      have hunit : ∀ callable ∈ some (unit body), bell ∉ callable := by
        rintro _ ⟨⟩
        exact hunit name body closed rfl
      have hindent : ∀ w ∈ (none : Option Text), bell ∉ w := fun _ h => by cases h
      have hname := hliteral (htexts name List.mem_cons_self)
      have hcall := whole_dispatch hf hmark hname hindent hunit
      exact hcall
  | inlinePartial name body closed => exact .nil
  | strayClose name => exact .nil

/-- A callable has no bells if its code and its parameters have none. -/
theorem WithoutBells.bell_not_mem_define (hf : WithoutBells f) {further code : Text}
    (hfurther : bell ∉ further) (hcode : bell ∉ code) : bell ∉ define f further code := by
  have hheader : Whole [] "function ($cx, $in".toList := .of_not_mem (by decide)
  have hbrace : Whole [] ") \x7b".toList := .of_not_mem (by decide)
  have hquote : Whole [] ['\''] := .of_not_mem (by decide)
  have hclose : Whole [] ['}'] := .of_not_mem (by decide)
  have hfront := ((hheader.append (.of_not_mem hfurther)).append hbrace).append (.of_not_mem hf.opening)
  have hinside := hfront.append (hquote.append (.of_not_mem hcode))
  exact ((hinside.append (hquote.append (.of_not_mem hf.closing))).append hclose).bell_not_mem

/-- A callable has none of the marks that its code was made with. -/
theorem bell_not_mem_callable (hf : WithoutBells v.fragments) {code : Text}
    (hcode : Whole (if v.flags.noIndent then [sentinel] else privateMarks) code) :
    bell ∉ callable v code := by
  unfold callable
  split
  · rename_i hflat
    rw [if_pos hflat] at hcode
    exact hf.bell_not_mem_define List.not_mem_nil hcode.bell_not_mem_unmask
  · rename_i hindents
    rw [if_neg hindents] at hcode
    have hlaid := hcode.indentLines (List.Subset.refl _) hf.bell_not_mem_margin
    have hunled := hlaid.replace_led (List.Subset.refl _)
      (p := v.fragments.separator ++ (indentParameter ++ v.fragments.separator))
    have hunmarked := hunled.replace_selfIndented (List.Subset.refl _)
    have hmargin : margin v.fragments =
        '\'' :: (v.fragments.separator ++ (indentParameter ++ v.fragments.separator) ++ ['\'']) := by
      simp [margin_eq]
    rw [← hmargin] at hunmarked
    have hswept : Whole [sentinel] (threadIndent v.fragments code) := by
      rw [threadIndent_eq, sweep_eq_capture _ _ _ (by simp)]
      exact hunmarked.recasts (recasts_capture false _)
    exact hf.bell_not_mem_define (by decide) hswept.bell_not_mem_unmask

end

/-! ## Units -/

theorem Clear.whole {s : Text} (h : Clear s) : Whole [sentinel] s := by
  obtain ⟨w, hw, rfl | rfl⟩ := h
  · exact .of_not_mem hw
  · exact .mask hw

theorem Clear.texts {s : Text} (h : Clear s) {n : Node} (hn : n ∈ s.nodes) :
    ∀ t ∈ n.texts, Clear t := by
  obtain ⟨w, hw, rfl | rfl⟩ := h
  · exact fun t ht => .of_not_mem (bell_not_mem_texts hw hn t ht)
  · rw [nodes_mask hw] at hn
    obtain ⟨raw, hraw, rfl⟩ := List.mem_map.mp hn
    have hclear : ∀ t ∈ raw.texts, Clear (mask t) :=
      fun t ht => (Clear.of_not_mem (bell_not_mem_texts hw hraw t ht)).masked
    have hnil : Clear [] := .of_not_mem List.not_mem_nil
    cases raw with
    | reference target indent =>
        cases target with
        | block => exact List.forall_mem_singleton.mpr hnil
        | _ => exact List.forall_mem_singleton.mpr (hclear _ List.mem_cons_self)
    | block name body closed =>
        refine List.forall_mem_cons.mpr ⟨hclear _ List.mem_cons_self, ?_⟩
        exact List.forall_mem_singleton.mpr (hclear _ (List.mem_cons_of_mem _ List.mem_cons_self))
    | inlinePartial name body closed =>
        refine List.forall_mem_cons.mpr ⟨hclear _ List.mem_cons_self, ?_⟩
        exact List.forall_mem_singleton.mpr (hclear _ (List.mem_cons_of_mem _ List.mem_cons_self))
    | _ => exact List.forall_mem_singleton.mpr (hclear _ List.mem_cons_self)

theorem whole_nodes {marks : List Text} {v : View} (hmarks : marks ⊆ privateMarks)
    (hsentinel : sentinel ∈ marks) (hf : WithoutBells v.fragments)
    (hmark : v.indentBound = true → v.flags.noIndent = false → selfIndented ∈ marks)
    {text : Text} (htext : Clear text) {unit : Text → Text}
    (hunit : ∀ n ∈ text.nodes, ∀ body, n.body? = some body → bell ∉ unit body) :
    Whole marks (text.nodes.flatMap (nodeCode v unit)) := by
  refine .flatMap fun n hn => whole_nodeCode hmarks hf hmark ?_ ?_ ?_
  · exact fun t ht => (htext.texts hn t ht).whole.mono (List.cons_subset.mpr ⟨hsentinel, List.nil_subset _⟩)
  · exact Node.BlankIndent.bell_not_mem (Node.blankIndent_of_mem hn)
  · rintro name body closed rfl
    exact hunit _ hn body rfl

/-- Outside of callables nothing is marked. -/
theorem bell_not_mem_nodeCode {v : View} (hf : WithoutBells v.fragments)
    (hunbound : v.indentBound = false) {unit : Text → Text} {n : Node}
    (htexts : ∀ t ∈ n.texts, bell ∉ t) (hindent : n.BlankIndent)
    (hunit : ∀ body, n.body? = some body → bell ∉ unit body) : bell ∉ nodeCode v unit n := by
  have hcode : Whole [] (nodeCode v unit n) := by
    refine whole_nodeCode (List.nil_subset _) hf (fun hbound _ => ?_)
      (fun t ht => .of_not_mem (htexts t ht)) (Node.BlankIndent.bell_not_mem hindent) ?_
    · rw [hunbound] at hbound
      cases hbound
    · rintro name body closed rfl
      exact hunit body rfl
  exact hcode.bell_not_mem

/-- The unit of a text has no marks. -/
theorem bell_not_mem_unitCode {f : Fragments} (hf : WithoutBells f) (flags : Flags) {text : Text}
    (h : Clear text) : bell ∉ unitCode flags f text := by
  induction hn : (mask text).length using Nat.strong_induction_on generalizing text with
  | _ n ih =>
      subst hn
      rw [unitCode_eq]
      apply bell_not_mem_callable (v := unitView flags f) hf
      have hinner : ∀ n ∈ (mask text).nodes, ∀ body, n.body? = some body →
          bell ∉ unitCode flags f body := fun n hn body hbody =>
        ih _ (length_mask_body_lt hn hbody) (h.masked.body hn hbody) rfl
      split
      · rename_i hflat
        refine whole_nodes Whole.sentinel_subset List.mem_cons_self hf (fun _ hindents => ?_) h.masked hinner
        rw [hflat] at hindents
        cases hindents
      · exact whole_nodes (List.Subset.refl _) List.mem_cons_self hf
          (fun _ _ => List.mem_cons_of_mem _ List.mem_cons_self) h.masked hinner

end Handlebars

end Inlay
