import Inlay.Proofs.LexedUnits
import Inlay.Proofs.NestedMargins

/-!
# Calls that callables keep

The passes over the code of a callable look for lines, for marks of code that
indents itself and for parameters of callables. The start of a call has none
of this if its name has not. So it stays in the callable, and in all callables
around it, with its name unmasked.
-/

namespace Inlay

namespace Text

variable {old new : Text}

theorem after?_eq_none_of_not_isPrefix {mark s : Text} (h : ¬ mark <+: s) : after? mark s = none := by
  cases hs : after? mark s with
  | none => rfl
  | some rest => exact absurd ⟨rest, (eq_append_of_after? hs).symm⟩ h

/-- At the start a text stays where nothing that is replaced starts in it. -/
theorem replace_append_of_not_isPrefix {x b : Text}
    (hinside : ∀ v, v <:+ x → v ≠ [] → ¬ old <+: v ++ b) :
    replace old new (x ++ b) = x ++ replace old new b := by
  induction x with
  | nil => rfl
  | cons c x ih =>
      have hc : after? old (c :: (x ++ b)) = none := after?_eq_none_of_not_isPrefix
        (hinside (c :: x) (List.suffix_refl _) (List.cons_ne_nil c x))
      rw [List.cons_append, replace_cons hc,
        ih fun v hv => hinside v (hv.trans (List.suffix_cons c x)), List.cons_append]

/-- A text stays where nothing that is replaced starts in it or reaches into it. -/
theorem exists_replace_append {x b : Text} (hold : old ≠ [])
    (hinside : ∀ v, v <:+ x → v ≠ [] → ¬ old <+: v ++ b)
    (hacross : ∀ v, v <:+ old.tail → v ≠ [] → ¬ v <+: x ++ b) (a : Text) :
    ∃ front, replace old new (a ++ (x ++ b)) = front ++ (x ++ replace old new b) := by
  have hkeep : replace old new (x ++ b) = x ++ replace old new b :=
    replace_append_of_not_isPrefix hinside
  induction hn : a.length using Nat.strong_induction_on generalizing a with
  | _ n ih =>
      subst hn
      cases a with
      | nil => exact ⟨[], hkeep⟩
      | cons c a =>
          by_cases hstart : old <+: c :: a ++ (x ++ b)
          · obtain ⟨rest, hrest⟩ := hstart
            rw [← hrest, replace_append hold]
            rcases List.append_eq_append_iff.mp hrest with ⟨w, hw, rfl⟩ | ⟨w, hw, htail⟩
            · have hless : w.length < (c :: a).length := by
                have hpos := List.length_pos_iff.mpr hold
                rw [hw, List.length_append]
                omega
              obtain ⟨front, hfront⟩ := ih w.length hless w rfl
              exact ⟨new ++ front, by rw [hfront, List.append_assoc]⟩
            · -- the occurrence starts before the text, so it ends there too
              cases w with
              | nil =>
                  rw [List.nil_append] at htail
                  exact ⟨new, by rw [← htail, hkeep]⟩
              | cons d w =>
                  refine absurd ⟨rest, htail.symm⟩ (hacross (d :: w) ?_ (List.cons_ne_nil d w))
                  rw [hw]
                  exact List.suffix_append a _
          · have hnone : after? old (c :: (a ++ (x ++ b))) = none :=
              after?_eq_none_of_not_isPrefix hstart
            obtain ⟨front, hfront⟩ := ih a.length (Nat.lt_succ_self _) a rfl
            exact ⟨c :: front, by rw [List.cons_append, replace_cons hnone, hfront, List.cons_append]⟩

/-- A suffix of a text is told from other texts by its first characters. -/
theorem not_isPrefix_of_take {s w v rest : Text}
    (h : ∀ v ∈ s.tails, v ≠ [] → ¬ v.take w.length <+: w) (hv : v <:+ s) (hne : v ≠ []) :
    ¬ v <+: w ++ rest := by
  rintro ⟨r, hr⟩
  refine h v ((List.mem_tails v s).mpr hv) hne ?_
  have htake : (v ++ r).take w.length = w := by rw [hr, List.take_left]
  rw [List.take_append] at htake
  exact ⟨_, htake⟩

/-- The first place of a character can be told. -/
theorem eq_of_append_cons {c : Char} {a b a' b' : Text} (ha : c ∉ a) (ha' : c ∉ a')
    (h : a ++ c :: b = a' ++ c :: b') : a = a' ∧ b = b' := by
  have hle : a <+: a' := Callable.prefix_of_prefix_append_cons ha ⟨c :: b, h⟩
  have hge : a' <+: a := Callable.prefix_of_prefix_append_cons ha' ⟨c :: b', h.symm⟩
  obtain rfl := hle.eq_of_length_le hge.length_le
  exact ⟨rfl, (List.cons.inj (List.append_cancel_left h)).2⟩

theorem suffix_append_cases {c : Char} {w a b : Text} (h : c :: w <:+ a ++ b) :
    c :: w <:+ b ∨ ∃ last, c :: last <:+ a ∧ w = last ++ b := by
  obtain ⟨u, hu⟩ := h
  rcases List.append_eq_append_iff.mp hu with ⟨x, rfl, hx⟩ | ⟨x, -, hx⟩
  · cases x with
    | nil => exact .inl (hx ▸ List.suffix_refl _)
    | cons d x =>
        obtain ⟨rfl, rfl⟩ := List.cons.inj hx
        exact .inr ⟨x, List.suffix_append u _, rfl⟩
  · exact .inl ⟨x, hx.symm⟩

end Text

namespace Handlebars

open Text Callable Keyword

/-! ## The start of a call -/

/-- The start of a call to the partial of this name. -/
def callTo (name : Text) : Text :=
  "LR::p($cx, ".toList ++ nameLiteral name ++ ", $in".toList

theorem isInfix_splice (f : Fragments) (e : Text) : e <:+: f.splice e := by
  refine ⟨'\'' :: f.separator, f.separator ++ ['\''], ?_⟩
  simp only [Fragments.splice, List.append_assoc, List.cons_append]

theorem callTo_isInfix_dispatch (v : View) (name : Text) (indent block : Option Text) :
    callTo name <:+: dispatch v (nameLiteral name) indent block := by
  obtain ⟨mark, -, hcall⟩ := dispatch_eq v (nameLiteral name) indent block
  have hstart : ∀ a b d e : Text, a ++ b ++ d <:+: a ++ (b ++ (d ++ e)) :=
    fun a b d e => ⟨[], e, by simp only [List.append_assoc, List.nil_append]⟩
  rw [hcall]
  exact ((hstart ..).trans (isInfix_splice ..)).trans (List.suffix_append mark _).isInfix

/-- The callable of a block is in its call. -/
theorem callable_isInfix_dispatch (v : View) (name : Text) (indent : Option Text) (unit : Text) :
    unit <:+: dispatch v name indent (some unit) := by
  obtain ⟨mark, -, hcall⟩ := dispatch_eq v name indent (some unit)
  have hblock : ∀ a b d e g h : Text, unit <:+: a ++ (b ++ (d ++ (e ++ (g ++ unit ++ h)))) :=
    fun a b d e g h => ⟨a ++ (b ++ (d ++ (e ++ g))), h, by simp only [List.append_assoc]⟩
  rw [hcall, Option.map_some, Option.getD_some]
  exact ((hblock ..).trans (isInfix_splice ..)).trans (List.suffix_append mark _).isInfix

theorem callTo_eq (name : Text) :
    callTo name = "LR::p($cx, ".toList ++ '\'' :: (name ++ '\'' :: ", $in".toList) := by
  have hassoc : ∀ front rest : Text, front ++ ('\'' :: name ++ ['\'']) ++ rest =
      front ++ '\'' :: (name ++ '\'' :: rest) := by
    simp
  exact hassoc _ _

/-- What follows an apostrophe in the start of a call. -/
theorem suffix_callTo {name w : Text} (h : '\'' :: w <:+ callTo name) :
    w = ", $in".toList ∨ ∃ last, last <:+ name ∧ w = last ++ '\'' :: ", $in".toList := by
  have hfront : '\'' ∉ "LR::p($cx, ".toList := by decide
  have hvalue : '\'' ∉ ", $in".toList := by decide
  rw [callTo_eq] at h
  rcases suffix_append_cases h with h | ⟨last, hlast, -⟩
  · rcases List.suffix_cons_iff.mp h with h | h
    · exact .inr ⟨name, List.suffix_refl _, (List.cons.inj h).2⟩
    · rcases suffix_append_cases h with h | ⟨last, hlast, rfl⟩
      · rcases List.suffix_cons_iff.mp h with h | h
        · exact .inl (List.cons.inj h).2
        · exact absurd (h.subset List.mem_cons_self) hvalue
      · exact .inr ⟨last, (List.suffix_cons _ last).trans hlast, rfl⟩
  · exact absurd (hlast.subset List.mem_cons_self) hfront

/-! ## What the passes do to a call -/

variable {name s t : Text}

/-- The name of a call is rewritten where the call stands, if what is replaced has no apostrophe. -/
theorem callTo_isInfix_replace {old new : Text} (hhead : old.head? = some '!') (hquote : '\'' ∉ old)
    (hacross : ∀ v ∈ old.tail.tails, v ≠ [] → ¬ v.take 2 <+: "LR".toList)
    (h : callTo name <:+: s) : callTo (replace old new name) <:+: replace old new s := by
  obtain ⟨a, b, rfl⟩ := h
  obtain ⟨rest, rfl⟩ : ∃ rest, old = '!' :: rest := List.head?_eq_some_iff.mp hhead
  have hne : '!' :: rest ≠ [] := List.cons_ne_nil _ _
  have hfront : '!' ∉ "LR::p($cx, ".toList := by decide
  have hvalue : '!' ∉ ", $in".toList := by decide
  have hinside : ∀ v, v <:+ "LR::p($cx, ".toList → v ≠ [] → ¬ '!' :: rest <+: v ++ [] := by
    rintro v hv hne ⟨r, hr⟩
    obtain ⟨c, w, rfl⟩ := List.exists_cons_of_ne_nil hne
    obtain ⟨rfl, -⟩ := List.cons.inj hr
    exact hfront (hv.subset List.mem_cons_self)
  have hreach : ∀ v, v <:+ rest → v ≠ [] → ¬ v <+: "LR::p($cx, ".toList ++ [] :=
    fun v hv hne => not_isPrefix_of_take (w := "LR".toList) hacross hv hne
  have hstart : ∃ front, replace ('!' :: rest) new (a ++ ("LR::p($cx, ".toList ++ [])) =
      front ++ ("LR::p($cx, ".toList ++ replace ('!' :: rest) new []) :=
    exists_replace_append hne hinside hreach a
  have hsplit : a ++ callTo name ++ b = (a ++ ("LR::p($cx, ".toList ++ [])) ++
      '\'' :: (name ++ '\'' :: (", $in".toList ++ b)) := by
    rw [callTo_eq, List.append_nil]
    simp only [List.append_assoc, List.cons_append]
  obtain ⟨front, hstart⟩ := hstart
  rw [hsplit, replace_append_cons hne hquote, hstart, replace_append_cons hne hquote,
    replace_append_of_head hvalue, callTo_eq, replace_nil hne, List.append_nil]
  refine ⟨front, replace ('!' :: rest) new b, ?_⟩
  simp only [List.append_assoc, List.cons_append]

theorem callTo_isInfix_indentLines (hline : '\n' ∉ name) (w : Text) (h : callTo name <:+: s) :
    callTo name <:+: indentLines w s := by
  obtain ⟨a, b, rfl⟩ := h
  have hcall : '\n' ∉ callTo name := by
    have hfront : '\n' ∉ "LR::p($cx, ".toList := by decide
    have hvalue : '\n' ∉ ", $in".toList := by decide
    rw [callTo_eq]
    simp only [List.mem_append, List.mem_cons, hfront, hline, hvalue]
    decide
  have hne : callTo name ≠ [] := List.append_ne_nil_of_right_ne_nil _ (by decide)
  obtain ⟨hlead, -⟩ := lead_of_line hne hcall w (Margin.fresh.after a)
  have hinside : callTo name <:+: lead w (Margin.fresh.after a) (callTo name) :=
    hlead ▸ (List.suffix_append _ _).isInfix
  have hwhole : lead w (Margin.fresh.after a) (callTo name) <:+: lead w .fresh (a ++ callTo name ++ b) := by
    rw [lead_append, lead_append]
    exact ⟨_, _, rfl⟩
  rw [indentLines_eq_laid, laid]
  exact (hinside.trans hwhole).trans (List.prefix_append _ _).isInfix

section

variable {f : Fragments} (hquote : '\'' ∉ f.separator) (hdollar : '$' ∉ f.separator)

/-- What is between the apostrophes of a margin. -/
def marginInside (f : Fragments) : Text :=
  f.separator ++ (indentParameter ++ f.separator)

theorem led_eq (f : Fragments) :
    margin f ++ selfIndented = '\'' :: (marginInside f ++ '\'' :: selfIndented) := by
  simp [margin_eq, marginInside]

include hquote in
theorem apostrophe_not_mem_marginInside : '\'' ∉ marginInside f := by
  have hparameter : '\'' ∉ indentParameter := by decide
  simp [marginInside, hquote, hparameter]

include hquote hdollar in
/-- No margin that a mark follows starts in a call. -/
theorem not_led_isPrefix (hmark : ¬ selfIndented <:+: name) {v b : Text} (hv : v <:+ callTo name)
    (hne : v ≠ []) : ¬ margin f ++ selfIndented <+: v ++ b := by
  have hinside := apostrophe_not_mem_marginInside hquote
  have hhead : ∀ {r u : Text}, selfIndented ++ r ≠ ',' :: u := fun h => absurd (List.cons.inj h).1 (by decide)
  rintro ⟨r, hr⟩
  rw [led_eq, List.cons_append, List.append_assoc, List.cons_append] at hr
  obtain ⟨c, w, rfl⟩ := List.exists_cons_of_ne_nil hne
  obtain ⟨rfl, htail⟩ := List.cons.inj hr
  rcases suffix_callTo hv with rfl | ⟨last, hlast, rfl⟩
  · -- behind the name the next variable is the value
    have hsplit : f.separator ++ '$' :: ("sp".toList ++ (f.separator ++ '\'' :: (selfIndented ++ r))) =
        ", ".toList ++ '$' :: ("in".toList ++ b) := by
      rw [marginInside, List.append_assoc, List.append_assoc] at htail
      exact htail
    obtain ⟨-, hname⟩ := eq_of_append_cons hdollar (by decide) hsplit
    exact absurd (List.cons.inj hname).1 (by decide)
  · have htail : marginInside f ++ '\'' :: (selfIndented ++ r) =
        last ++ '\'' :: (", $in".toList ++ b) := htail.trans (List.append_assoc ..)
    rcases List.append_eq_append_iff.mp htail with ⟨u, rfl, hu⟩ | ⟨u, hu, hrest⟩
    · cases u with
      | nil => exact hhead (List.cons.inj hu).2
      | cons d u =>
          obtain ⟨rfl, hprefix⟩ := List.cons.inj hu
          have hkept := prefix_of_prefix_append_cons (by decide) ⟨r, hprefix⟩
          have hpart : selfIndented <:+: marginInside f ++ '\'' :: u :=
            hkept.isInfix.trans (List.infix_cons (List.infix_refl u) |>.trans (List.suffix_append _ _).isInfix)
          exact hmark (hpart.trans hlast.isInfix)
    · cases u with
      | nil => exact hhead (List.cons.inj hrest).2.symm
      | cons d u =>
          obtain ⟨rfl, -⟩ := List.cons.inj hrest
          exact hinside (hu ▸ List.mem_append_right last List.mem_cons_self)

include hquote in
/-- No margin that a mark follows reaches into a call, and no such mark. -/
theorem not_isPrefix_callTo (hmark : ¬ selfIndented <:+: name) {v b : Text}
    (hv : v <:+ (margin f ++ selfIndented).tail) (hne : v ≠ []) : ¬ v <+: callTo name ++ b := by
  have hinside := apostrophe_not_mem_marginInside hquote
  rintro ⟨r, hr⟩
  rw [led_eq, List.tail_cons] at hv
  obtain ⟨c, w, rfl⟩ := List.exists_cons_of_ne_nil hne
  rcases suffix_append_cases hv with hv | ⟨last, hlast, rfl⟩
  · rcases List.suffix_cons_iff.mp hv with h | hv
    · rw [h] at hr
      exact absurd (List.cons.inj hr).1 (by decide)
    · exact not_isPrefix_of_take (w := "LR".toList) (by decide) hv hne ⟨r, hr⟩
  · have hlast' : '\'' ∉ c :: last := fun h => hinside (hlast.subset h)
    have hsplit : (c :: last) ++ '\'' :: (selfIndented ++ r) =
        "LR::p($cx, ".toList ++ '\'' :: (name ++ '\'' :: (", $in".toList ++ b)) := by
      rw [callTo_eq] at hr
      simp only [List.append_assoc, List.cons_append] at hr ⊢
      exact hr
    obtain ⟨-, hname⟩ := eq_of_append_cons hlast' (by decide) hsplit
    exact hmark (prefix_of_prefix_append_cons (by decide) ⟨r, hname⟩).isInfix

include hquote hdollar in
theorem callTo_isInfix_unmark (hmark : ¬ selfIndented <:+: name) (h : callTo name <:+: s) :
    callTo name <:+: unmark f s := by
  obtain ⟨a, b, rfl⟩ := h
  have hled : callTo name <:+: replace (margin f ++ selfIndented) [] (a ++ callTo name ++ b) := by
    have hne : margin f ++ selfIndented ≠ [] := List.append_ne_nil_of_right_ne_nil _ (by decide)
    have hkept : ∃ front, replace (margin f ++ selfIndented) [] (a ++ (callTo name ++ b)) =
        front ++ (callTo name ++ replace (margin f ++ selfIndented) [] b) :=
      exists_replace_append hne (fun v hv hv' => not_led_isPrefix hquote hdollar hmark hv hv')
        (fun v hv hv' => not_isPrefix_callTo hquote hmark hv hv') a
    obtain ⟨front, hfront⟩ := hkept
    rw [List.append_assoc, hfront]
    exact ⟨front, _, List.append_assoc ..⟩
  have hcall : callTo (replace selfIndented [] name) <:+: unmark f (a ++ callTo name ++ b) :=
    callTo_isInfix_replace rfl (by decide) (by decide) hled
  have hself : replace selfIndented [] name = name := replace_of_not_infix (by decide) hmark
  rwa [hself] at hcall

end

/-- Rewriting the parameters of callables leaves a call alone. -/
theorem callTo_isInfix_of_recasts (hsolid : name.Solid) (hheader : ¬ [')', '\x7b'] <:+: name)
    (h : Recasts s t) (hs : callTo name <:+: s) : callTo name <:+: t := by
  obtain ⟨a, b, rfl⟩ := hs
  have hbars : Bars 'L' ∧ Bars '\'' := by decide
  have hfront : ∀ c ∈ "R::p($cx, '".toList, c ≠ 'f' ∧ c ≠ ')' := by decide
  have hvalue : ∀ c ∈ ", $in".toList, c ≠ 'f' ∧ c ≠ ')' := by decide
  have hcall : ∀ a b : Text, a ++ callTo name ++ b =
      a ++ 'L' :: ("R::p($cx, '".toList ++ (name ++ '\'' :: (", $in".toList ++ b))) := by
    intro a b
    have hopen : "LR::p($cx, ".toList ++ ['\''] = 'L' :: "R::p($cx, '".toList := by decide
    rw [callTo_eq, ← List.singleton_append (l := name ++ _), ← List.append_assoc _ ['\''], hopen]
    simp only [List.append_assoc, List.cons_append]
  rw [hcall] at h
  obtain ⟨a', r₁, rfl, -, h₁⟩ := h.split hbars.1
  obtain ⟨r₂, rfl, h₂⟩ := h₁.kept hfront
  obtain ⟨name', r₃, rfl, hname, h₃⟩ := h₂.split hbars.2
  obtain ⟨b', rfl, -⟩ := h₃.kept hvalue
  rw [hname.eq_self hsolid hheader, ← hcall]
  exact ⟨a', b', rfl⟩

/-- The passes over a callable, unmasking apart, leave the name alone. -/
structure Lasting (name : Text) : Prop where
  solid : name.Solid
  mark : ¬ selfIndented <:+: name
  header : ¬ [')', '\x7b'] <:+: name

/-- Callables get no margins, or the separator in a margin has no apostrophe and no dollar sign. -/
def PlainMargins (flags : Flags) (fragments : Fragments) : Prop :=
  flags.noIndent = true ∨ '\'' ∉ fragments.separator ∧ '$' ∉ fragments.separator

instance (flags : Flags) (fragments : Fragments) : Decidable (PlainMargins flags fragments) :=
  inferInstanceAs (Decidable (_ ∨ _))

theorem callTo_isInfix_unmask (h : callTo name <:+: s) : callTo (unmask name) <:+: unmask s :=
  callTo_isInfix_replace rfl (by decide) (by decide) h

theorem callTo_isInfix_threadIndent {f : Fragments} (hquote : '\'' ∉ f.separator)
    (hdollar : '$' ∉ f.separator) (hname : Lasting name) (h : callTo name <:+: s) :
    callTo name <:+: threadIndent f s := by
  have hline : '\n' ∉ name := fun hmem => absurd (hname.solid _ hmem) (by decide)
  have hlines := callTo_isInfix_indentLines hline (margin f) h
  have hmarks := callTo_isInfix_unmark hquote hdollar hname.mark hlines
  rw [threadIndent_eq, sweep_eq_capture _ _ _ (by simp)]
  exact callTo_isInfix_of_recasts hname.solid hname.header (recasts_capture false _) hmarks

theorem isInfix_define (f : Fragments) (further code : Text) : code <:+: define f further code := by
  refine ⟨"function ($cx, $in".toList ++ further ++ ") \x7b".toList ++ f.opening ++ ['\''],
    '\'' :: f.closing ++ ['\x7d'], ?_⟩
  unfold define
  simp only [List.append_assoc, List.cons_append, List.nil_append]

/-- A call in code that a callable is made of is in the callable, with its name unmasked. -/
theorem callTo_isInfix_callable {v : View} (hv : PlainMargins v.flags v.fragments)
    (hname : Lasting name) (h : callTo name <:+: s) : callTo (unmask name) <:+: callable v s := by
  unfold callable
  split
  · exact (callTo_isInfix_unmask h).trans (isInfix_define ..)
  · rename_i hindents
    obtain ⟨hquote, hdollar⟩ := hv.resolve_left hindents
    have hthreaded := callTo_isInfix_threadIndent hquote hdollar hname h
    exact (callTo_isInfix_unmask hthreaded).trans (isInfix_define ..)

/-! ## Names that last -/

/-- The name has no bell, as masks and marks have, and no end of parameters. -/
structure Kept (name : Text) : Prop where
  bell : bell ∉ name
  header : ¬ [')', '\x7b'] <:+: name

instance (name : Text) : Decidable (Kept name) :=
  decidable_of_iff (bell ∉ name ∧ ¬ [')', '\x7b'] <:+: name)
    ⟨fun h => ⟨h.1, h.2⟩, fun h => ⟨h.bell, h.header⟩⟩

/-- A mark would be seen in the unmasked name, as its bell is not the one of a masked keyword. -/
theorem bell_mem_unmask (h : selfIndented <:+: name) : bell ∈ unmask name := by
  obtain ⟨a, b, rfl⟩ := h
  have hinside : ∀ v, v <:+ [bell, 'S'] → v ≠ [] → ¬ sentinel <+: v ++ ("eLfInDeNt\x07!!".toList ++ b) := by
    rintro v hv hne ⟨r, hr⟩
    obtain ⟨c, w, rfl⟩ := List.exists_cons_of_ne_nil hne
    obtain ⟨rfl, -⟩ := List.cons.inj hr
    exact absurd (hv.subset List.mem_cons_self) (by decide)
  have hacross : ∀ v, v <:+ sentinel.tail → v ≠ [] →
      ¬ v <+: [bell, 'S'] ++ ("eLfInDeNt\x07!!".toList ++ b) :=
    fun v hv hne => not_isPrefix_of_take (w := [bell, 'S']) (by decide) hv hne
  have hkept : ∃ front, unmask (a ++ "!!".toList ++ ([bell, 'S'] ++ ("eLfInDeNt\x07!!".toList ++ b))) =
      front ++ ([bell, 'S'] ++ unmask ("eLfInDeNt\x07!!".toList ++ b)) :=
    exists_replace_append sentinel_ne_nil hinside hacross _
  have hsplit : a ++ selfIndented ++ b =
      a ++ "!!".toList ++ ([bell, 'S'] ++ ("eLfInDeNt\x07!!".toList ++ b)) := by
    rw [List.append_assoc, List.append_assoc]
    rfl
  obtain ⟨front, hfront⟩ := hkept
  rw [hsplit, hfront]
  simp

theorem header_isInfix_unmask (h : [')', '\x7b'] <:+: name) : [')', '\x7b'] <:+: unmask name := by
  obtain ⟨a, b, rfl⟩ := h
  have hkept : unmask (a ++ ')' :: ([] ++ '\x7b' :: b)) = unmask a ++ ')' :: ([] ++ '\x7b' :: unmask b) := by
    unfold unmask
    rw [replace_append_cons sentinel_ne_nil (by decide), replace_append_cons sentinel_ne_nil (by decide),
      replace_nil sentinel_ne_nil]
  rw [List.append_assoc]
  exact hkept ▸ ⟨unmask a, unmask b, by simp⟩

theorem solid_unmask (h : name.Solid) : (unmask name).Solid :=
  h.replace sentinel_ne_nil (by decide)

theorem Kept.lasting (h : Kept (unmask name)) (hsolid : name.Solid) : Lasting name :=
  ⟨hsolid, fun hmark => h.bell (bell_mem_unmask hmark), fun hheader => h.header (header_isInfix_unmask hheader)⟩

theorem Kept.lasting_unmask (h : Kept (unmask name)) (hsolid : name.Solid) : Lasting (unmask name) :=
  ⟨solid_unmask hsolid, fun hmark => h.bell (hmark.subset (by decide)), h.header⟩

end Handlebars

end Inlay
