import Mathlib.Logic.Relation
import Inlay.Proofs.LexedCallables
import Inlay.Proofs.UnitCallables

/-!
# Margins in nested callables

The pass over code puts a margin behind every newline, also in a callable
that stands in the code. So a callable has one more margin before each of its
lines but the first one for every pass over it. All else that the pass does
to a callable without bells is to rewrite ends of parameters, and these do
not reach over margins or from one line to the next.
-/

namespace Inlay.Callable

open Text Keyword

/-! ## Where rewriting stops -/

/-- The character is in no end of parameters that is rewritten. -/
def Bars (c : Char) : Prop :=
  Stops c ∧ c ≠ ')' ∧ c ≠ '\x7b'

instance : DecidablePred Bars :=
  fun c => inferInstanceAs (Decidable (Stops c ∧ c ≠ ')' ∧ c ≠ '\x7b'))

namespace Recast

variable {x y : Text} (h : Recast x y)

include h

theorem not_mem {c : Char} (hc : Bars c) : c ∉ x := by
  obtain ⟨⟨hword, hblank, hopen⟩, hclose, hbrace⟩ := hc
  cases h with
  | @front gap hgap =>
      have hmem : c ∉ gap := fun hmem => absurd (hgap c hmem) (by simp [hblank])
      simp [hword, hmem, hopen]
  | @back gap hgap =>
      have hmem : c ∉ gap := fun hmem => absurd (hgap c hmem) (by simp [hblank])
      simp [hclose, hmem, hbrace]

theorem last : ∃ u c, x = u ++ [c] ∧ c ≠ '\n' := by
  cases h with
  | @front gap => exact ⟨word ++ gap, '(', by simp, by decide⟩
  | @back gap => exact ⟨')' :: gap, '\x7b', rfl, by decide⟩

theorem head_right : ∃ c u, y = c :: u ∧ c ≠ '\'' := by
  cases h with
  | front => exact ⟨'f', _, rfl, by decide⟩
  | back => exact ⟨')', _, rfl, by decide⟩

theorem subset_right : y ⊆ "function()use$sp\x7b".toList := by
  cases h <;> decide

end Recast

namespace Recasts

variable {s t r : Text}

/-- Rewriting is done apart on the two sides of such a character. -/
theorem split {c : Char} (hc : Bars c) (h : Recasts (s ++ c :: r) t) :
    ∃ s' r', t = s' ++ c :: r' ∧ Recasts s s' ∧ Recasts r r' := by
  generalize hw : s ++ c :: r = w at h
  induction h generalizing s with
  | nil => exact absurd hw (List.append_ne_nil_of_right_ne_nil s (List.cons_ne_nil c r))
  | @keep d w t h ih =>
      cases s with
      | nil =>
          obtain ⟨rfl, rfl⟩ := List.cons.inj hw
          exact ⟨[], t, rfl, .nil, h⟩
      | cons e s =>
          obtain ⟨rfl, htail⟩ := List.cons.inj hw
          obtain ⟨s', r', rfl, hs, hr⟩ := ih htail
          exact ⟨e :: s', r', rfl, .keep e hs, hr⟩
  | @rewrite x y w t hxy h ih =>
      rcases List.append_eq_append_iff.mp hw with ⟨m, rfl, hm⟩ | ⟨m, rfl, hm⟩
      · cases m with
        | nil =>
            obtain ⟨s', r', rfl, hs, hr⟩ := ih (s := []) hm
            rw [List.append_nil] at hxy
            exact ⟨y ++ s', r', (List.append_assoc ..).symm,
              List.append_nil s ▸ .rewrite hxy hs, hr⟩
        | cons d m =>
            obtain ⟨rfl, -⟩ := List.cons.inj hm
            exact absurd (List.mem_append_right s List.mem_cons_self) (hxy.not_mem hc)
      · obtain ⟨s', r', rfl, hs, hr⟩ := ih hm.symm
        exact ⟨y ++ s', r', (List.append_assoc ..).symm, .rewrite hxy hs, hr⟩

/-- No end of parameters has a newline as its last character. -/
theorem before_newline (h : Recasts (s ++ ['\n']) t) : ∃ s', t = s' ++ ['\n'] ∧ Recasts s s' := by
  generalize hw : s ++ ['\n'] = w at h
  induction h generalizing s with
  | nil => exact absurd hw (List.append_ne_nil_of_right_ne_nil s (List.cons_ne_nil _ _))
  | @keep d w t h ih =>
      cases s with
      | nil =>
          obtain ⟨rfl, rfl⟩ := List.cons.inj hw
          obtain rfl := h.of_nil
          exact ⟨[], rfl, .nil⟩
      | cons e s =>
          obtain ⟨rfl, htail⟩ := List.cons.inj hw
          obtain ⟨s', rfl, hs⟩ := ih htail
          exact ⟨e :: s', rfl, .keep e hs⟩
  | @rewrite x y w t hxy h ih =>
      rcases List.append_eq_append_iff.mp hw with ⟨m, rfl, hm⟩ | ⟨m, rfl, hm⟩
      · cases m with
        | nil =>
            obtain ⟨s', rfl, hs⟩ := ih (s := []) hm
            rw [List.append_nil] at hxy
            exact ⟨y ++ s', (List.append_assoc ..).symm, List.append_nil s ▸ .rewrite hxy hs⟩
        | cons d m =>
            obtain ⟨rfl, hrest⟩ := List.cons.inj hm
            obtain ⟨rfl, -⟩ := List.append_eq_nil_iff.mp hrest.symm
            obtain ⟨u, c, hlast, hc⟩ := hxy.last
            exact absurd (List.cons.inj (List.append_inj_right' hlast rfl)).1.symm hc
      · obtain ⟨s', rfl, hs⟩ := ih hm.symm
        exact ⟨y ++ s', (List.append_assoc ..).symm, .rewrite hxy hs⟩

theorem not_mem {c : Char} (hc : c ∉ "function()use$sp\x7b".toList) (h : Recasts s t) (hs : c ∉ s) :
    c ∉ t := by
  induction h with
  | nil => exact hs
  | keep d _ ih =>
      obtain ⟨hd, hs⟩ := not_or.mp (List.mem_cons.not.mp hs)
      exact List.not_mem_cons_of_ne_of_not_mem hd (ih hs)
  | rewrite hxy _ ih =>
      intro hmem
      rcases List.mem_append.mp hmem with hmem | hmem
      · exact hc (hxy.subset_right hmem)
      · exact ih (fun h => hs (List.mem_append_right _ h)) hmem

theorem head_ne (h : Recasts s t) (hs : s.head? ≠ some '\'') : t.head? ≠ some '\'' := by
  cases h with
  | nil => exact hs
  | keep => exact hs
  | rewrite hxy =>
      obtain ⟨c, u, rfl, hc⟩ := hxy.head_right
      simpa using hc

end Recasts

/-- Passes over code have rewritten the first text to the second one. -/
abbrev Rewritten : Text → Text → Prop :=
  Relation.ReflTransGen Recasts

namespace Rewritten

variable {s t : Text}

theorem not_mem {c : Char} (hc : c ∉ "function()use$sp\x7b".toList) (h : Rewritten s t)
    (hs : c ∉ s) : c ∉ t := by
  induction h with
  | refl => exact hs
  | tail _ hstep ih => exact hstep.not_mem hc ih

theorem head_ne (h : Rewritten s t) (hs : s.head? ≠ some '\'') : t.head? ≠ some '\'' := by
  induction h with
  | refl => exact hs
  | tail _ hstep ih => exact hstep.head_ne ih

theorem forall₂_tail {lines middle others : List Text} (h : List.Forall₂ Rewritten lines middle)
    (hstep : List.Forall₂ Recasts middle others) : List.Forall₂ Rewritten lines others := by
  induction h generalizing others with
  | nil =>
      cases hstep
      exact .nil
  | cons hline _ ih =>
      cases hstep with
      | cons hrecast hrest => exact .cons (hline.tail hrecast) (ih hrest)

theorem exists_of_mem {lines others : List Text} (h : List.Forall₂ Rewritten lines others) :
    ∀ other ∈ others, ∃ line ∈ lines, Rewritten line other := by
  induction h with
  | nil => exact fun other hother => nomatch hother
  | cons hline _ ih =>
      refine List.forall_mem_cons.mpr ⟨⟨_, List.mem_cons_self, hline⟩, fun other hother => ?_⟩
      obtain ⟨line, hmem, hrewritten⟩ := ih other hother
      exact ⟨line, List.mem_cons_of_mem _ hmem, hrewritten⟩

end Rewritten

/-! ## Lines with margins -/

/-- So many margins. -/
def margins (k : Nat) : Text :=
  (List.replicate k (margin .standard)).flatten

theorem margins_succ (k : Nat) : margins (k + 1) = margin .standard ++ margins k := by
  simp [margins, List.replicate_succ]

theorem mem_margins {k : Nat} {c : Char} (h : c ∈ margins k) : c ∈ margin .standard := by
  obtain ⟨m, hm, hc⟩ := List.mem_flatten.mp h
  rwa [List.eq_of_mem_replicate hm] at hc

theorem newline_not_mem_margins (k : Nat) : '\n' ∉ margins k :=
  fun h => absurd (mem_margins h) (by decide)

/-- The lines of a callable nested in `k` others: a margin before the first one, and one more for
each of the others before the next ones. -/
def ledLines (k : Nat) (first : Text) (rest : List Text) : Text :=
  margin .standard ++ (first ++ rest.flatMap fun line => '\n' :: (margins (k + 1) ++ line))

/-- Each later line has more margins than the line of a callable that is in no other. -/
theorem length_ledLines (k : Nat) (first : Text) (rest : List Text) :
    (ledLines k first rest).length =
      (ledLines 0 first rest).length + rest.length * (margins k).length := by
  have hlater : (rest.flatMap fun line => '\n' :: (margins (k + 1) ++ line)).length =
      (rest.flatMap fun line => '\n' :: (margins 1 ++ line)).length +
        rest.length * (margins k).length := by
    induction rest with
    | nil => simp
    | cons line rest ih =>
        have hmargins : (margins (k + 1)).length = (margins 1).length + (margins k).length := by
          rw [margins_succ, margins_succ, List.length_append, List.length_append]
          rfl
        simp only [List.flatMap_cons, List.length_append, List.length_cons, ih, hmargins,
          Nat.add_mul, Nat.one_mul]
        omega
  simp only [ledLines, List.length_append, hlater, Nat.zero_add]
  omega

/-- Only a single line has no more margins in other callables. -/
theorem ledLines_eq_zero_iff {k : Nat} (hk : 0 < k) {first : Text} {rest : List Text} :
    ledLines k first rest = ledLines 0 first rest ↔ rest = [] := by
  constructor
  · intro h
    have hmore : rest.length * (margins k).length = 0 := by
      have hlength := length_ledLines k first rest
      rw [h] at hlength
      omega
    have hmargin : 0 < (margins k).length := by
      obtain ⟨k, rfl⟩ := Nat.exists_eq_add_one.mpr hk
      rw [margins_succ]
      exact Nat.succ_pos _
    exact List.eq_nil_of_length_eq_zero ((Nat.mul_eq_zero.mp hmore).resolve_right hmargin.ne')
  · rintro rfl
    rfl

/-- What is behind the lines: if a newline ends the last one, then a margin for each of the other
callables. -/
def ledEnd (k : Nat) (ended : Bool) : Text :=
  if ended then '\n' :: margins k else []

/-- A callable with this header, up to its last brace. -/
def ledCallable (k : Nat) (header first : Text) (rest : List Text) (ended : Bool) : Text :=
  header ++ '\'' :: (ledLines k first rest ++ (ledEnd k ended ++ "';".toList))

section

variable {k : Nat} {header first : Text} {rest : List Text} {ended : Bool}

/-- One more margin comes behind every newline. -/
theorem indentAll_ledCallable (hheader : '\n' ∉ header)
    (hlines : ∀ line ∈ first :: rest, '\n' ∉ line) :
    indentAll (margin .standard) (ledCallable k header first rest ended) =
      ledCallable (k + 1) header first rest ended := by
  have hnewline : ∀ s : Text, '\n' ∉ s →
      indentAll (margin .standard) ('\n' :: s) = '\n' :: (margin .standard ++ s) := by
    intro s hs
    rw [indentAll_cons, indentAll_newline, indentAll_of_not_mem _ hs, List.cons_append]
  obtain ⟨hfirst, hrest⟩ := List.forall_mem_cons.mp hlines
  have hlater : indentAll (margin .standard)
      (rest.flatMap fun line => '\n' :: (margins (k + 1) ++ line)) =
        rest.flatMap fun line => '\n' :: (margins (k + 1 + 1) ++ line) := by
    clear hlines
    induction rest with
    | nil => rfl
    | cons line rest ih =>
        obtain ⟨hline, hrest⟩ := List.forall_mem_cons.mp hrest
        have hled : '\n' ∉ margins (k + 1) ++ line := fun h =>
          (List.mem_append.mp h).elim (newline_not_mem_margins _) hline
        rw [List.flatMap_cons, indentAll_append, hnewline _ hled, ih hrest, List.flatMap_cons,
          margins_succ (k + 1), List.append_assoc]
  have hend : indentAll (margin .standard) (ledEnd k ended) = ledEnd (k + 1) ended := by
    cases ended with
    | false => rfl
    | true =>
        rw [ledEnd, if_pos rfl, hnewline _ (newline_not_mem_margins k), ← margins_succ]
        rfl
  have hmargin : '\n' ∉ '\'' :: margin .standard := by decide
  unfold ledCallable ledLines
  rw [indentAll_append, indentAll_of_not_mem _ hheader, indentAll_cons,
    indentAll_append, indentAll_append, indentAll_append, indentAll_append, hlater, hend,
    indentAll_of_not_mem _ hfirst]
  rfl

namespace Recasts

variable {s t : Text}

theorem after_margins (h : Recasts (margins k ++ s) t) : ∃ u, t = margins k ++ u ∧ Recasts s u := by
  have hmargin : ∀ c ∈ margin .standard, c ≠ 'f' ∧ c ≠ ')' := by decide
  exact h.kept fun c hc => hmargin c (mem_margins hc)

/-- A line before margins is rewritten by itself. -/
theorem line (h : Recasts (first ++ '\n' :: (margins (k + 1) ++ s)) t) :
    ∃ first' u, t = first' ++ '\n' :: (margins (k + 1) ++ u) ∧ Recasts first first' ∧
      Recasts s u := by
  have hsplit : first ++ '\n' :: (margins (k + 1) ++ s) =
      (first ++ ['\n']) ++ '\'' :: ((margin .standard).tail ++ (margins k ++ s)) := by
    rw [margins_succ, List.append_assoc]
    simp only [List.append_assoc]
    rfl
  rw [hsplit] at h
  obtain ⟨x, y, rfl, hx, hy⟩ := h.split (by decide)
  obtain ⟨first', rfl, hfirst⟩ := hx.before_newline
  have htail : ∀ c ∈ (margin .standard).tail, c ≠ 'f' ∧ c ≠ ')' := by decide
  obtain ⟨z, rfl, hz⟩ := hy.kept htail
  obtain ⟨u, rfl, hu⟩ := hz.after_margins
  refine ⟨first', u, ?_, hfirst, hu⟩
  rw [margins_succ, List.append_assoc]
  simp only [List.append_assoc]
  rfl

/-- Rewriting leaves margins and newlines where they are. -/
theorem lines (h : Recasts (first ++
      ((rest.flatMap fun line => '\n' :: (margins (k + 2) ++ line)) ++
        (ledEnd (k + 1) ended ++ '\'' :: s))) t) :
    ∃ first' rest' u,
      t = first' ++ ((rest'.flatMap fun line => '\n' :: (margins (k + 2) ++ line)) ++
        (ledEnd (k + 1) ended ++ '\'' :: u)) ∧
      Recasts first first' ∧ List.Forall₂ Recasts rest rest' ∧ Recasts s u := by
  induction rest generalizing first t with
  | nil =>
      cases ended with
      | false =>
          obtain ⟨first', u, rfl, hfirst, hu⟩ := h.split (by decide)
          exact ⟨first', [], u, rfl, hfirst, .nil, hu⟩
      | true =>
          obtain ⟨first', x, rfl, hfirst, hx⟩ := line h
          obtain ⟨u, rfl, hu⟩ := Recasts.kept (x := ['\'']) (by decide) hx
          exact ⟨first', [], u, rfl, hfirst, .nil, hu⟩
  | cons next rest ih =>
      rw [List.flatMap_cons, List.append_assoc, List.cons_append, List.append_assoc] at h
      obtain ⟨first', x, rfl, hfirst, hx⟩ := line h
      obtain ⟨next', rest', u, rfl, hnext, hrest, hu⟩ := ih hx
      refine ⟨first', next' :: rest', u, ?_, hfirst, .cons hnext hrest, hu⟩
      rw [List.flatMap_cons, List.append_assoc, List.cons_append, List.append_assoc]

theorem ledCallable (h : Recasts (ledCallable (k + 1) header first rest ended) t) :
    ∃ header' first' rest', t = Callable.ledCallable (k + 1) header' first' rest' ended ∧
      Recasts header header' ∧ List.Forall₂ Recasts (first :: rest) (first' :: rest') := by
  unfold Callable.ledCallable ledLines at h
  simp only [List.append_assoc] at h
  obtain ⟨header', x, rfl, hheader, hx⟩ := h.split (by decide)
  obtain ⟨y, rfl, hy⟩ := Recasts.kept (x := margin .standard) (by decide) hx
  obtain ⟨first', rest', z, rfl, hfirst, hrest, hz⟩ := lines (s := ";".toList) hy
  obtain ⟨u, rfl, hu⟩ := Recasts.kept (x := ";".toList) (s := []) (by decide) hz
  obtain rfl := hu.of_nil
  refine ⟨header', first', rest', ?_, hheader, .cons hfirst hrest⟩
  unfold Callable.ledCallable ledLines
  simp only [List.append_assoc]
  rfl

end Recasts

end

/-! ## A pass over code with a callable -/

/-- A line ends before the newlines of a text only where something follows. -/
theorem lead_append_of_line {s : Text} {r : Text} (hr : r ≠ []) (hline : '\n' ∉ r) (w : Text) :
    lead w .paid (s ++ r) = indentAll w s ++ r := by
  have hspace : ' ' :: lead w .paid (s ++ r) = ' ' :: (indentAll w s ++ r) := by
    have hindent := lead_next w ' ' (s ++ r)
    rw [← List.cons_append, indentBreaks_append w hr, indentBreaks_of_no_newline hline] at hindent
    exact hindent
  exact (List.cons.inj hspace).2

section

variable {a seg b : Text}

theorem exists_indentLines_around (a seg b : Text) : ∃ x y, indentLines (margin .standard)
    (a ++ ',' :: ((' ' :: seg) ++ '\x7d' :: b)) =
      x ++ ',' :: ((' ' :: indentAll (margin .standard) seg) ++ '\x7d' :: y) := by
  have hpieces : a ++ ',' :: ((' ' :: seg) ++ '\x7d' :: b) =
      a ++ (", ".toList ++ ((seg ++ ['\x7d']) ++ b)) := by
    simp only [List.append_assoc, List.cons_append, List.nil_append]
    rfl
  refine ⟨lead (margin .standard) .fresh a ++ (Margin.fresh.after a).owed (margin .standard),
    laid (margin .standard) (Margin.paid.after (seg ++ ['\x7d'])) b, ?_⟩
  rw [hpieces, indentLines_eq_laid, laid_append, laid_append_of_line (by decide) (by decide),
    laid_append, lead_append_of_line (by decide) (by decide)]
  simp only [List.append_assoc]
  rfl

/-- A replacement of what has neither a comma nor a brace is done between them by itself. -/
theorem replace_around {old : Text} (hold : old ≠ []) (hcomma : ',' ∉ old) (hbrace : '\x7d' ∉ old)
    (new : Text) (h : replace old new seg = seg) :
    replace old new (a ++ ',' :: (seg ++ '\x7d' :: b)) =
      replace old new a ++ ',' :: (seg ++ '\x7d' :: replace old new b) := by
  rw [replace_append_cons hold hcomma, replace_append_cons hold hbrace, h]

theorem exists_capture_around (a seg b : Text) : ∃ x seg' y,
    capture false (a ++ ',' :: ((' ' :: seg) ++ '\x7d' :: b)) =
      x ++ ',' :: ((' ' :: seg') ++ '\x7d' :: y) ∧ Recasts seg seg' := by
  have hrecasts := recasts_capture false (a ++ ',' :: ((' ' :: seg) ++ '\x7d' :: b))
  obtain ⟨x, z, hcaptured, -, hz⟩ := hrecasts.split (by decide)
  obtain ⟨u, y, rfl, hu, -⟩ := hz.split (by decide)
  obtain ⟨seg', rfl, hseg⟩ := Recasts.kept (x := [' ']) (by decide) hu
  exact ⟨x, seg', y, hcaptured, hseg⟩

theorem bell_not_mem_indentAll (hbell : bell ∉ seg) : bell ∉ indentAll (margin .standard) seg := by
  intro hmem
  obtain ⟨c, hc, hmem⟩ := List.mem_flatMap.mp hmem
  split at hmem
  · rename_i hnewline
    subst hnewline
    exact absurd hmem (by decide)
  · exact hbell (List.mem_singleton.mp hmem ▸ hc)

theorem replace_of_bell {old s : Text} (hold : bell ∈ old) (hs : bell ∉ s) (new : Text) :
    replace old new s = s :=
  replace_of_not_infix (List.ne_nil_of_mem hold) fun hinside => hs (hinside.subset hold)

/-- A pass over code goes over the callable of a block by itself: it puts margins behind newlines
and rewrites ends of parameters. -/
theorem exists_threaded (hbell : bell ∉ seg) : ∃ a' seg' b',
    unmask (threadIndent .standard (a ++ ',' :: ((' ' :: seg) ++ '\x7d' :: b))) =
      a' ++ ',' :: ((' ' :: seg') ++ '\x7d' :: b') ∧
    Recasts (indentAll (margin .standard) seg) seg' := by
  have hled := bell_not_mem_indentAll hbell
  have hspace : ∀ {s : Text}, bell ∉ s → bell ∉ ' ' :: s :=
    fun h => List.not_mem_cons_of_ne_of_not_mem (by decide) h
  obtain ⟨x, y, hindented⟩ := exists_indentLines_around a seg b
  have hunled :=
    replace_of_bell (by decide : bell ∈ margin .standard ++ selfIndented) (hspace hled) []
  have hunmarked := replace_of_bell (by decide : bell ∈ selfIndented) (hspace hled) []
  rw [threadIndent_eq, hindented, unmark,
    replace_around (by decide) (by decide) (by decide) _ hunled,
    replace_around (by decide) (by decide) (by decide) _ hunmarked,
    sweep_eq_capture _ _ _ (by simp)]
  obtain ⟨x', seg', y', hcaptured, hseg⟩ := exists_capture_around _ _ _
  have hmasked := replace_of_bell (by decide : bell ∈ sentinel)
    (hspace (hseg.not_mem (by decide) hled)) word
  rw [hcaptured, unmask, replace_around (by decide) (by decide) (by decide) _ hmasked]
  exact ⟨_, seg', _, rfl, hseg⟩

end

end Inlay.Callable
