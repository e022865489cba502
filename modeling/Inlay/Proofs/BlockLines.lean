import Inlay.Proofs.NestedMargins
import Inlay.Proofs.PlainUnits

/-!
# Lines of block bodies

The body of a block becomes a callable in the code around it, and each text
that it is nested in is compiled apart. So the code of the body is gone over
once for itself, which puts a margin before each line, and once more for each
of the texts around it, which puts a margin behind each newline. The first
line keeps its one margin, and later lines have more of them.
-/

namespace Inlay

/-- The lines of a text. A newline at the very end opens no line. -/
def Text.lines : Text → List Text
  | [] => [[]]
  | [c] => if c = '\n' then [[]] else [[c]]
  | c :: d :: s =>
      if c = '\n' then [] :: Text.lines (d :: s) else (Text.lines (d :: s)).modifyHead (c :: ·)

/-- A newline ends the last line. -/
def Text.ended (s : Text) : Bool :=
  s.getLast? = some '\n'

namespace Text

theorem quote_cons (c : Char) (s : Text) : quote (c :: s) = quote [c] ++ quote s :=
  quote_append [c] s

theorem quote_cons_ne_nil (c : Char) (s : Text) : quote (c :: s) ≠ [] := by
  have hchar : quote [c] ≠ [] := by
    by_cases hc : c = '\''
    · subst hc
      exact List.cons_ne_nil _ _
    · simp [quote, hc]
  rw [quote_cons]
  exact List.append_ne_nil_of_left_ne_nil hchar _

theorem newline_not_mem_quote {s : Text} (h : '\n' ∉ s) : '\n' ∉ s.quote :=
  fun hmem => h (mem_of_mem_quote (by decide) hmem)

theorem head?_quote_ne (s : Text) : s.quote.head? ≠ some '\'' := by
  cases s with
  | nil => simp
  | cons c s =>
      by_cases hc : c = '\''
      · subst hc
        simp [quote]
      · simp [quote, hc]

theorem newline_not_mem_lines (s : Text) : ∀ line ∈ s.lines, '\n' ∉ line := by
  fun_induction Text.lines s with
  | case1 => simp
  | case2 => simp
  | case3 c hc => simpa using Ne.symm hc
  | case4 d s ih => simpa using ih
  | case5 c d s hc ih =>
      cases hlines : Text.lines (d :: s) with
      | nil => simp
      | cons first rest =>
          rw [hlines] at ih
          obtain ⟨hfirst, hrest⟩ := List.forall_mem_cons.mp ih
          rw [List.modifyHead_cons]
          exact List.forall_mem_cons.mpr
            ⟨List.not_mem_cons_of_ne_of_not_mem (Ne.symm hc) hfirst, hrest⟩

/-- The text is its lines with newlines between them, and the newline that ends the last one. -/
theorem exists_lines (s : Text) : ∃ first rest, s.lines = first :: rest ∧
    s = first ++ (rest.flatMap ('\n' :: ·) ++ if s.ended then ['\n'] else []) := by
  fun_induction Text.lines s with
  | case1 => exact ⟨[], [], rfl, rfl⟩
  | case2 => exact ⟨[], [], rfl, rfl⟩
  | case3 c hc =>
      have hended : ended [c] = false := by simp [ended, hc]
      exact ⟨[c], [], rfl, by rw [hended]; rfl⟩
  | case4 d s ih =>
      obtain ⟨first, rest, hlines, htext⟩ := ih
      have hended : ended ('\n' :: d :: s) = ended (d :: s) := by simp [ended]
      refine ⟨[], first :: rest, by rw [hlines], ?_⟩
      rw [hended, List.flatMap_cons, List.nil_append, List.cons_append, List.cons_append,
        List.append_assoc, ← htext]
  | case5 c d s hc ih =>
      obtain ⟨first, rest, hlines, htext⟩ := ih
      have hended : ended (c :: d :: s) = ended (d :: s) := by simp [ended]
      refine ⟨c :: first, rest, by rw [hlines, List.modifyHead_cons], ?_⟩
      rw [hended, List.cons_append, ← htext]

theorem mem_of_mem_lines {s line : Text} {c : Char} (hline : line ∈ s.lines) (hc : c ∈ line) :
    c ∈ s := by
  obtain ⟨first, rest, hlines, htext⟩ := s.exists_lines
  rw [hlines] at hline
  rw [htext]
  rcases List.mem_cons.mp hline with rfl | hline
  · exact List.mem_append_left _ hc
  · refine List.mem_append_right _ (List.mem_append_left _ ?_)
    exact List.mem_flatMap.mpr ⟨line, hline, List.mem_cons_of_mem _ hc⟩

/-- Indentation is put before each line but the first one, also where the text is quoted. -/
theorem indentBreaks_quote (w s : Text) : ∃ first rest, s.lines = first :: rest ∧
    indentBreaks w s.quote = first.quote ++
      ((rest.map quote).flatMap (fun line => '\n' :: (w ++ line)) ++
        if s.ended then ['\n'] else []) := by
  fun_induction Text.lines s with
  | case1 => exact ⟨[], [], rfl, rfl⟩
  | case2 => exact ⟨[], [], rfl, rfl⟩
  | case3 c hc =>
      have hline : '\n' ∉ [c] := by simpa using Ne.symm hc
      have hended : ended [c] = false := by simp [ended, hc]
      refine ⟨[c], [], rfl, ?_⟩
      rw [indentBreaks_of_no_newline (newline_not_mem_quote hline), hended]
      simp
  | case4 d s ih =>
      obtain ⟨first, rest, hlines, hbreaks⟩ := ih
      have hended : ended ('\n' :: d :: s) = ended (d :: s) := by simp [ended]
      have hnewline : quote ['\n'] = ['\n'] := rfl
      refine ⟨[], first :: rest, by rw [hlines], ?_⟩
      rw [quote_cons, hnewline, indentBreaks_append w (quote_cons_ne_nil d s), indentAll_newline,
        hbreaks, hended, List.map_cons, List.flatMap_cons]
      simp only [quote_nil, List.nil_append, List.cons_append, List.append_assoc]
  | case5 c d s hc ih =>
      obtain ⟨first, rest, hlines, hbreaks⟩ := ih
      have hline : '\n' ∉ [c] := by simpa using Ne.symm hc
      have hended : ended (c :: d :: s) = ended (d :: s) := by simp [ended]
      refine ⟨c :: first, rest, by rw [hlines, List.modifyHead_cons], ?_⟩
      rw [quote_cons, indentBreaks_append w (quote_cons_ne_nil d s),
        indentAll_of_not_mem w (newline_not_mem_quote hline), hbreaks, hended, quote_cons c first,
        List.append_assoc]

end Text

namespace Handlebars

open Callable Compilation Keyword

/-! ## Callables of bodies -/

/-- How a callable starts that takes a margin. -/
def plainHeader : Text :=
  "function ($cx, $in, $sp) \x7breturn ".toList

/-- The callable of the body up to its last brace, after so many passes over code that it is in. -/
inductive LedBody (k : Nat) (body : Text) : Text → Prop
  | intro {header first : Text} {rest : List Text} :
      Rewritten plainHeader header →
      List.Forall₂ Rewritten (body.lines.map Text.quote) (first :: rest) →
      LedBody k body (ledCallable k header first rest body.ended)

section

variable {k : Nat} {body seg : Text}

theorem not_mem_quoted_lines {c : Char} (hc : c ∉ "\\function()use$sp\x7b".toList)
    {first : Text} {rest : List Text}
    (hlines : List.Forall₂ Rewritten (body.lines.map Text.quote) (first :: rest))
    (h : ∀ line ∈ body.lines, c ∉ line) : ∀ line ∈ first :: rest, c ∉ line := by
  obtain ⟨hslash, hc⟩ := not_or.mp (List.mem_cons.not.mp hc)
  intro line hline
  obtain ⟨quoted, hquoted, hrewritten⟩ := Rewritten.exists_of_mem hlines line hline
  obtain ⟨raw, hraw, rfl⟩ := List.mem_map.mp hquoted
  exact hrewritten.not_mem hc fun hmem => h raw hraw (Text.mem_of_mem_quote hslash hmem)

theorem head?_ne_of_mem {first : Text} {rest : List Text}
    (hlines : List.Forall₂ Rewritten (body.lines.map Text.quote) (first :: rest)) :
    ∀ line ∈ first :: rest, line.head? ≠ some '\'' := by
  intro line hline
  obtain ⟨quoted, hquoted, hrewritten⟩ := Rewritten.exists_of_mem hlines line hline
  obtain ⟨raw, -, rfl⟩ := List.mem_map.mp hquoted
  exact hrewritten.head_ne raw.head?_quote_ne

theorem LedBody.bell_not_mem (h : LedBody k body seg) (hbell : bell ∉ body) : bell ∉ seg := by
  obtain ⟨hheader, hlines⟩ := h
  rename_i header first rest
  have hstart : bell ∉ header := hheader.not_mem (by decide) (by decide)
  have hmargins : ∀ k, bell ∉ margins k := fun k hmem => absurd (mem_margins hmem) (by decide)
  have hmargin : bell ∉ margin .standard := by decide
  have hbreak : bell ≠ '\n' := by decide
  obtain ⟨hfirst, hrest⟩ := List.forall_mem_cons.mp <| not_mem_quoted_lines (by decide) hlines
    fun line hline hmem => hbell (Text.mem_of_mem_lines hline hmem)
  have hlater : bell ∉ rest.flatMap fun line => '\n' :: (margins (k + 1) ++ line) := by
    intro hmem
    obtain ⟨line, hline, hmem⟩ := List.mem_flatMap.mp hmem
    rcases List.mem_append.mp ((List.mem_cons.mp hmem).resolve_left hbreak) with hmem | hmem
    · exact hmargins _ hmem
    · exact hrest line hline hmem
  have hend : bell ∉ ledEnd k body.ended := by
    cases body.ended with
    | false => exact List.not_mem_nil
    | true => exact List.not_mem_cons_of_ne_of_not_mem hbreak (hmargins k)
  have hquote : bell ≠ '\'' := by decide
  have hclose : bell ∉ "';".toList := by decide
  simp only [ledCallable, ledLines, List.mem_append, List.mem_cons, not_or]
  exact ⟨hstart, hquote, ⟨hmargin, hfirst, hlater⟩, hend, hclose⟩

/-- A pass puts one more margin before each line but the first one. -/
theorem LedBody.pass (h : LedBody k body seg) {t : Text}
    (hpass : Recasts (Text.indentAll (margin .standard) seg) t) : LedBody (k + 1) body t := by
  obtain ⟨hheader, hlines⟩ := h
  rw [indentAll_ledCallable (hheader.not_mem (by decide) (by decide))
    (not_mem_quoted_lines (by decide) hlines body.newline_not_mem_lines)] at hpass
  obtain ⟨header, first, rest, rfl, hheader', hlines'⟩ := hpass.ledCallable
  exact .intro (hheader.tail hheader') (Rewritten.forall₂_tail hlines hlines')

/-- The code passes the callable of the body on. -/
def Shows (k : Nat) (body code : Text) : Prop :=
  ∃ seg, LedBody k body seg ∧ ", ".toList ++ (seg ++ ['\x7d']) <:+: code

namespace Shows

variable {code : Text}

theorem mono {code' : Text} (h : Shows k body code) (hinside : code <:+: code') :
    Shows k body code' := by
  obtain ⟨seg, hseg, hcode⟩ := h
  exact ⟨seg, hseg, hcode.trans hinside⟩

theorem pass (h : Shows k body code) (hbell : bell ∉ body) :
    Shows (k + 1) body (unmask (threadIndent .standard code)) := by
  obtain ⟨seg, hseg, a, b, rfl⟩ := h
  have hcode : (a ++ (", ".toList ++ (seg ++ ['\x7d']))) ++ b =
      a ++ ',' :: ((' ' :: seg) ++ '\x7d' :: b) := by
    simp only [List.append_assoc]
    rfl
  obtain ⟨a', seg', b', hthreaded, hpass⟩ :=
    exists_threaded (a := a) (b := b) (hseg.bell_not_mem hbell)
  rw [hcode, hthreaded]
  have hinside : a' ++ ',' :: ((' ' :: seg') ++ '\x7d' :: b') =
      (a' ++ (", ".toList ++ (seg' ++ ['\x7d']))) ++ b' := by
    simp only [List.append_assoc]
    rfl
  exact ⟨seg', hseg.pass hpass, a', b', hinside.symm⟩

end Shows

/-! ## The body by itself -/

theorem indentLines_quote (body : Text) : ∃ first rest, body.lines.map Text.quote = first :: rest ∧
    Text.indentLines (margin .standard) body.quote =
      ledLines 0 first rest ++ ledEnd 0 body.ended := by
  obtain ⟨first, rest, hlines, hbreaks⟩ := Text.indentBreaks_quote (margin .standard) body
  refine ⟨first.quote, rest.map Text.quote, by rw [hlines, List.map_cons], ?_⟩
  have hmargin : margins 1 = margin .standard := List.append_nil _
  unfold Text.indentLines ledLines
  rw [hbreaks, hmargin]
  simp only [List.append_assoc]
  rfl

/-- A pass over a text without tags only puts the margins before its lines. -/
theorem unmask_threadIndent_of_tagless (htags : body.tags = []) (hbell : bell ∉ body) :
    unmask (threadIndent .standard (mask body).quote) =
      Text.indentLines (margin .standard) body.quote := by
  have hnodes := nodes_of_tagless htags
  have hmasked := nodes_mask_of_literal hnodes hbell
  have hcalm : Calm (((mask body).renamedNodes id).flatMap (say fun _ => [])) := by
    rw [Text.renamedNodes_id, hmasked]
    show Calm (mask body ++ [])
    rw [List.append_nil]
    exact calm_mask body
  have hunit : ∀ n ∈ body.nodes, ∀ inner, n.body? = some inner →
      Bears .standard (fun _ => []) [] ∧ ∀ _ : Nat, bell ∉ ([] : Text) := by
    intro n hn inner hinner
    rw [hnodes] at hn
    obtain rfl := List.mem_singleton.mp hn
    cases hinner
  have hview : Indenting .standard (unitView Options.standard.flags .standard) :=
    indenting_unitView rfl .standard
  have hcode := unmask_threadIndent neutral_standard quiet_id hview (fun _ _ => []) (fun _ => [])
    hbell hunit hcalm
  rw [Text.renamedNodes_id, renamedNodes_writtenName_id hbell, hnodes, hmasked] at hcode
  have hquote : [Node.literal (mask body)].flatMap
      (nodeCode (unitView Options.standard.flags .standard) fun _ => []) = (mask body).quote :=
    List.append_nil _
  rw [hquote] at hcode
  rw [Text.indentLines_eq_laid]
  exact hcode

theorem callable_standard {v : View} (hindents : v.flags.noIndent = false)
    (hfragments : v.fragments = .standard) (code : Text) :
    callable v code = plainHeader ++ '\'' ::
      (unmask (threadIndent .standard code) ++ "';\x7d".toList) := by
  unfold callable
  rw [hindents, hfragments, if_neg Bool.false_ne_true, define_standard]
  rfl

theorem LedBody.of_tagless {v : View} (hindents : v.flags.noIndent = false)
    (hfragments : v.fragments = .standard) (htags : body.tags = []) (hbell : bell ∉ body) :
    ∃ seg, LedBody 0 body seg ∧ callable v (mask body).quote = seg ++ ['\x7d'] := by
  obtain ⟨first, rest, hlines, hled⟩ := indentLines_quote body
  refine ⟨ledCallable 0 plainHeader first rest body.ended, .intro .refl ?_, ?_⟩
  · rw [hlines]
    exact List.forall₂_same.mpr fun _ _ => .refl
  · rw [callable_standard hindents hfragments, unmask_threadIndent_of_tagless htags hbell, hled]
    unfold ledCallable
    simp only [List.append_assoc, List.cons_append]
    rfl

end

/-! ## Bodies in a text -/

/-- The text is the body of a block in the source, so many blocks deep. -/
inductive Nests : Nat → Text → Text → Prop
  | block {source name body closed} :
      .block name body closed ∈ source.nodes → Nests 1 source body
  | inside {k source name inner closed body} :
      .block name inner closed ∈ source.nodes → Nests k inner body → Nests (k + 1) source body

theorem Nests.not_mem {k : Nat} {source body : Text} (h : Nests k source body) {c : Char}
    (hc : c ∉ source) : c ∉ body := by
  induction h with
  | block hmem => exact Node.not_mem_body hc hmem rfl
  | inside hmem _ ih => exact ih (Node.not_mem_body hc hmem rfl)

/-- Calls are dispatched, and units take a margin of the standard form. -/
structure Threads (s : Compilation) : Prop where
  dispatches : s.view.flags.runtime = true
  indents : s.view.flags.noIndent = false
  fragments : s.view.fragments = .standard

namespace Threads

variable {s t : Compilation} (h : Threads s)

include h

theorem of_scope (hscope : t.scope = s.scope) : Threads t where
  dispatches := (congrArg (fun c => c.flags.runtime) hscope).trans h.dispatches
  indents := (congrArg (fun c => c.flags.noIndent) hscope).trans h.indents
  fragments := (congrArg (fun c => c.fragments) hscope).trans h.fragments

theorem atIndent (w : Text) : Threads (atIndent w s) :=
  ⟨h.dispatches, h.indents, h.fragments⟩

theorem isolated (e : Event) : Threads (s.isolated.emit e) :=
  ⟨h.dispatches, h.indents, h.fragments⟩

end Threads

theorem block_isInfix_dispatch (v : View) (name unit : Text) :
    ", ".toList ++ unit <:+: dispatch v name none (some unit) := by
  have hcall : dispatch v name none (some unit) = v.fragments.splice
      (("LR::p($cx, ".toList ++ name ++ ", $in".toList ++ indentArgument v none) ++
        ((", ".toList ++ unit) ++ [')'])) := by
    rw [← List.append_assoc]
    rfl
  rw [hcall, splice_eq]
  refine ⟨'\'' :: (v.fragments.separator ++
    ("LR::p($cx, ".toList ++ name ++ ", $in".toList ++ indentArgument v none)),
    [')'] ++ (v.fragments.separator ++ ['\'']), ?_⟩
  simp only [List.append_assoc, List.cons_append]

theorem Shows.callable {k : Nat} {body code : Text} (h : Shows k body code) (hbell : bell ∉ body)
    {s : Compilation} (hs : Threads s) : Shows (k + 1) body (callable s.view code) := by
  rw [callable_standard hs.indents hs.fragments]
  refine (h.pass hbell).mono ⟨plainHeader ++ ['\''], "';\x7d".toList, ?_⟩
  simp only [List.append_assoc]
  rfl

section

variable {fs : FileSystem} {s t : Compilation}

namespace Runs

/-- The body of a block is compiled apart, and the code passes its callable on. -/
theorem of_block_mem {ns : List Node} {name body code : Text} {closed : Bool}
    (h : Runs fs (.nodes ns) s code t) (hs : Threads s) (hmem : .block name body closed ∈ ns) :
    ∃ s₁ unit t₁, Runs fs (.apart body) s₁ unit t₁ ∧ Threads s₁ ∧
      ", ".toList ++ unit <:+: code := by
  induction ns generalizing s code with
  | nil => cases hmem
  | cons n ns ih =>
      cases h with
      | @cons _ _ _ a _ b _ hn hns =>
          rcases List.mem_cons.mp hmem with rfl | hmem
          · have hclosed := (hs.of_scope (scope_closeChecked name closed s)).atIndent []
            cases hn with
            | blockDispatched hread _ hbody =>
                exact ⟨_, _, _, hbody, hclosed.of_scope hread.scope_eq,
                  (block_isInfix_dispatch ..).trans (List.prefix_append _ b).isInfix⟩
            | blockEmbedded hread hruntime =>
                rw [(hclosed.of_scope hread.scope_eq).dispatches] at hruntime
                cases hruntime
          · obtain ⟨s₁, unit, t₁, hbody, hs₁, hcode⟩ := ih hns (hs.of_scope hn.scope_eq) hmem
            exact ⟨s₁, unit, t₁, hbody, hs₁, hcode.trans (List.suffix_append a b).isInfix⟩

/-- What is compiled apart has the code of its nodes, with masked keywords. -/
theorem of_apart {source text unit : Text} (h : Runs fs (.apart source) s unit t) (hs : Threads s)
    (hsource : mask source = mask text) (htext : bell ∉ text) :
    ∃ s₁ code t₁, Runs fs (.nodes (text.nodes.map (Node.map mask))) s₁ code t₁ ∧ Threads s₁ ∧
      unit = callable s.view code := by
  cases h with
  | apart h =>
      cases h with
      | text h =>
          rw [hsource, nodes_mask htext] at h
          exact ⟨_, _, _, h, hs.isolated _, rfl⟩

theorem callable_of_apart_tagless {source body unit : Text} (h : Runs fs (.apart source) s unit t)
    (hs : Threads s) (hsource : mask source = mask body) (htags : body.tags = [])
    (hbell : bell ∉ body) : unit = callable s.view (mask body).quote := by
  obtain ⟨s₁, code, t₁, hnodes, -, rfl⟩ := h.of_apart hs hsource hbell
  rw [nodes_of_tagless htags] at hnodes
  cases hnodes with
  | cons hn hns =>
      cases hn
      cases hns
      rw [List.append_nil]

/-- The unit of a text passes on the callable of each body in it. For each block that the body is
in, one pass goes over the callable. -/
theorem shows {k : Nat} {text body : Text} (hnests : Nests k text body) (htext : bell ∉ text)
    (htags : body.tags = []) {source unit : Text} (h : Runs fs (.apart source) s unit t)
    (hs : Threads s) (hsource : mask source = mask text) : Shows k body unit := by
  -- from the outermost block to the body, as the text of each block is compiled on its own
  induction hnests generalizing s t source unit with
  | @block text name body closed hmem =>
      have hbell := Node.not_mem_body htext hmem rfl
      obtain ⟨s₁, code, t₁, hnodes, hs₁, rfl⟩ := h.of_apart hs hsource htext
      obtain ⟨s₂, u, t₂, hbody, hs₂, hcode⟩ :=
        hnodes.of_block_mem hs₁ (List.mem_map_of_mem (f := Node.map mask) hmem)
      obtain ⟨seg, hseg, hcallable⟩ := LedBody.of_tagless hs₂.indents hs₂.fragments htags hbell
      rw [hbody.callable_of_apart_tagless hs₂ (mask_mask body) htags hbell, hcallable] at hcode
      exact Shows.callable ⟨seg, hseg, hcode⟩ hbell hs
  | @inside k text name inner closed body hmem hnests ih =>
      have hbell := Node.not_mem_body htext hmem rfl
      obtain ⟨s₁, code, t₁, hnodes, hs₁, rfl⟩ := h.of_apart hs hsource htext
      obtain ⟨s₂, u, t₂, hinner, hs₂, hcode⟩ :=
        hnodes.of_block_mem hs₁ (List.mem_map_of_mem (f := Node.map mask) hmem)
      have hshows := ih hbell htags hinner hs₂ (mask_mask inner)
      have hmono := hshows.mono ((List.suffix_append _ u).isInfix.trans hcode)
      exact hmono.callable (hnests.not_mem hbell) hs

end Runs

end

/-! ## Lines of nested bodies -/

theorem Nests.pos {k : Nat} {source body : Text} (h : Nests k source body) : 0 < k := by
  cases h <;> exact Nat.succ_pos _

/-- The callable of a body without tags, so many blocks deep in a text that is compiled apart. There
is one margin before its first line. Before each later line there is one, and one more for each
block that the body is in. So each line has one margin only where the body has but one line. -/
theorem nested_body_margins (fs : FileSystem) {s : Compilation} (hs : Threads s) {k : Nat}
    {text body : Text} (htext : bell ∉ text) (hnests : Nests k text body) (htags : body.tags = []) :
    (s.HookFree → ∃ bound, ∀ depth, bound ≤ depth →
      ∃ unit t, compileLocal (host depth) text fs s = some (unit, t)) ∧
    ∀ depth unit t, compileLocal (host depth) text fs s = some (unit, t) →
      ∃ header first rest, Rewritten plainHeader header ∧
        List.Forall₂ Rewritten (body.lines.map Text.quote) (first :: rest) ∧
        (∀ line ∈ first :: rest, '\n' ∉ line ∧ line.head? ≠ some '\'') ∧
        ", ".toList ++ (ledCallable k header first rest body.ended ++ ['\x7d']) <:+: unit ∧
        (ledLines k first rest = ledLines 0 first rest ↔ rest = []) := by
  refine ⟨fun hfree => exists_apart_of_hookFree fs hs.dispatches hfree text,
    fun depth unit t hrun => ?_⟩
  obtain ⟨seg, ⟨hheader, hlines⟩, hunit⟩ :=
    ((sound_host fs depth).runs_apart hrun).shows hnests htext htags hs rfl
  have hline := not_mem_quoted_lines (by decide) hlines body.newline_not_mem_lines
  have hhead := head?_ne_of_mem hlines
  exact ⟨_, _, _, hheader, hlines, fun line hmem => ⟨hline line hmem, hhead line hmem⟩, hunit,
    ledLines_eq_zero_iff hnests.pos⟩

def twoLines : Text :=
  "a\nb".toList

/-- The lines as the body of a block. -/
def blockSource : Text :=
  "\x7b\x7b#> q\x7d\x7d".toList ++ (twoLines ++ "\x7b\x7b/q\x7d\x7d".toList)

/-- The lines as the body of a block in a block. -/
def deepSource : Text :=
  "\x7b\x7b#> r\x7d\x7d".toList ++ (blockSource ++ "\x7b\x7b/r\x7d\x7d".toList)

def blockOptions : Options :=
  { Options.standard with
    flags := ⟨false, true, false, false⟩
    partials := .ofList
      [("p".toList, blockSource), ("q".toList, "q".toList), ("r".toList, "r".toList)] }

theorem tags_twoLines : twoLines.tags = [] :=
  Text.tags_of_next?_eq_none (by decide +kernel)

theorem nests_blockSource : Nests 1 blockSource twoLines := by
  have hblock : .block "q".toList twoLines true ∈ blockSource.nodes := by decide +kernel
  exact .block hblock

theorem nested_body_margins_deep :
    Threads (initial blockOptions none (.emptyAt ['/'])) ∧ bell ∉ deepSource ∧
    Nests 2 deepSource twoLines ∧ twoLines.tags = [] ∧
    ∃ unit t, compileLocal (host 3) deepSource (.emptyAt ['/'])
        (initial blockOptions none (.emptyAt ['/'])) = some (unit, t) ∧
      ∃ header first rest, List.Forall₂ Rewritten ["a".toList, "b".toList] (first :: rest) ∧
        ", ".toList ++ (ledCallable 2 header first rest false ++ ['\x7d']) <:+: unit ∧
        ledLines 2 first rest ≠ ledLines 0 first rest := by
  have hs : Threads (initial blockOptions none (.emptyAt ['/'])) := ⟨rfl, rfl, rfl⟩
  have hbell : bell ∉ deepSource := by decide
  have hblock : .block "r".toList blockSource true ∈ deepSource.nodes := by decide +kernel
  have hnests : Nests 2 deepSource twoLines := .inside hblock nests_blockSource
  have hruns : (compileLocal (host 3) deepSource (.emptyAt ['/'])
      (initial blockOptions none (.emptyAt ['/']))).isSome := by decide +kernel
  refine ⟨hs, hbell, hnests, tags_twoLines, ?_⟩
  obtain ⟨⟨unit, t⟩, hrun⟩ := Option.isSome_iff_exists.mp hruns
  obtain ⟨-, hled⟩ := nested_body_margins (.emptyAt ['/']) hs hbell hnests tags_twoLines
  obtain ⟨header, first, rest, -, hlines, -, hunit, hiff⟩ := hled _ unit t hrun
  refine ⟨unit, t, hrun, header, first, rest, hlines, hunit, hiff.not.mpr ?_⟩
  rintro rfl
  have hlength : 2 = 1 := hlines.length_eq
  exact absurd hlength (by decide)

/-- The entry of the unit with the block. -/
def blockEntry : Text :=
  "'p' => function ($cx, $in, $sp) \x7breturn ''.$sp.''.LR::p($cx, 'q', $in, '', ".toList ++
    ("function($cx, $in, $sp)use($sp)\x7breturn ''.$sp.'a\n'.$sp.''.$sp.'b';\x7d".toList ++
      ").'';\x7d".toList)

/-- The second line of the body has two margins. The callable with one margin before each line is
not in the unit. -/
theorem later_line_led_twice :
    Nests 1 blockSource twoLines ∧ twoLines.tags = [] ∧
    ∃ outcome,
      compile (.emptyAt ['/']) blockOptions none "\x7b\x7b> p\x7d\x7d".toList = some outcome ∧
      outcome.table.get? "p".toList = some blockEntry ∧
      ¬ "function($cx, $in, $sp)use($sp)\x7breturn ''.$sp.'a\n'.$sp.'b';\x7d".toList <:+:
        blockEntry := by
  have htable : (compile (.emptyAt ['/']) blockOptions none "\x7b\x7b> p\x7d\x7d".toList).map
      (fun o => o.table.get? "p".toList) = some (some blockEntry) := by decide +kernel
  obtain ⟨outcome, hcompile, hentry⟩ := Option.map_eq_some_iff.mp htable
  exact ⟨nests_blockSource, tags_twoLines, outcome, hcompile, hentry, by decide +kernel⟩

end Handlebars

end Inlay
