import Inlay.Proofs.MaskedScan

/-!
# Templates without indentation

Without the spaces and tabs at the start of its lines a text has the same
tags, the same names in references, and the same tags alone on their lines.
So texts that differ in their indentation only have nodes that differ in
indentation only, wherever in a tag the indentation was put.
-/

namespace Inlay

namespace Text

/-- The characters that the indentation of a tag is made of. -/
def isIndent (c : Char) : Bool :=
  c == ' ' || c == '\t'

theorem isBlank_of_isIndent {c : Char} (h : isIndent c = true) : isBlank c = true := by
  simp only [isIndent, Bool.or_eq_true, beq_iff_eq] at h
  exact isBlank_of_space_or_tab h

theorem isIndent_of_not_isBlank {c : Char} (h : isBlank c = false) : isIndent c = false := by
  cases hc : isIndent c with
  | false => rfl
  | true => rw [isBlank_of_isIndent hc] at h; exact h

theorem newline_beq_of_not_isBlank {c : Char} (h : isBlank c = false) : (c == '\n') = false := by
  have hne : c ≠ '\n' := by
    rintro rfl
    rw [isBlank_newline] at h
    cases h
  simpa using hne

theorem newline_not_mem_of_blankless {s : Text} (h : ∀ d ∈ s, isBlank d = false) : '\n' ∉ s :=
  fun hmem => absurd isBlank_newline (Bool.eq_false_iff.mp (h _ hmem))

/-- The text without the spaces and tabs at the start of its lines; `atStart` tells that it
starts a line. -/
def unindent : Bool → Text → Text
  | _, [] => []
  | atStart, c :: s =>
      if atStart && isIndent c then unindent true s else c :: unindent (c == '\n') s

variable {b : Bool} {c : Char}

@[simp] theorem unindent_nil (b : Bool) : unindent b [] = [] := rfl

theorem unindent_cons_of_kept (h : ¬ (b && isIndent c) = true) (s : Text) :
    unindent b (c :: s) = c :: unindent (c == '\n') s := by
  rw [unindent, if_neg h]

theorem unindent_cons (h : isIndent c = false) (b : Bool) (s : Text) :
    unindent b (c :: s) = c :: unindent (c == '\n') s :=
  unindent_cons_of_kept (by simp [h]) s

theorem unindent_cons_of_isIndent (h : isIndent c = true) (s : Text) :
    unindent true (c :: s) = unindent true s := by
  simp [unindent, h]

theorem unindent_false_cons (c : Char) (s : Text) :
    unindent false (c :: s) = c :: unindent (c == '\n') s :=
  unindent_cons_of_kept (by simp) s

theorem unindent_cons_of_not_isBlank (h : isBlank c = false) (b : Bool) (s : Text) :
    unindent b (c :: s) = c :: unindent false s := by
  rw [unindent_cons (isIndent_of_not_isBlank h), newline_beq_of_not_isBlank h]

/-- Indentation that was taken away at fewer places makes no difference. -/
theorem unindent_unindent {b b' : Bool} (h : b' = true → b = true) (s : Text) :
    unindent b (unindent b' s) = unindent b s := by
  induction s generalizing b b' with
  | nil => rfl
  | cons c s ih =>
      cases hc : isIndent c with
      | false => rw [unindent_cons hc, unindent_cons hc, unindent_cons hc, ih id]
      | true =>
          have hnewline : (c == '\n') = false := by
            simp only [isIndent, Bool.or_eq_true, beq_iff_eq] at hc
            rcases hc with rfl | rfl <;> rfl
          cases b' with
          | true => rw [h rfl, unindent_cons_of_isIndent hc, ih id]
          | false =>
              rw [unindent_false_cons, hnewline]
              cases b with
              | true =>
                  rw [unindent_cons_of_isIndent hc, unindent_cons_of_isIndent hc]
                  exact ih fun _ => rfl
              | false => rw [unindent_false_cons, unindent_false_cons, hnewline, ih id]

theorem unindent_of_not_mem {s : Text} (h : '\n' ∉ s) : unindent false s = s := by
  induction s with
  | nil => rfl
  | cons c s ih =>
      obtain ⟨hc, hs⟩ := not_or.mp (List.mem_cons.not.mp h)
      have hnewline : (c == '\n') = false := by simpa using Ne.symm hc
      rw [unindent_false_cons, hnewline, ih hs]

theorem isIndent_newline : isIndent '\n' = false := by decide

/-- Only spaces and tabs are taken away. -/
theorem mem_unindent (h : isIndent c = false) {s : Text} : c ∈ unindent b s ↔ c ∈ s := by
  induction s generalizing b with
  | nil => rfl
  | cons d s ih =>
      rw [unindent]
      split
      · rename_i hdrop
        have hne : c ≠ d := by
          rintro rfl
          simp [h] at hdrop
        rw [ih, List.mem_cons]
        simp [hne]
      · rw [List.mem_cons, List.mem_cons, ih]

theorem all_isIndent_unindent (b : Bool) (s : Text) : (unindent b s).all isIndent = s.all isIndent := by
  rw [Bool.eq_iff_iff, List.all_eq_true, List.all_eq_true]
  constructor
  · refine fun hall d hd => Bool.of_not_eq_false fun hkeep => ?_
    exact Bool.eq_false_iff.mp hkeep (hall d ((mem_unindent hkeep).mpr hd))
  · refine fun hall d hd => Bool.of_not_eq_false fun hkeep => ?_
    exact Bool.eq_false_iff.mp hkeep (hall d ((mem_unindent hkeep).mp hd))

/-- Whether the second text starts a line is told by the first. -/
theorem exists_unindent_append (b : Bool) (x : Text) :
    ∃ b', ∀ s, unindent b (x ++ s) = unindent b x ++ unindent b' s := by
  induction x generalizing b with
  | nil => exact ⟨b, fun s => rfl⟩
  | cons c x ih =>
      by_cases hdrop : (b && isIndent c) = true
      · obtain ⟨rfl, hc⟩ := Bool.and_eq_true_iff.mp hdrop
        obtain ⟨b', h⟩ := ih true
        refine ⟨b', fun s => ?_⟩
        rw [List.cons_append, unindent_cons_of_isIndent hc, unindent_cons_of_isIndent hc, h]
      · obtain ⟨b', h⟩ := ih (c == '\n')
        refine ⟨b', fun s => ?_⟩
        rw [List.cons_append, unindent_cons_of_kept hdrop, unindent_cons_of_kept hdrop, h,
          List.cons_append]

theorem unindent_append_of_not_isBlank {x : Text} (hne : x ≠ []) (hx : ∀ d ∈ x, isBlank d = false)
    (b : Bool) (s : Text) : unindent b (x ++ s) = x ++ unindent false s := by
  induction x generalizing b with
  | nil => exact absurd rfl hne
  | cons d x ih =>
      obtain ⟨hd, hx⟩ := List.forall_mem_cons.mp hx
      rw [List.cons_append, unindent_cons_of_not_isBlank hd, List.cons_append]
      cases x with
      | nil => rfl
      | cons e x => rw [ih (List.cons_ne_nil e x) hx]

/-- Text without blanks cuts a text in two. -/
theorem unindent_append_append {x : Text} (hne : x ≠ []) (hx : ∀ d ∈ x, isBlank d = false)
    (b : Bool) (s t : Text) : unindent b (s ++ (x ++ t)) = unindent b s ++ (x ++ unindent false t) := by
  obtain ⟨b', h⟩ := exists_unindent_append b s
  rw [h, unindent_append_of_not_isBlank hne hx]

theorem unindent_append_newline (b : Bool) (s t : Text) :
    unindent b (s ++ '\n' :: t) = unindent b s ++ '\n' :: unindent true t := by
  obtain ⟨b', h⟩ := exists_unindent_append b s
  rw [h, unindent_cons isIndent_newline]
  rfl

theorem unindent_append_of_isIndent {w : Text} (hw : ∀ d ∈ w, isIndent d = true) (s : Text) :
    unindent true (w ++ s) = unindent true s := by
  induction w with
  | nil => rfl
  | cons d w ih =>
      obtain ⟨hd, hw⟩ := List.forall_mem_cons.mp hw
      rw [List.cons_append, unindent_cons_of_isIndent hd, ih hw]

theorem unindent_of_isIndent {w : Text} (hw : ∀ d ∈ w, isIndent d = true) : unindent true w = [] := by
  have h := unindent_append_of_isIndent hw []
  rwa [List.append_nil] at h

theorem isBlank_of_mem_unindent {s : Text} (hs : ∀ d ∈ s, isBlank d = true) :
    ∀ d ∈ unindent b s, isBlank d = true := by
  induction s generalizing b with
  | nil => exact hs
  | cons c s ih =>
      obtain ⟨hc, hs⟩ := List.forall_mem_cons.mp hs
      rw [unindent]
      split
      · exact ih hs
      · exact List.forall_mem_cons.mpr ⟨hc, ih hs⟩

/-- The text is the one without indentation with blanks put in after newlines. -/
theorem loosened_unindent (s : Text) : Loosened (unindent false s) s := by
  -- at the start of a line the indentation stands first and the rest is loosened
  suffices h : Loosened (unindent false s) s ∧ ∃ w t, s = w ++ t ∧
      (∀ d ∈ w, isBlank d = true) ∧ Loosened (unindent true s) t from h.1
  induction s with
  | nil => exact ⟨.nil, [], [], rfl, nofun, .nil⟩
  | cons c s ih =>
      obtain ⟨ih, w, t, hs, hw, ht⟩ := ih
      have hfalse : Loosened (unindent false (c :: s)) (c :: s) := by
        rw [unindent_false_cons]
        cases hc : c == '\n' with
        | false => exact .cons c ih
        | true =>
            rw [beq_iff_eq.mp hc, hs]
            exact .gap hw (hs ▸ ht)
      refine ⟨hfalse, ?_⟩
      cases hc : isIndent c with
      | true =>
          refine ⟨c :: w, t, by rw [hs, List.cons_append], ?_, ?_⟩
          · exact List.forall_mem_cons.mpr ⟨isBlank_of_isIndent hc, hw⟩
          · rwa [unindent_cons_of_isIndent hc]
      | false =>
          refine ⟨[], c :: s, rfl, nofun, ?_⟩
          rw [unindent_cons hc, ← unindent_false_cons]
          exact hfalse

/-! ## Searching -/

theorem after?_unindent {mark : Text} (hmark : '\n' ∉ mark) (s : Text) :
    after? mark (unindent false s) = (after? mark s).map (unindent false) := by
  induction mark generalizing s with
  | nil => simp
  | cons m mark ih =>
      obtain ⟨hm, hmark⟩ := not_or.mp (List.mem_cons.not.mp hmark)
      cases s with
      | nil => rfl
      | cons c s =>
          rw [unindent_false_cons, after?, after?]
          split
          · rename_i hc
            have hnewline : (c == '\n') = false := by simpa using hc ▸ Ne.symm hm
            rw [hnewline, ih hmark]
          · rfl

theorem cut?_unindent {m : Char} {mark : Text} (hmark : ∀ d ∈ m :: mark, isBlank d = false) (b : Bool)
    (s : Text) :
    cut? (m :: mark) (unindent b s) =
      (cut? (m :: mark) s).map fun parts => (unindent b parts.1, unindent false parts.2) := by
  have hnewline : '\n' ∉ m :: mark := newline_not_mem_of_blankless hmark
  have hm : isBlank m = false := hmark m List.mem_cons_self
  induction s generalizing b with
  | nil => rfl
  | cons c s ih =>
      by_cases hdrop : (b && isIndent c) = true
      · -- a character of the indentation starts no mark
        obtain ⟨rfl, hc⟩ := Bool.and_eq_true_iff.mp hdrop
        have hne : m ≠ c := by
          rintro rfl
          rw [isBlank_of_isIndent hc] at hm
          cases hm
        rw [unindent_cons_of_isIndent hc, ih, cut?, after?, if_neg hne, Option.map_map]
        simp [Function.comp_def, unindent_cons_of_isIndent hc]
      · have hkeep := fun t => unindent_cons_of_kept hdrop t
        have hafter := after?_unindent hnewline (c :: s)
        rw [unindent_false_cons] at hafter
        rw [hkeep, cut?, cut?, hafter]
        cases after? (m :: mark) (c :: s) with
        | some rest => rfl
        | none => simp [ih, hkeep, Function.comp_def]

/-! ## Runs of a class of characters -/

section Classes

variable {p : Char → Bool} (hp : ∀ d, isBlank d = true → p d = true)

include hp

theorem takeWhile_unindent (b : Bool) (s : Text) :
    (unindent b s).takeWhile p = unindent b (s.takeWhile p) := by
  induction s generalizing b with
  | nil => rfl
  | cons c s ih =>
      by_cases hdrop : (b && isIndent c) = true
      · obtain ⟨rfl, hc⟩ := Bool.and_eq_true_iff.mp hdrop
        rw [unindent_cons_of_isIndent hc, ih, List.takeWhile_cons_of_pos (hp c (isBlank_of_isIndent hc)),
          unindent_cons_of_isIndent hc]
      · rw [unindent_cons_of_kept hdrop, List.takeWhile_cons, List.takeWhile_cons]
        split
        · rw [ih, unindent_cons_of_kept hdrop]
        · rfl

theorem dropWhile_unindent (b : Bool) (s : Text) :
    (unindent b s).dropWhile p = unindent false (s.dropWhile p) := by
  induction s generalizing b with
  | nil => rfl
  | cons c s ih =>
      by_cases hc : p c = true
      · rw [List.dropWhile_cons_of_pos hc, unindent]
        split
        · exact ih true
        · rw [List.dropWhile_cons_of_pos hc, ih]
      · have hblank : isBlank c = false := Bool.eq_false_iff.mpr fun h => hc (hp c h)
        rw [unindent_cons_of_not_isBlank hblank, List.dropWhile_cons_of_neg hc,
          List.dropWhile_cons_of_neg hc, unindent_cons_of_not_isBlank hblank]

end Classes

/-! ## Trimming and words -/

theorem trim_unindent (b : Bool) (s : Text) : (unindent b s).trim = unindent false s.trim := by
  obtain ⟨x, y, hs, hx, hy, hfirst, hlast⟩ := exists_strip isBlank s
  have htrim : s.strip isBlank = s.trim := rfl
  rw [htrim] at hs hfirst hlast
  obtain ⟨b₁, hsplit₁⟩ := exists_unindent_append b x
  obtain ⟨b₂, hsplit₂⟩ := exists_unindent_append b₁ s.trim
  -- what is left starts with a character that is kept wherever it stands
  have hstart : unindent b₁ s.trim = unindent false s.trim := by
    cases hcore : s.trim with
    | nil => rfl
    | cons c core =>
        have hc : isBlank c = false := by simpa [hcore] using hfirst
        rw [unindent_cons_of_not_isBlank hc, unindent_cons_of_not_isBlank hc]
  have hloose := loosened_unindent s.trim
  have hparts : unindent b s = unindent b x ++ (unindent false s.trim ++ unindent b₂ y) := by
    conv_lhs => rw [hs]
    rw [hsplit₁, hsplit₂, hstart]
  rw [hparts]
  apply strip_append (isBlank_of_mem_unindent hx) (isBlank_of_mem_unindent hy)
  · rw [← hloose.head?_eq, hfirst]
  · cases hl : s.trim.getLast? with
    | none =>
        rw [List.getLast?_eq_none_iff.mp hl]
        rfl
    | some d =>
        have hd : isBlank d = false := by simpa [hl] using hlast
        rw [(hloose.getLast?_iff hd).mp hl]
        simpa using hd

theorem firstWord_unindent (s : Text) : (unindent false s).firstWord = s.firstWord :=
  (loosened_unindent s).firstWord_eq.symm

theorem unindent_firstWord (s : Text) : unindent false s.firstWord = s.firstWord :=
  unindent_of_not_mem (newline_not_mem_of_blankless fun _ hd => isBlank_of_mem_firstWord hd)

end Text

/-! ## Reading tags -/

namespace Tag

open Text

theorem parenthesized?_unindent (s : Text) :
    parenthesized? (unindent false s) = (parenthesized? s).map (unindent false) := by
  cases s with
  | nil => rfl
  | cons c s =>
      by_cases hc : c = '('
      · subst hc
        have hlast := (loosened_unindent s).getLast?_iff (d := ')') (by decide)
        rw [unindent_cons_of_not_isBlank (by decide)]
        simp only [parenthesized?, beq_iff_eq, ← hlast]
        split
        · rename_i hs
          obtain ⟨x, rfl⟩ := List.getLast?_eq_some_iff.mp hs
          have hcut := unindent_append_append (x := [')']) (by decide) (by decide) false x []
          rw [List.append_nil] at hcut
          rw [hcut]
          simp
        · rfl
      · have hnone : ∀ u, parenthesized? (c :: u) = none := by
          intro u
          unfold parenthesized?
          split
          · rename_i heq
            exact absurd (List.cons.inj heq).1 hc
          · rfl
        rw [unindent_false_cons, hnone, hnone]
        rfl

theorem referenceOf_unindent (s : Text) :
    referenceOf (unindent false s) = (referenceOf s).map (unindent false) := by
  unfold referenceOf
  rw [trim_unindent, parenthesized?_unindent, firstWord_unindent]
  cases parenthesized? s.trim with
  | some expr => simp [Reference.map, trim_unindent]
  | none =>
      simp only [Option.map_none]
      split
      · rfl
      · rw [Reference.map, unindent_firstWord]

theorem inlineName?_unindent (s : Text) :
    inlineName? (unindent false s) = (inlineName? s).map (unindent false) := by
  unfold inlineName?
  rw [after?_unindent (by decide)]
  cases after? "#*inline".toList s with
  | none => rfl
  | some rest =>
      simp only [Option.map_some, Option.bind_eq_bind, Option.bind_some]
      rw [← (loosened_unindent rest).head?_eq, dropWhile_unindent fun _ h => h]
      cases rest.dropWhile isBlank with
      | nil =>
          simp only [unindent_nil]
          split <;> rfl
      | cons q s =>
          rw [unindent_false_cons]
          cases hq : isQuote q with
          | false =>
              simp only [hq, Bool.false_and, Bool.false_eq_true, if_false]
              split <;> rfl
          | true =>
              have hnewline : (q == '\n') = false := by
                simp only [isQuote, Bool.or_eq_true, beq_iff_eq] at hq
                rcases hq with rfl | rfl <;> rfl
              have hblank : ∀ c, isBlank c = true → (!isQuote c) = true := by
                intro c hc
                have h₁ : c ≠ '"' := fun e => absurd (e ▸ hc) (by decide)
                have h₂ : c ≠ '\'' := fun e => absurd (e ▸ hc) (by decide)
                simp [isQuote, h₁, h₂]
              have hloose := loosened_unindent (s.dropWhile fun c => !isQuote c)
              have hend : ∀ c ∈ (unindent false (s.dropWhile fun c => !isQuote c)).head?, c ≠ '\n' := by
                intro c hc
                have hstop := List.head?_dropWhile_not (fun c => !isQuote c) s
                rw [hloose.head?_eq, Option.mem_def.mp hc] at hstop
                rintro rfl
                cases hstop
              rw [hnewline]
              simp only [hq, takeWhile_unindent hblank, dropWhile_unindent hblank,
                ← hloose.length_beq_one hend, ← (loosened_unindent _).isEmpty_eq]
              split
              · split <;> rfl
              · rfl

/-- The reading of a tag commutes with taking indentation away. -/
theorem ofText_unindent (b : Bool) (inside : Text) :
    ofText (unindent b inside) = (ofText inside).map (unindent false) := by
  unfold ofText ofInside
  rw [trim_unindent, after?_unindent (by decide), after?_unindent (by decide),
    after?_unindent (by decide), inlineName?_unindent]
  cases after? ['#', '>'] inside.trim with
  | some s => simp [Tag.map, firstWord_unindent, unindent_firstWord]
  | none =>
      cases after? ['>'] inside.trim with
      | some s => simp [Tag.map, referenceOf_unindent]
      | none =>
          cases inlineName? inside.trim with
          | some name => simp [Tag.map]
          | none =>
              cases after? ['/'] inside.trim with
              | some s => simp [Tag.map, trim_unindent]
              | none => simp [Tag.map]

theorem next?_unindent (b : Bool) (s : Text) :
    next? (unindent b s) = (next? s).map fun parts =>
      (unindent b parts.1, unindent false parts.2.1, unindent false parts.2.2) := by
  unfold next? opening closing
  rw [cut?_unindent (by decide)]
  cases cut? ['\x7b', '\x7b'] s with
  | none => rfl
  | some parts =>
      simp only [Option.map_some, Option.bind_eq_bind, Option.bind_some]
      rw [cut?_unindent (by decide)]
      cases cut? ['\x7d', '\x7d'] parts.2 <;> rfl

theorem next?_unindent_of_some {s before inside rest : Text} (h : next? s = some (before, inside, rest))
    (b : Bool) :
    next? (unindent b s) = some (unindent b before, unindent false inside, unindent false rest) := by
  rw [next?_unindent, h, Option.map_some]

end Tag

namespace Node

open Text

/-! ## Bodies -/

/-- A name without newlines closes the same block. -/
theorem findClose?_unindent {name : Text} (hname : '\n' ∉ name) (b : Bool) (s : Text) :
    findClose? name (unindent b s) =
      (findClose? name s).map fun parts => (unindent b parts.1, unindent false parts.2) := by
  fun_induction findClose? name s generalizing b with
  | case1 s hnext =>
      apply findClose?_of_none
      rw [Tag.next?_unindent, hnext, Option.map_none]
  | case2 s before inside rest hnext hclose =>
      have hunindented := Tag.next?_unindent_of_some hnext b
      rw [findClose?_of_next? hunindented, Tag.ofText_unindent, hclose, Tag.map,
        unindent_of_not_mem hname, if_pos rfl]
      rfl
  | case3 s before inside rest hnext hclose ih =>
      have hunindented := Tag.next?_unindent_of_some hnext b
      have hother : Tag.ofText (unindent false inside) ≠ .close name := by
        rw [Tag.ofText_unindent]
        cases htag : Tag.ofText inside with
        | close other =>
            intro heq
            obtain rfl : unindent false other = name := Tag.close.inj heq
            rw [unindent_of_not_mem ((mem_unindent isIndent_newline).not.mp hname)] at hclose
            exact hclose htag
        | _ => simp [Tag.map]
      rw [findClose?_of_next? hunindented, if_neg hother, ih, Option.map_map]
      cases findClose? name rest with
      | none => rfl
      | some parts =>
          simp only [Option.map_some, List.append_assoc]
          rw [unindent_append_append (by decide) (by decide),
            unindent_append_append (by decide) (by decide)]
          rfl

theorem body_unindent {name : Text} (hname : '\n' ∉ name) (s : Text) :
    body name (unindent false s) =
      (unindent false (body name s).1, unindent false (body name s).2.1, (body name s).2.2) := by
  unfold body
  rw [findClose?_unindent hname]
  cases findClose? name s <;> rfl

/-! ## Tags alone on their line -/

theorem isEmpty_append_newline (k : Text) : (k ++ ['\n']).isEmpty = false := by
  cases k <;> rfl

/-- The last line starts a line of its own, or is the whole text. -/
theorem lastLine_unindent (b : Bool) (s : Text) :
    lastLine (unindent b s) = unindent (b || !(beforeLastLine s).isEmpty) (lastLine s) ∧
      beforeLastLine (unindent b s) = unindent b (beforeLastLine s) := by
  have hline : ∀ b, '\n' ∉ unindent b (lastLine s) := fun b =>
    (mem_unindent isIndent_newline).not.mpr (newline_not_mem_lastLine s)
  have hsplit := beforeLastLine_append_lastLine s
  rcases beforeLastLine_cases s with hkept | ⟨k, hkept⟩
  · rw [hkept, List.nil_append] at hsplit
    rw [hkept, hsplit]
    have hnothing : ([] : Text) = [] ∨ ∃ k : Text, [] = k ++ ['\n'] := .inl rfl
    have hwhole := lastLine_append hnothing (hsplit ▸ hline b)
    simpa using hwhole
  · rw [hkept, List.append_assoc, List.singleton_append] at hsplit
    have hparts := lastLine_append (.inr ⟨unindent b k, rfl⟩) (hline true)
    have hjoin : unindent b s = unindent b k ++ ['\n'] ++ unindent true (lastLine s) := by
      conv_lhs => rw [← hsplit]
      rw [unindent_append_newline, List.append_assoc, List.singleton_append]
    rw [hjoin, hparts.1, hparts.2, hkept, unindent_append_newline, isEmpty_append_newline, Bool.not_false,
      Bool.or_true]
    exact ⟨rfl, rfl⟩

theorem lineIndent?_unindent (b : Bool) (before : Text) :
    lineIndent? b (unindent b before) =
      (lineIndent? b before).map fun parts => (unindent b parts.1, []) := by
  obtain ⟨hline, hkept⟩ := lastLine_unindent b before
  have hempty : (beforeLastLine (unindent b before)).isEmpty = (beforeLastLine before).isEmpty := by
    rw [hkept]
    rcases beforeLastLine_cases before with hk | ⟨k, hk⟩
    · rw [hk, unindent_nil]
    · rw [hk, unindent_append_newline, unindent_nil, isEmpty_append_newline, isEmpty_append_newline]
  have hall : (lastLine (unindent b before)).all isIndent = (lastLine before).all isIndent := by
    rw [hline, all_isIndent_unindent]
  have heq : ∀ s, lineIndent? b s =
      if (lastLine s).all isIndent && (b || !(beforeLastLine s).isEmpty) then
        some (beforeLastLine s, lastLine s)
      else none := lineIndent?_eq b
  rw [heq, heq, hall, hempty]
  split
  · rename_i halone
    obtain ⟨hblank, hstart⟩ := Bool.and_eq_true_iff.mp halone
    rw [hkept, hline, hstart, unindent_of_isIndent (List.all_eq_true.mp hblank)]
    rfl
  · rfl

theorem lineRest?_unindent (s : Text) :
    lineRest? (unindent false s) = (lineRest? s).map (unindent true) := by
  have hall : ∀ c ∈ s.takeWhile (· != '\n'), (c != '\n') = true := by
    intro c hc
    exact List.mem_takeWhile_imp (p := (· != '\n')) hc
  have hline : '\n' ∉ s.takeWhile (· != '\n') := fun hmem => by simpa using hall _ hmem
  have hsplit := List.takeWhile_append_dropWhile (p := (· != '\n')) (l := s)
  cases hrest : s.dropWhile (· != '\n') with
  | nil =>
      rw [hrest, List.append_nil] at hsplit
      rw [unindent_of_not_mem (hsplit ▸ hline)]
      unfold lineRest?
      rw [hrest]
      split <;> rfl
  | cons c t =>
      have hc := List.head?_dropWhile_not (· != '\n') s
      rw [hrest] at hc
      obtain rfl : c = '\n' := by simpa using hc
      rw [hrest] at hsplit
      have hjoin : unindent false s = s.takeWhile (· != '\n') ++ '\n' :: unindent true t := by
        conv_lhs => rw [← hsplit]
        rw [unindent_append_newline, unindent_of_not_mem hline]
      unfold lineRest?
      rw [hjoin, List.takeWhile_append_of_pos hall, List.dropWhile_append_of_pos hall, hrest]
      simp only [bne_self_eq_false, Bool.false_eq_true, not_false_eq_true, List.takeWhile_cons_of_neg,
        List.append_nil, List.dropWhile_cons_of_neg, List.tail_cons]
      split <;> rfl

theorem standalone_unindent (b : Bool) (before rest : Text) :
    standalone b (unindent b before) (unindent false rest) =
      (unindent b (standalone b before rest).1, (standalone b before rest).2.1.map fun _ => [],
        unindent (standalone b before rest).2.1.isSome (standalone b before rest).2.2) := by
  unfold standalone
  rw [lineIndent?_unindent, lineRest?_unindent]
  cases lineIndent? b before with
  | none => rfl
  | some parts =>
      cases lineRest? rest with
      | none => rfl
      | some next => rfl

/-! ## Nodes -/

/-- The tag is alone on its line, so what follows it starts a line. -/
def takesLine : Node → Bool
  | .reference _ indent => indent.isSome
  | _ => false

/-- The node without indentation in it or before it. A literal starts a line or goes on with one. -/
def unindented (atStart : Bool) : Node → Node
  | .literal text => .literal (unindent atStart text)
  | .variable name => .variable (unindent false name)
  | .reference target indent => .reference (target.map (unindent false)) (indent.map fun _ => [])
  | .block name body closed => .block (unindent false name) (unindent true body) closed
  | .inlinePartial name body closed =>
      .inlinePartial (unindent false name) (unindent true body) closed
  | .strayClose name => .strayClose (unindent false name)

/-- The nodes without indentation, from the start of a line or from within one. -/
def unindentedNodes : Bool → List Node → List Node
  | _, [] => []
  | atStart, n :: ns => n.unindented atStart :: unindentedNodes n.takesLine ns

/-- The nodes without indentation are those of the text without indentation. -/
theorem scan_unindent (b : Bool) (s : Text) :
    unindentedNodes b (scan b (unindent b s)) = unindentedNodes b (scan b s) := by
  have hname : ∀ {inside name}, (Tag.ofText inside).refersTo? = some name → '\n' ∉ name :=
    fun h => newline_not_mem_of_blankless (Tag.not_isBlank_of_refersTo? h)
  have hagain : ∀ b s, unindent true (unindent b s) = unindent true s :=
    fun b s => unindent_unindent (fun _ => rfl) s
  have honce : ∀ b s, unindent b (unindent b s) = unindent b s :=
    fun b s => unindent_unindent id s
  have hreference : ∀ target : Reference,
      (target.map (unindent false)).map (unindent false) = target.map (unindent false) := by
    intro target
    cases target <;> simp [Reference.map, honce]
  fun_induction scan b s with
  | case1 b s hnext =>
      have hnone : Tag.next? (unindent b s) = none := by rw [Tag.next?_unindent, hnext, Option.map_none]
      rw [scan_of_none hnone]
      simp [unindentedNodes, unindented, honce]
  | case2 b s before inside rest hnext target htag line ih =>
      have hunindented := Tag.next?_unindent_of_some hnext b
      rw [scan_of_next? hunindented, Tag.ofText_unindent, htag]
      simp only [Tag.map, standalone_unindent, Option.isSome_map, unindentedNodes, takesLine]
      rw [ih]
      simp [unindented, honce, line, hreference, Function.comp_def]
  | case3 b s before inside rest hnext name htag parts ih =>
      have hunindented := Tag.next?_unindent_of_some hnext b
      have hline : '\n' ∉ name := hname (by rw [htag]; rfl)
      rw [scan_of_next? hunindented, Tag.ofText_unindent, htag]
      simp only [Tag.map, unindent_of_not_mem hline, body_unindent hline, unindentedNodes, takesLine]
      rw [ih]
      simp [unindented, hagain, honce, parts]
  | case4 b s before inside rest hnext name htag parts ih =>
      have hunindented := Tag.next?_unindent_of_some hnext b
      have hline : '\n' ∉ "inline".toList := by decide
      rw [scan_of_next? hunindented, Tag.ofText_unindent, htag]
      simp only [Tag.map, body_unindent hline, unindentedNodes, takesLine]
      rw [ih]
      simp [unindented, hagain, honce, parts]
  | case5 b s before inside rest hnext name htag ih =>
      have hunindented := Tag.next?_unindent_of_some hnext b
      rw [scan_of_next? hunindented, Tag.ofText_unindent, htag]
      simp only [Tag.map, unindentedNodes, takesLine]
      rw [ih]
      simp [unindented, honce]
  | case6 b s before inside rest hnext name htag ih =>
      have hunindented := Tag.next?_unindent_of_some hnext b
      rw [scan_of_next? hunindented, Tag.ofText_unindent, htag]
      simp only [Tag.map, unindentedNodes, takesLine]
      rw [ih]
      simp [unindented, honce]

end Node

/-! ## Texts that are alike -/

namespace Text

/-- Texts that differ in the indentation of their lines only have such nodes. -/
theorem unindentedNodes_eq {s t : Text} (h : unindent true s = unindent true t) :
    Node.unindentedNodes true s.nodes = Node.unindentedNodes true t.nodes := by
  have hs : Node.unindentedNodes true s.nodes = Node.unindentedNodes true (unindent true s).nodes :=
    (Node.scan_unindent true s).symm
  rw [hs, h]
  exact Node.scan_unindent true t

theorem unindent_indentBreaks {w : Text} (hw : ∀ d ∈ w, isIndent d = true) (b : Bool) (s : Text) :
    unindent b (indentBreaks w s) = unindent b s := by
  fun_induction indentBreaks w s generalizing b with
  | case1 => rfl
  | case2 c => rfl
  | case3 d rest ih =>
      have hline : unindent true (w ++ indentBreaks w (d :: rest)) = unindent true (d :: rest) := by
        rw [unindent_append_of_isIndent hw, ih]
      rw [unindent_cons isIndent_newline, unindent_cons isIndent_newline]
      exact congrArg _ hline
  | case4 c d rest _ ih =>
      rw [unindent, unindent, ih, ih]

/-- Indentation by spaces and tabs is only indentation. -/
theorem unindent_indentLines {w : Text} (hw : ∀ d ∈ w, isIndent d = true) (s : Text) :
    unindent true (indentLines w s) = unindent true s := by
  rw [indentLines, unindent_append_of_isIndent hw, unindent_indentBreaks hw]

end Text

/-- Indentation can be taken away before or after a replacement that leaves tags alone. -/
theorem Inert.unindent_replace {old new : Text} (h : Inert old new) (b : Bool) (s : Text) :
    Text.unindent b (Text.replace old new s) = Text.replace old new (Text.unindent b s) := by
  have hold : ∀ c ∈ old, isBlank c = false := fun c hc => isBlank_eq_false_of_isTagMark (h.old_marks c hc)
  have hnew : ∀ c ∈ new, isBlank c = false := fun c hc => isBlank_eq_false_of_isTagMark (h.new_marks c hc)
  induction s using Text.replaceInduction h.old_ne generalizing b with
  | nil => rw [h.replace_nil, Text.unindent_nil, h.replace_nil]
  | hit s ih =>
      rw [Text.replace_append h.old_ne, Text.unindent_append_of_not_isBlank h.new_ne hnew,
        Text.unindent_append_of_not_isBlank h.old_ne hold, Text.replace_append h.old_ne, ih]
  | miss c s hc ih =>
      rw [Text.replace_cons hc, Text.unindent, Text.unindent]
      split
      · exact ih true
      · have hnone : Text.after? old (c :: Text.unindent (c == '\n') s) = none := by
          rw [← Text.unindent_false_cons, Text.after?_unindent (Text.newline_not_mem_of_blankless hold), hc,
            Option.map_none]
        rw [ih, Text.replace_cons hnone]

end Inlay
