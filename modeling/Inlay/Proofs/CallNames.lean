import Inlay.Proofs.TargetCode
import Inlay.Handlebars.Dispatch

/-!
# Names in calls

The name of a partial is put into a call as it is. If it has an apostrophe,
then this ends the literal of the name, and the code is no longer written by
any tokens. Names have no blanks, so no name can be read as a name and what
follows it.
-/

namespace Inlay.Handlebars

open Target

/-- A call with the name and the indentation as they are. -/
def callText (name : Text) (margined : Bool) (indent : Text) : Text :=
  "LR::p($cx, ".toList ++ (nameLiteral name ++ (", $in, ".toList ++
    ((if margined then "$sp.".toList else []) ++ (nameLiteral indent ++ [')']))))

theorem splice_standard (e : Text) :
    Fragments.standard.splice e = "'.".toList ++ (e ++ ".'".toList) := by
  unfold Fragments.splice
  simp only [List.append_assoc, List.cons_append]
  rfl

theorem lookup_eq (name : Text) : lookup name = "$in[".toList ++ (nameLiteral name.quote ++ [']']) := by
  unfold lookup nameLiteral
  simp only [List.append_assoc, List.cons_append]
  rfl

/-! ## The code of pieces with names as they are -/

/-- The code of a piece, where the name in a call is put there as it is. -/
def rawCode : Piece → Text
  | .expr (.call name margined indent) =>
      Fragments.standard.splice (callText name.escape margined indent)
  | p => p.code

/-- The code of the pieces between two apostrophes. -/
def rawInside (ps : List Piece) : Text :=
  ps.flatMap rawCode

@[simp] theorem rawInside_nil : rawInside [] = [] := rfl

theorem rawInside_cons (p : Piece) (ps : List Piece) : rawInside (p :: ps) = rawCode p ++ rawInside ps :=
  List.flatMap_cons

@[simp] theorem rawInside_append (ps qs : List Piece) :
    rawInside (ps ++ qs) = rawInside ps ++ rawInside qs :=
  List.flatMap_append

theorem nameLiteral_quote_escape (name : Text) : nameLiteral name.escape.quote = quoted name := rfl

theorem nameLiteral_eq_quoted {name : Text} (h : '\'' ∉ name) : nameLiteral name.escape = quoted name := by
  have hquote : '\'' ∉ name.escape := fun hmem => h (Text.mem_of_mem_escape hmem)
  rw [← nameLiteral_quote_escape, Text.quote_of_not_mem hquote]

/-- Spaces and tabs are protected by themselves. -/
theorem nameLiteral_of_blank {w : Text} (h : ∀ c ∈ w, c = ' ' ∨ c = '\t') : nameLiteral w = quoted w := by
  have hquote : '\'' ∉ w := by
    intro hmem
    rcases h _ hmem with h | h <;> cases h
  have hslash : Text.escape w = w := by
    rw [Text.escape_eq_replace]
    refine Text.replace_of_disjoint (by simp) fun c hc hmem => ?_
    obtain rfl := List.mem_singleton.mp hmem
    rcases h _ hc with h | h <;> cases h
  rw [← nameLiteral_eq_quoted hquote, hslash]

theorem code_variable (name : Text) :
    (Piece.expr (.variable name)).code = Fragments.standard.splice (lookup name.escape) := by
  rw [splice_standard, lookup_eq, nameLiteral_quote_escape]
  rfl

/-- The calls have one word as their name and blanks as their indentation. -/
def WordCalls (ps : List Piece) : Prop :=
  ∀ name margined indent, .expr (.call name margined indent) ∈ ps →
    (∀ c ∈ name, isBlank c = false) ∧ ∀ c ∈ indent, c = ' ' ∨ c = '\t'

/-- No name in a call has an apostrophe. -/
def QuotableCalls (ps : List Piece) : Prop :=
  ∀ name margined indent, .expr (.call name margined indent) ∈ ps → '\'' ∉ name

theorem WordCalls.tail {p : Piece} {ps : List Piece} (h : WordCalls (p :: ps)) : WordCalls ps :=
  fun name margined indent hmem => h name margined indent (List.mem_cons_of_mem p hmem)

theorem QuotableCalls.tail {p : Piece} {ps : List Piece} (h : QuotableCalls (p :: ps)) :
    QuotableCalls ps :=
  fun name margined indent hmem => h name margined indent (List.mem_cons_of_mem p hmem)

theorem callText_eq_written {name indent : Text} (hname : '\'' ∉ name)
    (hindent : ∀ c ∈ indent, c = ' ' ∨ c = '\t') (margined : Bool) :
    callText name.escape margined indent = (Expr.call name margined indent).written := by
  unfold callText
  rw [nameLiteral_eq_quoted hname, nameLiteral_of_blank hindent, Expr.written_call]

/-- Without apostrophes in names the code is the code of the pieces. -/
theorem rawInside_eq {ps : List Piece} (hwords : WordCalls ps) (hquotable : QuotableCalls ps) :
    rawInside ps = inside ps := by
  induction ps with
  | nil => rfl
  | cons p ps ih =>
      have hcode : rawCode p = p.code := by
        cases p with
        | char c => rfl
        | expr e =>
            cases e with
            | call name margined indent =>
                have hname := hquotable name margined indent List.mem_cons_self
                have hindent := (hwords name margined indent List.mem_cons_self).2
                rw [rawCode, callText_eq_written hname hindent, splice_standard]
                rfl
            | _ => rfl
      rw [rawInside_cons, inside_cons, hcode, ih hwords.tail hquotable.tail]

/-! ## Reading calls -/

theorem callText_append (name indent : Text) (margined : Bool) (t : Text) :
    ∃ rest, callText name margined indent ++ t =
      "LR::p($cx, ".toList ++ (nameLiteral name ++ (", $in, ".toList ++ rest)) := by
  unfold callText
  rw [List.append_assoc, List.append_assoc, List.append_assoc]
  exact ⟨_, rfl⟩

theorem written_call_append (name indent : Text) (margined : Bool) (t : Text) :
    ∃ rest, (Expr.call name margined indent).written ++ t =
      "LR::p($cx, ".toList ++ (quoted name ++ (", $in, ".toList ++ rest)) := by
  rw [Expr.written_call, List.append_assoc, List.append_assoc, List.append_assoc]
  exact ⟨_, rfl⟩

/-- A token that starts like a call is one. -/
theorem exists_call_of_written {u : Token} {s t : Text}
    (h : u.written ++ s = "LR::p($cx, ".toList ++ t) :
    ∃ name rest, t = quoted name ++ (", $in, ".toList ++ rest) := by
  have hhead := congrArg List.head? h
  cases u with
  | literal value => cases hhead
  | expr e =>
      cases e with
      | «variable» name => cases hhead
      | margin => cases hhead
      | call name margined indent =>
          obtain ⟨rest, hrest⟩ := written_call_append name indent margined s
          have hcall : (Token.expr (.call name margined indent)).written ++ s =
              "LR::p($cx, ".toList ++ (quoted name ++ (", $in, ".toList ++ rest)) := hrest
          rw [hcall] at h
          exact ⟨name, rest, (List.append_cancel_left h).symm⟩

/-- If a literal can be read where a name is, the name has no apostrophe. -/
theorem not_mem_of_nameLiteral {name other s t : Text} (hname : ∀ c ∈ name, isBlank c = false)
    (h : nameLiteral name.escape ++ s = quoted other ++ (", ".toList ++ t)) : '\'' ∉ name := by
  intro hmem
  obtain ⟨a, b, rfl, ha⟩ := List.eq_append_cons_of_mem hmem
  have hescape : Text.escape (a ++ '\'' :: b) = Text.protect a ++ '\'' :: Text.escape b := by
    have hquote : '\'' ∉ Text.escape a := fun hmem => ha (Text.mem_of_mem_escape hmem)
    have hcons : Text.escape ('\'' :: b) = '\'' :: Text.escape b := rfl
    rw [Text.escape_append, hcons, Text.protect, Text.quote_of_not_mem hquote]
  have hblank : ' ' ∉ Text.escape b := by
    intro hmem
    have hb := Text.mem_of_mem_escape hmem
    exact absurd (hname ' ' (List.mem_append_right a (List.mem_cons_of_mem _ hb))) (by decide)
  have hbody : Text.protect a ++ '\'' :: (Text.escape b ++ '\'' :: s) =
      Text.protect other ++ '\'' :: (", ".toList ++ t) := by
    rw [hescape] at h
    simpa [nameLiteral, quoted] using h
  obtain ⟨-, hrest⟩ := Text.protect_append_inj hbody
  cases hb : Text.escape b with
  | nil =>
      rw [hb] at hrest
      cases (List.cons.inj hrest).1
  | cons c r =>
      rw [hb] at hrest hblank
      obtain ⟨-, hrest⟩ := List.cons.inj hrest
      cases r with
      | nil => cases (List.cons.inj hrest).1
      | cons d r =>
          obtain rfl : d = ' ' := (List.cons.inj hrest).1
          exact hblank (List.mem_cons_of_mem _ List.mem_cons_self)

theorem not_mem_of_written {u : Token} {name indent s t : Text} {margined : Bool}
    (hname : ∀ c ∈ name, isBlank c = false)
    (h : u.written ++ s = callText name.escape margined indent ++ t) : '\'' ∉ name := by
  obtain ⟨rest, hrest⟩ := callText_append name.escape indent margined t
  rw [hrest] at h
  obtain ⟨other, rest', hcall⟩ := exists_call_of_written h
  exact not_mem_of_nameLiteral hname hcall

/-- After one token and a full stop the others are written. -/
theorem exists_of_written_eq {ts : List Token} {t : Token} {rest : Text}
    (h : written ts = t.written ++ '.' :: rest) : ∃ us, ts = t :: us ∧ written us = rest := by
  cases ts with
  | nil => exact absurd h.symm (List.append_ne_nil_of_right_ne_nil _ (List.cons_ne_nil _ _))
  | cons u us =>
      by_cases hus : us = []
      · subst hus
        have hone : u.written ++ [] = t.written ++ '.' :: rest := (List.append_nil _).trans h
        exact absurd (Token.written_append_inj hone).2 (List.cons_ne_nil _ _).symm
      · rw [written_cons hus] at h
        obtain ⟨rfl, hrest⟩ := Token.written_append_inj h
        exact ⟨us, rfl, (List.cons.inj hrest).2⟩

theorem exists_head_of_written {ts : List Token} {s : Text} (hs : s ≠ []) (h : written ts = s) :
    ∃ u : Token, ∃ rest, u.written ++ rest = s := by
  cases ts with
  | nil => exact absurd h.symm hs
  | cons u us =>
      by_cases hus : us = []
      · subst hus
        exact ⟨u, [], (List.append_nil _).trans h⟩
      · rw [written_cons hus] at h
        exact ⟨u, _, h⟩

/-- Code that is written by tokens has no apostrophe in the name of a call. -/
theorem quotable_of_written {ps : List Piece} (hwords : WordCalls ps) {ts : List Token}
    {before : Text} (h : written ts = '\'' :: (before.protect ++ (rawInside ps ++ ['\'']))) :
    QuotableCalls ps := by
  induction ps generalizing ts before with
  | nil => exact fun _ _ _ hmem => absurd hmem List.not_mem_nil
  | cons p ps ih =>
      cases p with
      | char c =>
          have hcode : rawInside (.char c :: ps) = Text.protect [c] ++ rawInside ps := rfl
          rw [hcode, List.append_assoc, ← List.append_assoc before.protect, ← Text.protect_append] at h
          intro name margined indent hmem
          rcases List.mem_cons.mp hmem with hmem | hmem
          · cases hmem
          · exact ih hwords.tail h name margined indent hmem
      | expr e =>
          have hliteral : ∀ x : Text, rawCode (.expr e) = "'.".toList ++ (x ++ ".'".toList) →
              ∃ us, written us = x ++ '.' :: '\'' :: (rawInside ps ++ ['\'']) := by
            intro x hx
            have hfirst : written ts = (Token.literal before).written ++
                '.' :: (x ++ '.' :: '\'' :: (rawInside ps ++ ['\''])) := by
              rw [h, rawInside_cons, hx]
              simp [Token.written, quoted]
            obtain ⟨us, -, hus⟩ := exists_of_written_eq hfirst
            exact ⟨us, hus⟩
          have hrest : ∀ us, written us = e.written ++ '.' :: '\'' :: (rawInside ps ++ ['\'']) →
              QuotableCalls ps := by
            intro us hus
            have hexpr : written us = (Token.expr e).written ++ '.' :: _ := hus
            obtain ⟨vs, -, hvs⟩ := exists_of_written_eq hexpr
            have hempty : written vs = '\'' :: (Text.protect [] ++ (rawInside ps ++ ['\''])) := hvs
            exact ih hwords.tail hempty
          intro name margined indent hmem
          cases e with
          | call other margined' indent' =>
              obtain ⟨hother, hindent⟩ := hwords other margined' indent' List.mem_cons_self
              obtain ⟨us, hus⟩ := hliteral _ (splice_standard _)
              obtain ⟨u, rest, hu⟩ :=
                exists_head_of_written (List.append_ne_nil_of_right_ne_nil _ (List.cons_ne_nil _ _)) hus
              have hquote := not_mem_of_written hother hu
              rcases List.mem_cons.mp hmem with heq | hmem
              · obtain ⟨rfl, -, -⟩ := Expr.call.inj (Piece.expr.inj heq)
                exact hquote
              · rw [callText_eq_written hquote hindent] at hus
                exact hrest us hus name margined indent hmem
          | _ =>
              obtain ⟨us, hus⟩ := hliteral _ rfl
              rcases List.mem_cons.mp hmem with heq | hmem
              · cases heq
              · exact hrest us hus name margined indent hmem

/-- Code with names as they are is written by tokens exactly if no name has an apostrophe, and
these tokens have its pieces. -/
theorem written_eq_rawInside_iff {ps : List Piece} (hwords : WordCalls ps) {ts : List Token} :
    written ts = '\'' :: (rawInside ps ++ ['\'']) ↔ QuotableCalls ps ∧ ts = tokens [] ps := by
  constructor
  · intro h
    have hempty : written ts = '\'' :: (Text.protect [] ++ (rawInside ps ++ ['\''])) := h
    have hquotable := quotable_of_written hwords hempty
    rw [rawInside_eq hwords hquotable] at h
    exact ⟨hquotable, written_eq_inside_iff.mp h⟩
  · rintro ⟨hquotable, hts⟩
    rw [rawInside_eq hwords hquotable]
    exact written_eq_inside_iff.mpr hts

end Inlay.Handlebars
