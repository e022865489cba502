import Inlay.Proofs.InertReplacement
import Inlay.Proofs.Lookup

/-!
# Programs of the target language

Code between two apostrophes is a sequence of literals and expressions, with
a full stop between neighbours. Nothing is written in two ways: the
end of each token can be told from its characters. What a program puts out
are characters and the values of variables.
-/

namespace Inlay

namespace Text

theorem quote_eq_replace (s : Text) : s.quote = replace ['\''] ['\\', '\''] s := by
  induction s with
  | nil => exact (replace_nil (by simp)).symm
  | cons c s ih =>
      by_cases hc : c = '\''
      · have h : replace ['\''] ['\\', '\''] (['\''] ++ s) =
            ['\\', '\''] ++ replace ['\''] ['\\', '\''] s := replace_append (by simp) s
        rw [hc, ← List.singleton_append, h, ← ih]
        rfl
      · rw [replace_cons_of_not_mem (by simp) (by simpa using hc), ← ih]
        simp [quote, hc]

theorem quote_of_not_mem {s : Text} (h : '\'' ∉ s) : s.quote = s := by
  rw [quote_eq_replace]
  exact replace_of_disjoint (by simp) fun c hc hmem => h (List.mem_singleton.mp hmem ▸ hc)

theorem mem_of_mem_quote {s : Text} {c : Char} (hc : c ≠ '\\') (h : c ∈ s.quote) : c ∈ s := by
  obtain ⟨d, hd, hmem⟩ := List.mem_flatMap.mp h
  by_cases hquote : d = '\''
  · subst hquote
    rcases List.mem_cons.mp hmem with rfl | hmem
    · exact absurd rfl hc
    · rwa [List.mem_singleton.mp hmem]
  · rw [if_neg hquote] at hmem
    rwa [List.mem_singleton.mp hmem]

theorem mem_of_mem_escape {s : Text} {c : Char} (h : c ∈ s.escape) : c ∈ s := by
  obtain ⟨d, hd, hmem⟩ := List.mem_flatMap.mp h
  by_cases hslash : d = '\\'
  · subst hslash
    simp only [if_true, List.mem_cons, List.not_mem_nil, or_false, or_self] at hmem
    rwa [hmem]
  · rw [if_neg hslash] at hmem
    rwa [List.mem_singleton.mp hmem]

/-- What stands between the apostrophes of the literal with this value. -/
def protect (s : Text) : Text :=
  s.escape.quote

@[simp] theorem protect_nil : protect [] = [] := rfl

@[simp] theorem protect_append (s t : Text) : protect (s ++ t) = protect s ++ protect t := by
  simp [protect]

theorem protect_cons (c : Char) (s : Text) : protect (c :: s) = protect [c] ++ protect s :=
  protect_append [c] s

theorem protect_backslash : protect ['\\'] = ['\\', '\\'] := by decide

theorem protect_apostrophe : protect ['\''] = ['\\', '\''] := by decide

theorem protect_singleton {c : Char} (h₁ : c ≠ '\\') (h₂ : c ≠ '\'') : protect [c] = [c] := by
  simp [protect, escape, quote, h₁, h₂]

/-- An apostrophe ends a literal unless a backslash is before it. -/
theorem apostrophe_ne_protect (c : Char) (s t : Text) : '\'' :: s ≠ protect [c] ++ t := by
  by_cases h₁ : c = '\\'
  · rw [h₁, protect_backslash]
    simp
  · by_cases h₂ : c = '\''
    · rw [h₂, protect_apostrophe]
      simp
    · rw [protect_singleton h₁ h₂]
      simp [Ne.symm h₂]

theorem protect_singleton_append_inj {c d : Char} {s t : Text}
    (h : protect [c] ++ s = protect [d] ++ t) : c = d ∧ s = t := by
  by_cases hc : c = '\\'
  · subst hc
    by_cases hd : d = '\\'
    · subst hd
      exact ⟨rfl, List.append_cancel_left h⟩
    · by_cases hd' : d = '\''
      · subst hd'
        simp [protect_backslash, protect_apostrophe] at h
      · simp [protect_backslash, protect_singleton hd hd', Ne.symm hd] at h
  · by_cases hc' : c = '\''
    · subst hc'
      by_cases hd : d = '\\'
      · subst hd
        simp [protect_backslash, protect_apostrophe] at h
      · by_cases hd' : d = '\''
        · subst hd'
          exact ⟨rfl, List.append_cancel_left h⟩
        · simp [protect_apostrophe, protect_singleton hd hd', Ne.symm hd] at h
    · by_cases hd : d = '\\'
      · subst hd
        simp [protect_backslash, protect_singleton hc hc', hc] at h
      · by_cases hd' : d = '\''
        · subst hd'
          simp [protect_apostrophe, protect_singleton hc hc', hc] at h
        · simpa [protect_singleton hc hc', protect_singleton hd hd'] using h

/-- Where a literal ends can be told from its characters. -/
theorem protect_append_inj {s t a b : Text}
    (h : protect s ++ '\'' :: a = protect t ++ '\'' :: b) : s = t ∧ a = b := by
  induction s generalizing t with
  | nil =>
      cases t with
      | nil => exact ⟨rfl, (List.cons.inj h).2⟩
      | cons d t =>
          rw [protect_cons d t, List.append_assoc] at h
          exact absurd h (apostrophe_ne_protect d a _)
  | cons c s ih =>
      cases t with
      | nil =>
          rw [protect_cons c s, List.append_assoc] at h
          exact absurd h.symm (apostrophe_ne_protect c b _)
      | cons d t =>
          rw [protect_cons c s, protect_cons d t, List.append_assoc, List.append_assoc] at h
          obtain ⟨hc, hrest⟩ := protect_singleton_append_inj h
          obtain ⟨hs, hab⟩ := ih hrest
          exact ⟨by rw [hc, hs], hab⟩

theorem protect_injective : Function.Injective protect :=
  fun _ _ h => (protect_append_inj (congrArg (· ++ ['\'']) h)).1

theorem escape_injective : Function.Injective escape :=
  fun _ _ h => protect_injective (congrArg quote h)

end Text

namespace Target

/-- The literal with this value. -/
def quoted (value : Text) : Text :=
  '\'' :: (value.protect ++ ['\''])

theorem quoted_append_inj {v w s t : Text} (h : quoted v ++ s = quoted w ++ t) :
    v = w ∧ s = t := by
  have hbody : v.protect ++ '\'' :: s = w.protect ++ '\'' :: t := by simpa [quoted] using h
  exact Text.protect_append_inj hbody

/-! ## Tokens -/

/-- What stands between the literals. -/
inductive Expr where
  | variable (name : Text)
  /-- The indentation parameter of a callable. -/
  | margin
  /-- A call to a unit, with an indentation that may follow the one of the caller. -/
  | call (name : Text) (margined : Bool) (indent : Text)
deriving DecidableEq

inductive Token where
  | literal (value : Text)
  | expr (e : Expr)
deriving DecidableEq

def Expr.written : Expr → Text
  | .variable name => "$in[".toList ++ (quoted name ++ [']'])
  | .margin => "$sp".toList
  | .call name margined indent =>
      "LR::p($cx, ".toList ++ (quoted name ++ (", $in, ".toList ++
        ((if margined then "$sp.".toList else []) ++ (quoted indent ++ [')']))))

@[simp] theorem Expr.written_variable (name : Text) :
    (Expr.variable name).written = "$in[".toList ++ (quoted name ++ [']']) := rfl

@[simp] theorem Expr.written_margin : Expr.margin.written = "$sp".toList := rfl

@[simp] theorem Expr.written_call (name indent : Text) (margined : Bool) :
    (Expr.call name margined indent).written =
      "LR::p($cx, ".toList ++ (quoted name ++ (", $in, ".toList ++
        ((if margined then "$sp.".toList else []) ++ (quoted indent ++ [')'])))) := rfl

def Token.written : Token → Text
  | .literal value => quoted value
  | .expr e => e.written

/-- Tokens with a full stop between neighbours. -/
def written : List Token → Text
  | [] => []
  | [t] => t.written
  | t :: u :: ts => t.written ++ '.' :: written (u :: ts)

theorem written_cons {ts : List Token} (h : ts ≠ []) (t : Token) :
    written (t :: ts) = t.written ++ '.' :: written ts := by
  cases ts with
  | nil => exact absurd rfl h
  | cons u ts => rfl

/-- Where an expression ends can be told from its characters. -/
theorem Expr.written_append_inj {e f : Expr} {s t : Text}
    (h : e.written ++ s = f.written ++ t) : e = f ∧ s = t := by
  cases e with
  | «variable» name =>
      cases f with
      | «variable» other =>
          simp only [written_variable, List.append_assoc] at h
          obtain ⟨hname, hrest⟩ := quoted_append_inj (List.append_cancel_left h)
          exact ⟨by rw [hname], List.append_cancel_left hrest⟩
      | margin => simp at h
      | call => simp at h
  | margin =>
      cases f with
      | «variable» => simp at h
      | margin => exact ⟨rfl, List.append_cancel_left h⟩
      | call => simp at h
  | call name margined indent =>
      cases f with
      | «variable» => simp at h
      | margin => simp at h
      | call other margined' indent' =>
          simp only [written_call, List.append_assoc] at h
          obtain ⟨hname, hrest⟩ := quoted_append_inj (List.append_cancel_left h)
          have hrest := List.append_cancel_left hrest
          obtain ⟨hm, hrest⟩ : margined = margined' ∧
              quoted indent ++ ([')'] ++ s) = quoted indent' ++ ([')'] ++ t) := by
            cases margined with
            | true =>
                cases margined' with
                | true => exact ⟨rfl, List.append_cancel_left hrest⟩
                | false => simp [quoted] at hrest
            | false =>
                cases margined' with
                | true => simp [quoted] at hrest
                | false => exact ⟨rfl, hrest⟩
          obtain ⟨hindent, hrest⟩ := quoted_append_inj hrest
          exact ⟨by rw [hname, hm, hindent], List.append_cancel_left hrest⟩

theorem quoted_append_ne_written (value s t : Text) (e : Expr) :
    quoted value ++ s ≠ e.written ++ t := by
  cases e <;> simp [quoted]

theorem Token.written_append_inj {a b : Token} {s t : Text}
    (h : a.written ++ s = b.written ++ t) : a = b ∧ s = t := by
  cases a with
  | literal value =>
      cases b with
      | literal other =>
          obtain ⟨rfl, hst⟩ := quoted_append_inj h
          exact ⟨rfl, hst⟩
      | expr f => exact absurd h (quoted_append_ne_written value s t f)
  | expr e =>
      cases b with
      | literal other => exact absurd h.symm (quoted_append_ne_written other t s e)
      | expr f =>
          obtain ⟨rfl, hst⟩ := Expr.written_append_inj h
          exact ⟨rfl, hst⟩

theorem Token.written_ne_nil (t : Token) : t.written ≠ [] := by
  cases t with
  | literal value => exact List.cons_ne_nil _ _
  | expr e => cases e <;> simp [Token.written]

theorem written_ne_nil {ts : List Token} (h : ts ≠ []) : written ts ≠ [] := by
  cases ts with
  | nil => exact absurd rfl h
  | cons t ts =>
      cases ts with
      | nil => exact t.written_ne_nil
      | cons u ts => exact List.append_ne_nil_of_right_ne_nil _ (List.cons_ne_nil _ _)

/-- No code is written by two sequences of tokens. -/
theorem written_injective {ts us : List Token} (h : written ts = written us) : ts = us := by
  induction ts generalizing us with
  | nil =>
      cases us with
      | nil => rfl
      | cons u us => exact absurd h.symm (written_ne_nil (List.cons_ne_nil u us))
  | cons t ts ih =>
      cases us with
      | nil => exact absurd h (written_ne_nil (List.cons_ne_nil t ts))
      | cons u us =>
          by_cases hts : ts = []
          · subst hts
            by_cases hus : us = []
            · subst hus
              have h : t.written ++ [] = u.written ++ [] := by simpa [written] using h
              rw [(Token.written_append_inj h).1]
            · rw [written_cons hus] at h
              have h : t.written ++ [] = u.written ++ '.' :: written us := by simpa [written] using h
              exact absurd (Token.written_append_inj h).2 (List.cons_ne_nil _ _).symm
          · rw [written_cons hts] at h
            by_cases hus : us = []
            · subst hus
              have h : t.written ++ '.' :: written ts = u.written ++ [] := by simpa [written] using h
              exact absurd (Token.written_append_inj h).2 (List.cons_ne_nil _ _)
            · rw [written_cons hus] at h
              obtain ⟨htu, hrest⟩ := Token.written_append_inj h
              rw [htu, ih (List.cons.inj hrest).2]

/-! ## The inside of a literal that expressions interrupt -/

/-- A character of a literal, or an expression between literals. -/
inductive Piece where
  | char (c : Char)
  | expr (e : Expr)
deriving DecidableEq

/-- An expression ends one literal and starts another one. -/
def Piece.code : Piece → Text
  | .char c => Text.protect [c]
  | .expr e => "'.".toList ++ (e.written ++ ".'".toList)

/-- The code of the pieces between two apostrophes. -/
def inside (ps : List Piece) : Text :=
  ps.flatMap Piece.code

@[simp] theorem inside_nil : inside [] = [] := rfl

@[simp] theorem inside_append (ps qs : List Piece) : inside (ps ++ qs) = inside ps ++ inside qs :=
  List.flatMap_append

theorem inside_cons (p : Piece) (ps : List Piece) : inside (p :: ps) = p.code ++ inside ps :=
  List.flatMap_cons

@[simp] theorem inside_map_char (s : Text) : inside (s.map .char) = s.protect := by
  induction s with
  | nil => rfl
  | cons c s ih => rw [List.map_cons, inside_cons, ih, Text.protect_cons, Piece.code]

def Token.pieces : Token → List Piece
  | .literal value => value.map .char
  | .expr e => [.expr e]

/-- The tokens of code that starts inside a literal, after the part `before` of its value. -/
def tokens (before : Text) : List Piece → List Token
  | [] => [.literal before]
  | .char c :: ps => tokens (before ++ [c]) ps
  | .expr e :: ps => .literal before :: .expr e :: tokens [] ps

theorem tokens_ne_nil (before : Text) (ps : List Piece) : tokens before ps ≠ [] := by
  induction ps generalizing before with
  | nil => exact List.cons_ne_nil _ _
  | cons p ps ih =>
      cases p with
      | char c => exact ih _
      | expr e => exact List.cons_ne_nil _ _

theorem written_tokens (before : Text) (ps : List Piece) :
    written (tokens before ps) = '\'' :: (before.protect ++ (inside ps ++ ['\''])) := by
  induction ps generalizing before with
  | nil => rfl
  | cons p ps ih =>
      cases p with
      | char c =>
          rw [tokens, ih, Text.protect_append, inside_cons, Piece.code, List.append_assoc,
            List.append_assoc]
      | expr e =>
          rw [tokens, written_cons (List.cons_ne_nil _ _), written_cons (tokens_ne_nil [] ps), ih,
            inside_cons]
          simp [Token.written, quoted, Piece.code]

theorem flatMap_pieces_tokens (before : Text) (ps : List Piece) :
    (tokens before ps).flatMap Token.pieces = before.map .char ++ ps := by
  induction ps generalizing before with
  | nil => simp [tokens, Token.pieces]
  | cons p ps ih =>
      cases p with
      | char c => simp [tokens, ih]
      | expr e => simp [tokens, ih, Token.pieces]

/-- The inside of a literal is written by one sequence of tokens only, and these have its pieces. -/
theorem written_eq_inside_iff {ps : List Piece} {ts : List Token} :
    written ts = '\'' :: (inside ps ++ ['\'']) ↔ ts = tokens [] ps := by
  have h := written_tokens [] ps
  rw [Text.protect_nil, List.nil_append] at h
  constructor
  · intro hts
    exact written_injective (hts.trans h.symm)
  · rintro rfl
    exact h

/-! ## Evaluation -/

/-- What a program puts out: a character, or the value of a variable, which depends on the
name of the variable only. -/
inductive Output where
  | char (c : Char)
  | variable (name : Text)
deriving DecidableEq

/-- The piece that puts out just this. -/
def Output.piece : Output → Piece
  | .char c => .char c
  | .variable name => .expr (.variable name)

@[simp] theorem map_piece_map_char (s : Text) :
    (s.map Output.char).map Output.piece = s.map Piece.char := by
  rw [List.map_map]
  rfl

end Target

end Inlay
