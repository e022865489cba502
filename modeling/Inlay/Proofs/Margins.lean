import Inlay.Proofs.Indentation

/-!
# Margins

Indentation can be written late: a line owes its margin until something is
put on it. Read this way the indentation of a text goes from character to
character, and from node to node of its scan. A tag that is alone on its
line takes the margin of the line with it.
-/

namespace Inlay

/-- Whether the margin of the line is still to come. -/
inductive Margin where
  /-- Nothing was written yet. -/
  | fresh
  /-- A line has ended. -/
  | due
  /-- The line has begun. -/
  | paid
deriving DecidableEq

namespace Margin

/-- Nothing is on the line yet. -/
def atStart : Margin → Bool
  | paid => false
  | _ => true

/-- The state after a character. -/
def next (c : Char) : Margin :=
  if c = '\n' then due else paid

/-- The state after a text. -/
def after : Margin → Text → Margin
  | m, [] => m
  | _, c :: s => after (next c) s

/-- What is written before the next thing on the line. -/
def owed (w : Text) : Margin → Text
  | paid => []
  | _ => w

/-- What is written where nothing follows. -/
def closing (w : Text) : Margin → Text
  | fresh => w
  | _ => []

@[simp] theorem after_nil (m : Margin) : m.after [] = m := rfl

@[simp] theorem after_cons (m : Margin) (c : Char) (s : Text) :
    m.after (c :: s) = (next c).after s := rfl

theorem next_newline : next '\n' = due := rfl

theorem next_of_ne {c : Char} (h : c ≠ '\n') : next c = paid :=
  if_neg h

@[simp] theorem after_append (m : Margin) (s t : Text) : m.after (s ++ t) = (m.after s).after t := by
  induction s generalizing m with
  | nil => rfl
  | cons c s ih => exact ih (next c)

/-- Characters that are written as more than one keep their line. -/
theorem after_flatMap {g : Char → Text} (hg : ∀ c (m : Margin), m.after (g c) = .next c) (m : Margin)
    (s : Text) : m.after (s.flatMap g) = m.after s := by
  induction s generalizing m with
  | nil => rfl
  | cons c s ih => rw [List.flatMap_cons, after_append, hg, ih, after_cons]

theorem after_escape (m : Margin) (s : Text) : m.after s.escape = m.after s := by
  refine after_flatMap (fun c m => ?_) m s
  by_cases hc : c = '\\'
  · subst hc
    rfl
  · rw [if_neg hc]
    rfl

theorem after_quote (m : Margin) (s : Text) : m.after s.quote = m.after s := by
  refine after_flatMap (fun c m => ?_) m s
  by_cases hc : c = '\''
  · subst hc
    rfl
  · rw [if_neg hc]
    rfl

theorem after_of_not_mem {s : Text} (h : '\n' ∉ s) : paid.after s = paid := by
  induction s with
  | nil => rfl
  | cons c s ih =>
      obtain ⟨hc, hs⟩ := not_or.mp (List.mem_cons.not.mp h)
      rw [after_cons, next_of_ne (Ne.symm hc), ih hs]

theorem after_ne_fresh {m : Margin} {s : Text} (h : m ≠ fresh ∨ s ≠ []) : m.after s ≠ fresh := by
  induction s generalizing m with
  | nil => exact h.resolve_right fun hne => hne rfl
  | cons c s ih =>
      apply ih
      left
      unfold next
      split <;> decide

theorem owed_nil (m : Margin) : m.owed [] = [] := by
  cases m <;> rfl

theorem closing_nil (m : Margin) : m.closing [] = [] := by
  cases m <;> rfl

theorem mem_of_mem_owed {m : Margin} {w : Text} {c : Char} (h : c ∈ m.owed w) : c ∈ w := by
  cases m with
  | paid => cases h
  | _ => exact h

end Margin

/-! ## Texts with margins -/

namespace Text

open Margin

variable (w : Text)

/-- The text with the margins of its lines, up to its last character. -/
def lead : Margin → Text → Text
  | _, [] => []
  | m, c :: s => m.owed w ++ c :: lead (next c) s

/-- The whole text with the margins of its lines. -/
def laid (m : Margin) (s : Text) : Text :=
  lead w m s ++ (m.after s).closing w

@[simp] theorem lead_nil (m : Margin) : lead w m [] = [] := rfl

theorem lead_cons (m : Margin) (c : Char) (s : Text) :
    lead w m (c :: s) = m.owed w ++ c :: lead w (next c) s := rfl

theorem lead_append (m : Margin) (s t : Text) :
    lead w m (s ++ t) = lead w m s ++ lead w (m.after s) t := by
  induction s generalizing m with
  | nil => rfl
  | cons c s ih =>
      rw [List.cons_append, lead_cons, ih, lead_cons, after_cons, List.append_assoc,
        List.cons_append]

theorem lead_of_not_mem {s : Text} (h : '\n' ∉ s) : lead w .paid s = s := by
  induction s with
  | nil => rfl
  | cons c s ih =>
      obtain ⟨hc, hs⟩ := not_or.mp (List.mem_cons.not.mp h)
      rw [lead_cons, next_of_ne (Ne.symm hc), ih hs]
      rfl

/-- On a line that has no end the margin is written once. -/
theorem lead_append_owed {s : Text} (h : '\n' ∉ s) (m : Margin) :
    lead w m s ++ (m.after s).owed w = m.owed w ++ s := by
  cases s with
  | nil => exact (List.append_nil _).symm
  | cons c s =>
      obtain ⟨hc, hs⟩ := not_or.mp (List.mem_cons.not.mp h)
      rw [lead_cons, after_cons, next_of_ne (Ne.symm hc), lead_of_not_mem w hs, after_of_not_mem hs]
      exact List.append_nil _

theorem lead_empty (m : Margin) (s : Text) : lead [] m s = s := by
  induction s generalizing m with
  | nil => rfl
  | cons c s ih => rw [lead_cons, ih, owed_nil, List.nil_append]

theorem laid_eq_lead {m : Margin} {s : Text} (h : m ≠ .fresh ∨ s ≠ []) : laid w m s = lead w m s := by
  have hne := after_ne_fresh h
  unfold laid
  cases hafter : m.after s with
  | fresh => exact absurd hafter hne
  | _ => exact List.append_nil _

theorem lead_next (c : Char) (s : Text) :
    c :: lead w (next c) s = indentBreaks w (c :: s) := by
  induction s generalizing c with
  | nil => exact (indentBreaks_singleton w c).symm
  | cons d s ih =>
      rw [indentBreaks_cons w (List.cons_ne_nil d s), ← ih d, lead_cons]
      by_cases hc : c = '\n'
      · subst hc
        rw [indentAll_newline, next_newline]
        rfl
      · rw [indentAll_singleton w hc, next_of_ne hc]
        rfl

theorem indentLines_eq_laid (s : Text) : indentLines w s = laid w .fresh s := by
  cases s with
  | nil => exact (indentLines_nil w).trans rfl
  | cons c s =>
      rw [laid_eq_lead w (.inr (List.cons_ne_nil c s)), lead_cons, lead_next]
      rfl

theorem mem_of_mem_lead {w s : Text} {m : Margin} {c : Char} (h : c ∈ lead w m s) :
    c ∈ w ∨ c ∈ s := by
  induction s generalizing m with
  | nil => cases h
  | cons d s ih =>
      rw [lead_cons] at h
      rcases List.mem_append.mp h with h | h
      · exact .inl (Margin.mem_of_mem_owed h)
      · rcases List.mem_cons.mp h with rfl | h
        · exact .inr List.mem_cons_self
        · exact (ih h).imp_right (List.mem_cons_of_mem d)

/-- Code that stays on its line has its margin first. -/
theorem lead_of_line {s : Text} (hs : s ≠ []) (hline : '\n' ∉ s) (w : Text) (m : Margin) :
    lead w m s = m.owed w ++ s ∧ m.after s = .paid := by
  obtain ⟨c, s, rfl⟩ := List.exists_cons_of_ne_nil hs
  obtain ⟨hc, hs⟩ := not_or.mp (List.mem_cons.not.mp hline)
  rw [lead_cons, Margin.after_cons, Margin.next_of_ne (Ne.symm hc)]
  exact ⟨by rw [lead_of_not_mem w hs], Margin.after_of_not_mem hs⟩

theorem laid_append (w : Text) (m : Margin) (s t : Text) :
    laid w m (s ++ t) = lead w m s ++ laid w (m.after s) t := by
  unfold laid
  rw [lead_append, Margin.after_append, List.append_assoc]

theorem laid_append_of_line {s : Text} (hs : s ≠ []) (hline : '\n' ∉ s) (w : Text) (m : Margin)
    (t : Text) : laid w m (s ++ t) = m.owed w ++ (s ++ laid w .paid t) := by
  obtain ⟨hlead, hafter⟩ := lead_of_line hs hline w m
  rw [laid_append, hlead, hafter, List.append_assoc]

/-! ## Searching -/

variable {w}

/-- A mark without newlines starts a line in the same places. -/
theorem after?_lead {mark : Text} (hmark : '\n' ∉ mark) (s : Text) :
    after? mark (lead w .paid s) = (after? mark s).map (lead w .paid) := by
  induction mark generalizing s with
  | nil => simp
  | cons m mark ih =>
      obtain ⟨hm, hmark⟩ := not_or.mp (List.mem_cons.not.mp hmark)
      cases s with
      | nil => rfl
      | cons c s =>
          show after? (m :: mark) (c :: lead w (next c) s) = _
          by_cases hc : m = c
          · subst hc
            simp only [after?, if_true]
            rw [next_of_ne (Ne.symm hm)]
            exact ih hmark s
          · simp [after?, hc]

theorem cut?_lead {k : Char} {mark : Text} (hmark : '\n' ∉ k :: mark) (hk : k ∉ w) (m : Margin)
    (s : Text) :
    cut? (k :: mark) (lead w m s) = (cut? (k :: mark) s).map fun parts =>
      (lead w m parts.1 ++ (m.after parts.1).owed w, lead w .paid parts.2) := by
  induction s generalizing m with
  | nil => rfl
  | cons c s ih =>
      have howed : k ∉ m.owed w := fun h => hk (mem_of_mem_owed h)
      rw [lead_cons, cut?_append_of_not_mem howed]
      by_cases hc : c = '\n'
      · have hnone : ∀ t : Text, after? (k :: mark) (c :: t) = none := by
          intro t
          have hne : k ≠ c := fun e => hmark (List.mem_cons.mpr (.inl (by rw [e, hc])))
          simp [after?, hne]
        rw [cut?, hnone, cut?, hnone, ih]
        cases cut? (k :: mark) s with
        | none => rfl
        | some parts => simp [lead_cons]
      · have hpaid : c :: lead w (next c) s = lead w .paid (c :: s) := rfl
        have hafter := after?_lead (w := w) hmark (c :: s)
        rw [← hpaid] at hafter
        rw [cut?, hafter, cut?]
        cases hs : after? (k :: mark) (c :: s) with
        | some rest => simp
        | none =>
            rw [Option.map_none, ih]
            cases cut? (k :: mark) s with
            | none => rfl
            | some parts => simp [lead_cons]

end Text

/-! ## Woven nodes -/

/-- No tag of a variable has a newline in the name. -/
def Text.Unbroken (s : Text) : Prop :=
  ∀ name, Tag.variable name ∈ s.tags → '\n' ∉ name

instance (s : Text) : Decidable s.Unbroken :=
  decidable_of_bool (s.tags.all fun | .variable name => decide ('\n' ∉ name) | _ => true) <| by
    rw [List.all_eq_true]
    constructor
    · intro h name hname
      exact of_decide_eq_true (h _ hname)
    · intro h tag htag
      cases tag with
      | «variable» name => exact decide_eq_true (h name htag)
      | _ => rfl

theorem Text.Unbroken.of_subset {s t : Text} (h : s.Unbroken) (hsub : t.tags ⊆ s.tags) :
    t.Unbroken :=
  fun name hname => h name (hsub hname)

/-- Literals and plain tags in turn, up to a literal at the end; with `true`, a literal comes
first. -/
inductive Woven (P : Text → Prop) : Bool → List Node → Prop
  | done : Woven P false []
  | literal {text ns} : Woven P false ns → Woven P true (.literal text :: ns)
  | variable {name ns} : '\n' ∉ name → Woven P true ns → Woven P false (.variable name :: ns)
  | reference {name indent ns} :
      P name → (∀ c ∈ indent.getD [], c = ' ' ∨ c = '\t') → Woven P true ns →
      Woven P false (.reference (.named name) indent :: ns)

theorem Woven.subset {P : Text → Prop} {b : Bool} {ns : List Node} (h : Woven P b ns) :
    ∀ n ∈ ns, n.Plain P := by
  induction h with
  | done => exact fun n hn => absurd hn List.not_mem_nil
  | literal _ ih => exact List.forall_mem_cons.mpr ⟨trivial, ih⟩
  | «variable» _ _ ih => exact List.forall_mem_cons.mpr ⟨trivial, ih⟩
  | reference hP hindent _ ih => exact List.forall_mem_cons.mpr ⟨⟨hP, hindent⟩, ih⟩

theorem Node.isBlank_of_standalone {atStart : Bool} {before rest w : Text}
    (h : (standalone atStart before rest).2.1 = some w) : ∀ c ∈ w, c = ' ' ∨ c = '\t' := by
  unfold standalone at h
  split at h
  · rename_i hi _
    obtain rfl := Option.some.inj h
    exact isBlank_of_lineIndent? hi
  · cases h

theorem Text.Plain.woven {P : Text → Prop} {s : Text} (hs : s.Plain P) (hunbroken : s.Unbroken)
    (atStart : Bool) : Woven P true (Node.scan atStart s) := by
  revert hunbroken
  refine hs.induction (motive := fun atStart s =>
    s.Unbroken → Woven P true (Node.scan atStart s)) ?_ ?_ ?_ atStart
  · intro atStart s hnext _
    rw [Node.scan_of_none hnext]
    exact .literal .done
  · intro atStart s before inside rest name hnext htag hname ih hunbroken
    rw [Node.scan_of_reference hnext htag]
    refine .literal (.reference hname ?_ (ih (hunbroken.of_subset ?_)))
    · cases hindent : (Node.standalone atStart before rest).2.1 with
      | none => exact fun c hc => absurd hc List.not_mem_nil
      | some w => exact Node.isBlank_of_standalone hindent
    · rw [Node.tags_standalone, Text.tags_of_next? hnext]
      exact List.subset_cons_self _ _
  · intro atStart s before inside rest name hnext htag ih hunbroken
    have htags : s.tags = .variable name :: rest.tags := by rw [Text.tags_of_next? hnext, htag]
    rw [Node.scan_of_variable hnext htag]
    refine .literal (.variable (hunbroken name ?_) (ih (hunbroken.of_subset ?_)))
    · rw [htags]
      exact List.mem_cons_self
    · rw [htags]
      exact List.subset_cons_self _ _

/-! ## Nodes with margins -/

namespace Node

open Margin

/-- The margin that stands at the end of a literal before these nodes. A tag that is alone on
its line takes the margin itself. -/
def trailing (w : Text) (m : Margin) : List Node → Text
  | [] => m.closing w
  | .literal _ :: _ => []
  | .reference _ (some _) :: _ => []
  | _ => m.owed w

/-- The nodes with the margins of their lines. -/
def shift (w : Text) : Margin → List Node → List Node
  | _, [] => []
  | m, .literal text :: ns =>
      .literal (Text.lead w m text ++ trailing w (m.after text) ns) :: shift w (m.after text) ns
  | _, .reference target (some v) :: ns => .reference target (some (w ++ v)) :: shift w .due ns
  | _, n :: ns => n :: shift w .paid ns

end Node

theorem Node.standalone_eq_of_none {atStart : Bool} {before rest kept after : Text}
    (h : standalone atStart before rest = (kept, none, after)) : kept = before ∧ after = rest := by
  unfold standalone at h
  split at h
  · cases h
  · cases h
    exact ⟨rfl, rfl⟩

/-- Before a literal no margin is due. -/
theorem Woven.trailing_eq {P : Text → Prop} {ns : List Node} (h : Woven P true ns) (w : Text)
    (m : Margin) : Node.trailing w m ns = [] := by
  cases h
  rfl

namespace Text

open Margin

variable {w : Text} {P : Text → Prop}

theorem owed_of_atStart {m : Margin} (h : m.atStart = true) : m.owed w = w := by
  cases m with
  | paid => cases h
  | _ => rfl

theorem lead_newline (m : Margin) (k : Text) :
    lead w m (k ++ ['\n']) = (lead w m k ++ (m.after k).owed w) ++ ['\n'] := by
  rw [lead_append, lead_cons, lead_nil, List.append_assoc]

/-- The last line of a text has its margin, and what is before keeps its own. -/
theorem lastLine_lead (hw : '\n' ∉ w) (m : Margin) (s : Text) :
    Node.lastLine (lead w m s ++ (m.after s).owed w) =
        (m.after (Node.beforeLastLine s)).owed w ++ Node.lastLine s ∧
      Node.beforeLastLine (lead w m s ++ (m.after s).owed w) =
        lead w m (Node.beforeLastLine s) := by
  have hline := Node.newline_not_mem_lastLine s
  have hsplit : lead w m s ++ (m.after s).owed w = lead w m (Node.beforeLastLine s) ++
      ((m.after (Node.beforeLastLine s)).owed w ++ Node.lastLine s) := by
    conv_lhs => rw [← Node.beforeLastLine_append_lastLine s]
    rw [lead_append, after_append, List.append_assoc, lead_append_owed w hline]
  have hkept : lead w m (Node.beforeLastLine s) = [] ∨
      ∃ k, lead w m (Node.beforeLastLine s) = k ++ ['\n'] := by
    rcases Node.beforeLastLine_cases s with hk | ⟨k, hk⟩
    · rw [hk]
      exact .inl rfl
    · rw [hk, lead_newline]
      exact .inr ⟨_, rfl⟩
  have hnewline : '\n' ∉ (m.after (Node.beforeLastLine s)).owed w ++ Node.lastLine s := by
    intro h
    rcases List.mem_append.mp h with h | h
    · exact hw (mem_of_mem_owed h)
    · exact hline h
  rw [hsplit]
  exact Node.lastLine_append hkept hnewline

theorem isEmpty_lead (m : Margin) (s : Text) : (lead w m s).isEmpty = s.isEmpty := by
  cases s with
  | nil => rfl
  | cons c s =>
      rw [lead_cons]
      cases m.owed w <;> rfl

theorem not_mem_of_blank {w : Text} (hw : ∀ c ∈ w, c = ' ' ∨ c = '\t') {c : Char}
    (h₁ : c ≠ ' ') (h₂ : c ≠ '\t') : c ∉ w :=
  fun h => (hw c h).elim h₁ h₂

theorem lineIndent?_lead (hw : ∀ c ∈ w, c = ' ' ∨ c = '\t') (m : Margin) (before : Text) :
    Node.lineIndent? m.atStart (lead w m before ++ (m.after before).owed w) =
      (Node.lineIndent? m.atStart before).map fun parts => (lead w m parts.1, w ++ parts.2) := by
  obtain ⟨hline, hkept⟩ := lastLine_lead (not_mem_of_blank hw (by decide) (by decide)) m before
  have hblank : ∀ k : Margin, (k.owed w).all (fun c => c == ' ' || c == '\t') = true := by
    intro k
    rw [List.all_eq_true]
    intro c hc
    simpa using hw c (mem_of_mem_owed hc)
  rw [Node.lineIndent?_eq, Node.lineIndent?_eq, hline, hkept, List.all_append, hblank,
    Bool.true_and, isEmpty_lead]
  split
  · rename_i hstart
    have howed : (m.after (Node.beforeLastLine before)).owed w = w := by
      rcases Node.beforeLastLine_cases before with hk | ⟨k, hk⟩
      · rw [hk] at hstart ⊢
        have hatStart := (Bool.and_eq_true_iff.mp hstart).2
        exact owed_of_atStart (by simpa using hatStart)
      · rw [hk, after_append]
        rfl
    rw [howed]
    rfl
  · rfl

theorem takeWhile_lead (s : Text) :
    (lead w .paid s).takeWhile (· != '\n') = s.takeWhile (· != '\n') ∧
      (lead w .paid s).dropWhile (· != '\n') =
        match s.dropWhile (· != '\n') with
        | [] => []
        | _ :: t => '\n' :: lead w .due t := by
  induction s with
  | nil => exact ⟨rfl, rfl⟩
  | cons c s ih =>
      show (c :: lead w (next c) s).takeWhile _ = _ ∧ (c :: lead w (next c) s).dropWhile _ = _
      by_cases hc : c = '\n'
      · subst hc
        exact ⟨rfl, rfl⟩
      · have hne : (c != '\n') = true := by simpa using hc
        rw [next_of_ne hc]
        simp only [List.takeWhile_cons, List.dropWhile_cons, hne, if_true, ih.1, ih.2, and_self]

theorem lineRest?_lead (rest : Text) :
    Node.lineRest? (lead w .paid rest) = (Node.lineRest? rest).map (laid w .due) := by
  obtain ⟨htake, hdrop⟩ := takeWhile_lead (w := w) rest
  unfold Node.lineRest?
  rw [htake, hdrop]
  split
  · rw [Option.map_some]
    cases rest.dropWhile (· != '\n') with
    | nil => rfl
    | cons c t =>
        rw [List.tail_cons, laid_eq_lead w (.inl (by decide))]
        rfl
  · rfl

theorem standalone_lead (hw : ∀ c ∈ w, c = ' ' ∨ c = '\t') (m : Margin) (before rest : Text) :
    Node.standalone m.atStart (lead w m before ++ (m.after before).owed w) (lead w .paid rest) =
      match Node.standalone m.atStart before rest with
      | (kept, some v, next) => (lead w m kept, some (w ++ v), laid w .due next)
      | (_, none, _) =>
          (lead w m before ++ (m.after before).owed w, none, lead w .paid rest) := by
  unfold Node.standalone
  rw [lineIndent?_lead hw, lineRest?_lead]
  cases Node.lineIndent? m.atStart before with
  | none => rfl
  | some parts =>
      cases Node.lineRest? rest with
      | none => rfl
      | some next => rfl

/-- Where the next tag of a text with margins is. -/
theorem next?_lead (hw : ∀ c ∈ w, c = ' ' ∨ c = '\t') (m : Margin) (s : Text) :
    Tag.next? (lead w m s) = (Tag.next? s).map fun parts =>
      (lead w m parts.1 ++ (m.after parts.1).owed w,
        lead w .paid parts.2.1 ++ (Margin.paid.after parts.2.1).owed w, lead w .paid parts.2.2) := by
  unfold Tag.next?
  have hopen : '\x7b' ∉ w := not_mem_of_blank hw (by decide) (by decide)
  have hclose : '\x7d' ∉ w := not_mem_of_blank hw (by decide) (by decide)
  rw [Tag.opening, cut?_lead (by decide) hopen]
  cases cut? ['\x7b', '\x7b'] s with
  | none => rfl
  | some parts =>
      simp only [Option.map_some, Option.bind_eq_bind, Option.bind_some]
      rw [Tag.closing, cut?_lead (by decide) hclose]
      cases cut? ['\x7d', '\x7d'] parts.2 <;> rfl

theorem next?_laid (hw : ∀ c ∈ w, c = ' ' ∨ c = '\t') (m : Margin) (s : Text) :
    Tag.next? (laid w m s) = (Tag.next? s).map fun parts =>
      (lead w m parts.1 ++ (m.after parts.1).owed w,
        lead w .paid parts.2.1 ++ (Margin.paid.after parts.2.1).owed w, lead w .paid parts.2.2) := by
  cases s with
  | nil =>
      have hmem : '\x7b' ∉ m.closing w := by
        cases m with
        | fresh => exact not_mem_of_blank hw (by decide) (by decide)
        | _ => exact List.not_mem_nil
      have hnone := Tag.next?_append_of_not_mem hmem []
      rw [List.append_nil] at hnone
      exact hnone
  | cons c s => rw [laid_eq_lead w (.inr (List.cons_ne_nil c s)), next?_lead hw]

theorem lead_due (s : Text) : lead w .due s ++ (Margin.due.after s).owed w =
    w ++ (lead w .paid s ++ (Margin.paid.after s).owed w) := by
  cases s with
  | nil => exact (List.append_nil w).symm
  | cons c s =>
      rw [lead_cons, lead_cons, List.append_assoc]
      rfl

/-- The inside of a tag with margins after its newlines. -/
theorem loosened_lead (hw : ∀ c ∈ w, isBlank c = true) (s : Text) :
    Loosened s (lead w .paid s ++ (Margin.paid.after s).owed w) := by
  induction s with
  | nil => exact .nil
  | cons c s ih =>
      show Loosened (c :: s) (c :: (lead w (next c) s ++ ((next c).after s).owed w))
      by_cases hc : c = '\n'
      · subst hc
        rw [next_newline, lead_due]
        exact .gap hw ih
      · rw [next_of_ne hc]
        exact .cons c ih

/-- A plain tag is the same with margins after its newlines. -/
theorem ofText_lead (hw : ∀ c ∈ w, isBlank c = true) {inside : Text}
    (hplain : (Tag.ofText inside).Plain P)
    (hunbroken : ∀ name, Tag.ofText inside = .variable name → '\n' ∉ name) :
    Tag.ofText (lead w .paid inside ++ (Margin.paid.after inside).owed w) = Tag.ofText inside := by
  have hloose := loosened_lead hw inside
  have houtline := hloose.outline_ofText
  cases htag : Tag.ofText inside with
  | reference target =>
      cases target with
      | named name =>
          rw [htag] at houtline
          cases hother : Tag.ofText (lead w .paid inside ++ (Margin.paid.after inside).owed w) with
          | reference other =>
              rw [hother] at houtline
              cases other with
              | named name' => exact houtline
              | _ => cases houtline
          | _ =>
              rw [hother] at houtline
              cases houtline
      | _ =>
          rw [htag] at hplain
          exact hplain.elim
  | «variable» name =>
      have hname : inside.trim = name := Tag.trim_of_variable htag
      have hsame := hloose.trim.eq_of_not_mem (hname ▸ hunbroken name htag)
      unfold Tag.ofText
      rw [hsame]
      exact htag
  | _ =>
      rw [htag] at hplain
      exact hplain.elim

theorem laid_paid (w rest : Text) : laid w .paid rest = lead w .paid rest :=
  laid_eq_lead w (.inl (by decide))

section

variable (hw : ∀ c ∈ w, c = ' ' ∨ c = '\t') {s before inside rest name : Text} (m : Margin)
  (hnext : Tag.next? s = some (before, inside, rest))

include hw hnext

/-- What follows a tag that is alone on its line starts a line, with its margin due. -/
theorem scan_laid_reference (htag : Tag.ofText inside = .reference (.named name)) (hname : P name)
    (hrest : ∀ k : Margin, k.atStart = (Node.standalone m.atStart before rest).2.1.isSome →
      Node.scan k.atStart (laid w k (Node.standalone m.atStart before rest).2.2) =
        Node.shift w k (Node.scan k.atStart (Node.standalone m.atStart before rest).2.2)) :
    Node.scan m.atStart (laid w m s) = Node.shift w m (Node.scan m.atStart s) := by
  have hblank : ∀ c ∈ w, isBlank c = true := fun c hc => isBlank_of_space_or_tab (hw c hc)
  have hlaid := next?_laid hw m s
  rw [hnext, Option.map_some] at hlaid
  have hinside : Tag.ofText (lead w .paid inside ++ (Margin.paid.after inside).owed w) =
      .reference (.named name) := by
    rw [← htag]
    refine ofText_lead hblank (P := P) (by rw [htag]; exact hname) fun other hother => ?_
    rw [htag] at hother
    cases hother
  rw [Node.scan_of_reference hnext htag, Node.scan_of_reference hlaid hinside, standalone_lead hw]
  rcases hstandalone : Node.standalone m.atStart before rest with ⟨kept, indent, after⟩
  rw [hstandalone] at hrest
  cases indent with
  | some v =>
      have hscan := hrest .due rfl
      have hlead : lead w m kept = lead w m kept ++ [] := (List.append_nil _).symm
      show .literal (lead w m kept) :: .reference (.named name) (some (w ++ v)) ::
        Node.scan true (laid w .due after) = _
      rw [hlead]
      exact congrArg (fun ns => _ :: _ :: ns) hscan
  | none =>
      obtain ⟨rfl, rfl⟩ := Node.standalone_eq_of_none hstandalone
      have hscan := hrest .paid rfl
      show .literal _ :: .reference (.named name) none :: Node.scan false (lead w .paid after) = _
      rw [← laid_paid]
      exact congrArg (fun ns => _ :: _ :: ns) hscan

theorem scan_laid_variable (htag : Tag.ofText inside = .variable name) (hline : '\n' ∉ name)
    (hrest : Node.scan false (laid w .paid rest) = Node.shift w .paid (Node.scan false rest)) :
    Node.scan m.atStart (laid w m s) = Node.shift w m (Node.scan m.atStart s) := by
  have hblank : ∀ c ∈ w, isBlank c = true := fun c hc => isBlank_of_space_or_tab (hw c hc)
  have hlaid := next?_laid hw m s
  rw [hnext, Option.map_some] at hlaid
  have hinside : Tag.ofText (lead w .paid inside ++ (Margin.paid.after inside).owed w) =
      .variable name := by
    rw [← htag]
    refine ofText_lead hblank (P := fun _ => True) (by rw [htag]; trivial) fun other hother => ?_
    rw [htag] at hother
    obtain rfl := Tag.variable.inj hother
    exact hline
  rw [Node.scan_of_variable hnext htag, Node.scan_of_variable hlaid hinside, ← laid_paid]
  exact congrArg (fun ns => _ :: _ :: ns) hrest

end

/-- Indentation of a plain text is indentation of its nodes. -/
theorem scan_laid (hw : ∀ c ∈ w, c = ' ' ∨ c = '\t') {s : Text} (hs : s.Plain P)
    (hunbroken : s.Unbroken) (m : Margin) :
    Node.scan m.atStart (laid w m s) = Node.shift w m (Node.scan m.atStart s) := by
  -- the induction is on the scan, which says only if a line starts, and not which margin is due
  suffices h : ∀ atStart, ∀ m : Margin, m.atStart = atStart →
      Node.scan m.atStart (laid w m s) = Node.shift w m (Node.scan m.atStart s) from h _ m rfl
  intro atStart
  revert hunbroken
  refine hs.induction (motive := fun atStart s => s.Unbroken → ∀ m : Margin, m.atStart = atStart →
    Node.scan m.atStart (laid w m s) = Node.shift w m (Node.scan m.atStart s)) ?_ ?_ ?_ atStart
  · intro atStart s hnext _ m _
    have hlaid := next?_laid hw m s
    rw [hnext, Option.map_none] at hlaid
    rw [Node.scan_of_none hnext, Node.scan_of_none hlaid]
    rfl
  · rintro _ s before inside rest name hnext htag hname ih hunbroken m rfl
    have hrest : (Node.standalone m.atStart before rest).2.2.Unbroken := by
      refine hunbroken.of_subset ?_
      rw [Node.tags_standalone, tags_of_next? hnext]
      exact List.subset_cons_self _ _
    exact scan_laid_reference hw m hnext htag hname (ih hrest)
  · rintro _ s before inside rest name hnext htag ih hunbroken m rfl
    have htags : s.tags = .variable name :: rest.tags := by rw [tags_of_next? hnext, htag]
    have hline : '\n' ∉ name := hunbroken name (htags ▸ List.mem_cons_self)
    have hrest : rest.Unbroken := by
      refine hunbroken.of_subset ?_
      rw [htags]
      exact List.subset_cons_self _ _
    exact scan_laid_variable hw m hnext htag hline (ih hrest .paid rfl)

end Text

end Inlay
