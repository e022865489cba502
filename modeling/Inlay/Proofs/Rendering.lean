import Inlay.Proofs.CallNames
import Inlay.Proofs.UnitCode
import Inlay.Proofs.Spreading
import Inlay.Proofs.StaticExpansion
import Inlay.Compile.Unit

/-!
# Rendering

Code puts something out together with a dispatch table: a call puts out
what the unit with this name returns, and passes an indentation to it. If
all units that are called are those of sources, then units put out what the
nodes of their sources do without resumed margins.
-/

namespace Inlay.Handlebars

open Target

/-! ## Evaluation -/

theorem pieces_tokens (ps : List Piece) : (tokens [] ps).flatMap Token.pieces = ps :=
  flatMap_pieces_tokens [] ps

/-- The entry of a unit that takes the indentation as a parameter and returns what the tokens
put out. -/
def entryText (name : Text) (body : List Token) : Text :=
  quoted name ++ (" => function ($cx, $in, $sp) \x7breturn ".toList ++
    (written body ++ ";\x7d".toList))

theorem entryText_injective (name : Text) : Function.Injective (entryText name) := by
  intro body other h
  have hrest := List.append_cancel_left (List.append_cancel_left h)
  exact written_injective (List.append_cancel_right hrest)

/-- What pieces put out where the indentation parameter has the value `sp`. A name stands in
the table as its literal is written. -/
inductive Evaluates (table : OrderedMap Text) : Text → List Piece → List Output → Prop
  | nil {sp} : Evaluates table sp [] []
  | char {sp c ps out} : Evaluates table sp ps out → Evaluates table sp (.char c :: ps) (.char c :: out)
  | variable {sp name ps out} :
      Evaluates table sp ps out →
      Evaluates table sp (.expr (.variable name) :: ps) (.variable name :: out)
  | margin {sp ps out} :
      Evaluates table sp ps out →
      Evaluates table sp (.expr .margin :: ps) (sp.map .char ++ out)
  | call {sp name margined indent body ps a b} :
      table.get? name.protect = some (entryText name body) →
      Evaluates table ((if margined then sp else []) ++ indent) (body.flatMap Token.pieces) a →
      Evaluates table sp ps b →
      Evaluates table sp (.expr (.call name margined indent) :: ps) (a ++ b)

/-- The code between two apostrophes puts this out, where the indentation parameter has the
value `sp`. -/
def PutsOut (table : OrderedMap Text) (sp code : Text) (out : List Output) : Prop :=
  ∃ ts, written ts = '\'' :: (code ++ ['\'']) ∧ Evaluates table sp (ts.flatMap Token.pieces) out

/-- The code and the table of an outcome put this out. -/
def Renders (o : Outcome) (out : List Output) : Prop :=
  ∃ ts, written ts = '\'' :: (o.code ++ ['\'']) ∧
    Evaluates o.table [] (ts.flatMap Token.pieces) out

section

variable {table : OrderedMap Text} {sp : Text}

theorem Evaluates.unique {ps : List Piece} {a b : List Output} (h : Evaluates table sp ps a)
    (h' : Evaluates table sp ps b) : b = a := by
  induction h generalizing b with
  | nil =>
      cases h'
      rfl
  | char _ ih =>
      cases h' with
      | char h' => rw [ih h']
  | «variable» _ ih =>
      cases h' with
      | «variable» h' => rw [ih h']
  | margin _ ih =>
      cases h' with
      | margin h' => rw [ih h']
  | @call sp name margined indent body ps a b hentry _ _ ih₁ ih₂ =>
      cases h' with
      | call hentry' hbody hrest =>
          obtain rfl := entryText_injective name (Option.some.inj (hentry.symm.trans hentry'))
          rw [ih₁ hbody, ih₂ hrest]

theorem PutsOut.unique {code : Text} {a b : List Output} (h : PutsOut table sp code a)
    (h' : PutsOut table sp code b) : b = a := by
  obtain ⟨ts, hts, ha⟩ := h
  obtain ⟨us, hus, hb⟩ := h'
  obtain rfl := written_injective (hts.trans hus.symm)
  exact ha.unique hb

theorem PutsOut.iff_eq {code : Text} {out : List Output} (h : PutsOut table sp code out)
    (other : List Output) : PutsOut table sp code other ↔ other = out := by
  constructor
  · exact h.unique
  · rintro rfl
    exact h

theorem Renders.unique {o : Outcome} {a b : List Output} (h : Renders o a) (h' : Renders o b) :
    b = a :=
  PutsOut.unique h h'

theorem Renders.iff_eq {o : Outcome} {out : List Output} (h : Renders o out) (other : List Output) :
    Renders o other ↔ other = out :=
  PutsOut.iff_eq h other

theorem evaluates_outputs (out : List Output) : Evaluates table sp (out.map Output.piece) out := by
  induction out with
  | nil => exact .nil
  | cons o out ih =>
      cases o with
      | char c => exact .char ih
      | «variable» name => exact .variable ih

/-- Code without calls renders to what it is the code of. -/
theorem renders_of_code {o : Outcome} {out : List Output} (h : o.code = codeOf out) :
    Renders o out := by
  refine ⟨tokens [] (out.map Output.piece), ?_, ?_⟩
  · rw [h]
    exact written_eq_inside_iff.mpr rfl
  · rw [pieces_tokens]
    exact evaluates_outputs out

theorem Evaluates.chars {ps : List Piece} {out : List Output} (h : Evaluates table sp ps out)
    (text : Text) : Evaluates table sp (text.map .char ++ ps) (text.map .char ++ out) := by
  induction text with
  | nil => exact h
  | cons c text ih => exact .char ih

/-- A call that is evaluated finds a unit. -/
theorem Evaluates.call_of_mem {ps : List Piece} {out : List Output} (h : Evaluates table sp ps out)
    {name indent : Text} {margined : Bool} (hcall : .expr (.call name margined indent) ∈ ps) :
    ∃ body a, table.get? name.protect = some (entryText name body) ∧
      Evaluates table ((if margined then sp else []) ++ indent) (body.flatMap Token.pieces) a := by
  induction h with
  | nil => cases hcall
  | char _ ih => exact ih (List.mem_of_ne_of_mem (by simp) hcall)
  | «variable» _ ih => exact ih (List.mem_of_ne_of_mem (by simp) hcall)
  | margin _ ih => exact ih (List.mem_of_ne_of_mem (by simp) hcall)
  | call hentry hbody _ _ ih =>
      rcases List.mem_cons.mp hcall with heq | hcall
      · obtain ⟨rfl, rfl, rfl⟩ := Expr.call.inj (Piece.expr.inj heq)
        exact ⟨_, _, hentry, hbody⟩
      · exact ih hcall

/-! ## Margins in units -/

theorem Evaluates.owed {ps : List Piece} {out : List Output} (h : Evaluates table sp ps out)
    (m : Margin) : Evaluates table sp (owedPieces m ++ ps) ((m.owed sp).map .char ++ out) := by
  cases m with
  | paid => exact h
  | _ => exact .margin h

theorem evaluates_closing (m : Margin) :
    Evaluates table sp (closingPieces m) ((m.closing sp).map .char) := by
  cases m with
  | fresh =>
      have hmargin : Evaluates table sp [.expr .margin] (sp.map .char ++ []) := .margin .nil
      rwa [List.append_nil] at hmargin
  | _ => exact .nil

theorem Evaluates.led {ps : List Piece} {out : List Output} (h : Evaluates table sp ps out)
    (m : Margin) (text : Text) :
    Evaluates table sp (leadPieces m text ++ ps) ((Text.lead sp m text).map .char ++ out) := by
  induction text generalizing m with
  | nil => exact h
  | cons c text ih =>
      have hline := (Evaluates.char (c := c) (ih (.next c))).owed m
      rw [leadPieces, Text.lead_cons, List.map_append, List.append_assoc, List.append_assoc]
      exact hline

end

/-! ## Calls of nodes -/

/-- The calls among the pieces are those of the references among the nodes. A call passes the
margin of a line on if it is alone on it and `bound`. -/
def CallsOf (bound : Bool) (ns : List Node) (ps : List Piece) : Prop :=
  ∀ name margined v, .expr (.call name margined v) ∈ ps ↔
    ∃ indent, .reference (.named name) indent ∈ ns ∧ margined = (bound && indent.isSome) ∧
      v = indent.getD []

namespace CallsOf

variable {bound : Bool} {ns : List Node} {ps : List Piece}

/-- Pieces without calls come from a node that is no reference. -/
theorem skip (h : CallsOf bound ns ps) {n : Node} {qs : List Piece}
    (hn : ∀ name indent, n ≠ .reference (.named name) indent)
    (hqs : ∀ name margined v, .expr (.call name margined v) ∉ qs) :
    CallsOf bound (n :: ns) (qs ++ ps) := by
  intro name margined v
  rw [List.mem_append, or_iff_right (hqs name margined v), h name margined v]
  refine exists_congr fun indent => and_congr_left fun _ => ?_
  rw [List.mem_cons, or_iff_right (hn name indent).symm]

theorem step (h : CallsOf bound ns ps) (name : Text) (indent : Option Text) {qs : List Piece}
    (hqs : ∀ name margined v, .expr (.call name margined v) ∉ qs) :
    CallsOf bound (.reference (.named name) indent :: ns)
      (qs ++ .expr (.call name (bound && indent.isSome) (indent.getD [])) :: ps) := by
  intro other margined v
  rw [List.mem_append, or_iff_right (hqs other margined v), List.mem_cons, h other margined v]
  constructor
  · rintro (heq | ⟨w, hmem, hmargined, hv⟩)
    · obtain ⟨rfl, rfl, rfl⟩ := Expr.call.inj (Piece.expr.inj heq)
      exact ⟨indent, List.mem_cons_self, rfl, rfl⟩
    · exact ⟨w, List.mem_cons_of_mem _ hmem, hmargined, hv⟩
  · rintro ⟨w, hmem, rfl, rfl⟩
    rcases List.mem_cons.mp hmem with heq | hmem
    · cases heq
      exact .inl rfl
    · exact .inr ⟨w, hmem, rfl, rfl⟩

theorem wordCalls (h : CallsOf bound ns ps)
    (hns : ∀ n ∈ ns, n.Plain fun name => ∀ c ∈ name, isBlank c = false) : WordCalls ps := by
  intro name margined v hmem
  obtain ⟨indent, hname, -, rfl⟩ := (h name margined v).mp hmem
  exact hns _ hname

theorem quotableCalls_iff (h : CallsOf bound ns ps) :
    QuotableCalls ps ↔ ∀ (name : Text) indent, .reference (.named name) indent ∈ ns → '\'' ∉ name := by
  constructor
  · intro hps name indent hname
    exact hps name _ _ ((h _ _ _).mpr ⟨indent, hname, rfl, rfl⟩)
  · intro hns name margined v hmem
    obtain ⟨indent, hname, -⟩ := (h name margined v).mp hmem
    exact hns name indent hname

/-- A reference whose call is evaluated finds a unit. -/
theorem unit_of_evaluates (h : CallsOf bound ns ps) {table : OrderedMap Text} {w : Text}
    {out : List Output} (hout : Evaluates table w ps out) (hw : bound = true ∨ w = [])
    {name : Text} {indent : Option Text} (hname : .reference (.named name) indent ∈ ns) :
    ∃ body a, table.get? name.protect = some (entryText name body) ∧
      Evaluates table (passed w indent) (body.flatMap Token.pieces) a := by
  have hpassed : (if (bound && indent.isSome) = true then w else []) ++ indent.getD [] =
      passed w indent := by
    rcases hw with rfl | rfl
    · cases indent <;> rfl
    · rw [ite_self]
      cases indent <;> rfl
  rw [← hpassed]
  exact hout.call_of_mem ((h _ _ _).mpr ⟨indent, hname, rfl, rfl⟩)

end CallsOf

theorem call_not_mem_owedPieces (m : Margin) (name : Text) (margined : Bool) (v : Text) :
    .expr (.call name margined v) ∉ owedPieces m := by
  cases m <;> simp [owedPieces]

theorem call_not_mem_leadPieces (m : Margin) (text name : Text) (margined : Bool) (v : Text) :
    .expr (.call name margined v) ∉ leadPieces m text := by
  induction text generalizing m with
  | nil => exact List.not_mem_nil
  | cons c text ih =>
      have howed := call_not_mem_owedPieces m name margined v
      simp [leadPieces, howed, ih]

theorem callsOf_unitPieces {P : Text → Prop} {b : Bool} {ns : List Node} (hns : Woven P b ns)
    (m : Margin) : CallsOf true ns (unitPieces m ns) := by
  have hnone : ∀ m name margined v, .expr (.call name margined v) ∉ owedPieces m :=
    call_not_mem_owedPieces
  induction hns generalizing m with
  | done =>
      intro name margined v
      cases m <;> simp [unitPieces, closingPieces]
  | literal _ ih => exact (ih _).skip (by simp) (call_not_mem_leadPieces m _)
  | @«variable» name ns _ _ ih =>
      have hpieces : unitPieces m (.variable name :: ns) =
          (owedPieces m ++ [.expr (.variable name)]) ++ unitPieces .paid ns := by
        rw [List.append_assoc]
        rfl
      rw [hpieces]
      exact (ih _).skip (by simp) fun other margined v => by simp [hnone m other margined v]
  | @reference name indent ns _ _ _ ih =>
      cases indent with
      | none => exact (ih .paid).step name none (hnone m)
      | some w =>
          have hno : ∀ other margined v, .expr (.call other margined v) ∉ ([] : List Piece) :=
            fun _ _ _ => List.not_mem_nil
          exact (ih .paid).step name (some w) hno

/-! ## Units of sources -/

section

variable {table : OrderedMap Text} {source? : Text → Option Text} {template : Text}

/-- Every name that is called has the unit of its source in the table. -/
def Stocked (table : OrderedMap Text) (source? : Text → Option Text) (template : Text) : Prop :=
  ∀ name w, Called source? template name w → ∃ source, source? name = some source ∧
    table.get? name.protect = some (entryText name (tokens [] (unitPieces .fresh source.nodes)))

/-- Units put out what the nodes of sources do without resumed margins. -/
theorem Spreads.evaluates (hstocked : Stocked table source? template) {w : Text} {m : Margin}
    {ns : List Node} {out : List Output} (h : Spreads source? false w m ns out)
    (hcalled : ∀ name indent, .reference (.named name) indent ∈ ns →
      Called source? template name (passed w indent)) :
    Evaluates table w (unitPieces m ns) out := by
  induction h with
  | nil => exact evaluates_closing _
  | literal _ ih =>
      exact (ih fun name indent h => hcalled name indent (List.mem_cons_of_mem _ h)).led _ _
  | «variable» _ ih =>
      have hrest := ih fun name indent h => hcalled name indent (List.mem_cons_of_mem _ h)
      exact (Evaluates.variable hrest).owed _
  | @inside w m name source ns a b hsource _ _ ih₁ ih₂ =>
      have hname := hcalled name none List.mem_cons_self
      obtain ⟨other, hother, hentry⟩ := hstocked name _ hname
      obtain rfl := Option.some.inj (hsource.symm.trans hother)
      have hinner := ih₁ fun callee indent h => .source hname hsource h
      have hrest := ih₂ fun name indent h => hcalled name indent (List.mem_cons_of_mem _ h)
      rw [← pieces_tokens (unitPieces _ _)] at hinner
      have hcall : Evaluates table w (.expr (.call name false []) :: unitPieces .paid ns) (a ++ b) :=
        .call hentry hinner hrest
      exact hcall.owed m
  | @alone w m name v source ns a b hsource _ _ ih₁ ih₂ =>
      have hname := hcalled name (some v) List.mem_cons_self
      obtain ⟨other, hother, hentry⟩ := hstocked name _ hname
      obtain rfl := Option.some.inj (hsource.symm.trans hother)
      have hinner := ih₁ fun callee indent h => .source hname hsource h
      have hrest := ih₂ fun name indent h => hcalled name indent (List.mem_cons_of_mem _ h)
      rw [← pieces_tokens (unitPieces _ _)] at hinner
      have hcall : Evaluates table w (.expr (.call name true v) :: unitPieces .paid ns) (a ++ b) :=
        .call hentry hinner hrest
      exact hcall

end

end Inlay.Handlebars
