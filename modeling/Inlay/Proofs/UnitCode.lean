import Inlay.Proofs.UnitCallables
import Inlay.Proofs.CallNames

/-!
# The code of a unit

The unit of a plain source can be told from the nodes of the source as it
was written. Its code is the one of pieces: characters, expressions, and a
margin where something is first put on a line, except by a call that is
alone on the line.
-/

namespace Inlay

theorem Node.Plain.body?_eq_none {P : Text → Prop} {n : Node} (hn : n.Plain P) : n.body? = none := by
  cases n with
  | block name body closed => exact hn.elim
  | inlinePartial name body closed => exact hn.elim
  | _ => rfl

theorem Woven.mapped {P : Text → Prop} {b : Bool} {ns : List Node} (h : Woven P b ns)
    {f : Text → Text} (hf : ∀ s, '\n' ∉ s → '\n' ∉ f s) :
    Woven (fun _ => True) b (ns.map (Node.map f)) := by
  induction h with
  | done => exact .done
  | literal _ ih => exact .literal ih
  | «variable» hline _ ih => exact .variable (hf _ hline) ih
  | reference _ hindent _ ih => exact .reference trivial hindent ih

namespace Handlebars

open Callable Text Keyword

/-! ## The code of plain nodes -/

/-- The code of a plain node. With `bound`, calls pass the margin of the line on. -/
def plainCode (bound : Bool) : Node → Text
  | .literal text => text.quote
  | .variable name => Fragments.standard.splice (lookup name)
  | .reference (.named name) none => Fragments.standard.splice (callText name false [])
  | .reference (.named name) (some w) =>
      if bound then selfIndented ++ Fragments.standard.splice (callText name true w)
      else Fragments.standard.splice (callText name false w)
  | _ => []

theorem dispatch_standard {v : View} (hfragments : v.fragments = .standard)
    (hindent : v.flags.noIndent = false) (name : Text) (indent : Option Text) :
    dispatch v (nameLiteral name) indent none =
      plainCode v.indentBound (.reference (.named name) indent) := by
  unfold dispatch indentArgument
  rw [hfragments, hindent]
  cases indent with
  | none =>
      simp only [Option.isSome_none, Bool.false_and, Bool.false_eq_true, if_false, plainCode]
      unfold callText nameLiteral
      simp only [List.append_assoc, List.cons_append]
      rfl
  | some w =>
      cases v.indentBound with
      | true =>
          simp only [Option.isSome_some, Bool.not_false, Bool.and_true, if_true, plainCode,
            Bool.false_eq_true, if_false]
          unfold callText nameLiteral
          simp only [List.append_assoc, List.cons_append]
          rfl
      | false =>
          simp only [Option.isSome_some, Bool.not_false, Bool.and_true, plainCode,
            Bool.false_eq_true, if_false]
          unfold callText nameLiteral
          simp only [List.append_assoc, List.cons_append]
          rfl

/-! ## Pieces of units -/

open Target

/-- The margin before the next thing on the line. -/
def owedPieces : Margin → List Piece
  | .paid => []
  | _ => [.expr .margin]

/-- The margin where nothing follows. -/
def closingPieces : Margin → List Piece
  | .fresh => [.expr .margin]
  | _ => []

/-- A literal with the margins of its lines. -/
def leadPieces : Margin → Text → List Piece
  | _, [] => []
  | m, c :: s => owedPieces m ++ .char c :: leadPieces (.next c) s

/-- The pieces of a unit from the nodes of its source. -/
def unitPieces : Margin → List Node → List Piece
  | m, [] => closingPieces m
  | m, .literal text :: ns => leadPieces m text ++ unitPieces (m.after text) ns
  | m, .variable name :: ns => owedPieces m ++ .expr (.variable name) :: unitPieces .paid ns
  | m, .reference (.named name) none :: ns =>
      owedPieces m ++ .expr (.call name false []) :: unitPieces .paid ns
  | _, .reference (.named name) (some w) :: ns =>
      .expr (.call name true w) :: unitPieces .paid ns
  | _, _ :: ns => unitPieces .paid ns

theorem rawInside_owedPieces (m : Margin) : rawInside (owedPieces m) = m.owed (margin .standard) := by
  cases m <;> rfl

theorem rawInside_closingPieces (m : Margin) :
    rawInside (closingPieces m) = m.closing (margin .standard) := by
  cases m <;> rfl

theorem lead_protect_singleton (m : Margin) (c : Char) :
    lead (margin .standard) m (protect [c]) = m.owed (margin .standard) ++ protect [c] ∧
      m.after (protect [c]) = .next c := by
  by_cases hnewline : c = '\n'
  · subst hnewline
    exact ⟨rfl, rfl⟩
  · have hline : '\n' ∉ protect [c] := by
      intro h
      have hmem := mem_of_mem_escape (mem_of_mem_quote (by decide) h)
      exact hnewline (List.mem_singleton.mp hmem).symm
    have hne : protect [c] ≠ [] := by
      intro h
      exact apostrophe_ne_protect c ['x'] ('\'' :: ['x']) (by rw [h]; rfl)
    obtain ⟨hlead, hafter⟩ := lead_of_line hne hline (margin .standard) m
    exact ⟨hlead, by rw [hafter, Margin.next_of_ne hnewline]⟩

theorem rawInside_leadPieces (m : Margin) (s : Text) :
    rawInside (leadPieces m s) = lead (margin .standard) m s.protect := by
  induction s generalizing m with
  | nil => rfl
  | cons c s ih =>
      obtain ⟨hlead, hafter⟩ := lead_protect_singleton m c
      have hpieces : rawInside (leadPieces m (c :: s)) =
          m.owed (margin .standard) ++ (protect [c] ++ rawInside (leadPieces (.next c) s)) := by
        rw [leadPieces, rawInside_append, rawInside_owedPieces]
        rfl
      rw [hpieces, ih, protect_cons c s, lead_append, hlead, hafter, List.append_assoc]

/-! ## Plain nodes of a unit -/

theorem lead_splice {e : Text} (he : '\n' ∉ e) (m : Margin) :
    lead (margin .standard) m (Fragments.standard.splice e) =
        m.owed (margin .standard) ++ Fragments.standard.splice e ∧
      m.after (Fragments.standard.splice e) = .paid := by
  refine lead_of_line (List.cons_ne_nil _ _) ?_ _ m
  simp [neutral_standard.separator.line, he]

theorem bodyText_cons_of_splice {unit : Text → Text} {n : Node} {e : Text}
    (hn : nodeText .standard unit n = Fragments.standard.splice e) (he : '\n' ∉ e) (m : Margin)
    (ns : List Node) : bodyText .standard unit m (n :: ns) = (n.start m).owed (margin .standard) ++
      (Fragments.standard.splice e ++ bodyText .standard unit .paid ns) := by
  obtain ⟨hlead, hafter⟩ := lead_splice he (n.start m)
  rw [bodyText, hn, hlead, hafter, List.append_assoc]

theorem newline_not_mem_lookup {name : Text} (h : '\n' ∉ name) : '\n' ∉ lookup name := by
  have hquote : '\n' ∉ name.quote := fun hmem => h (mem_of_mem_quote (by decide) hmem)
  simp [lookup, hquote]

theorem newline_not_mem_callText {name indent : Text} (h : '\n' ∉ name)
    (hindent : ∀ c ∈ indent, c = ' ' ∨ c = '\t') (margined : Bool) :
    '\n' ∉ callText name margined indent := by
  have hblank : '\n' ∉ indent := not_mem_of_blank hindent (by decide) (by decide)
  unfold callText nameLiteral
  cases margined <;> simp [h, hblank]

theorem bodyText_escape {P : Text → Prop} (hP : ∀ name, P name → '\n' ∉ name) {b : Bool}
    {ns : List Node} (hns : Woven P b ns) (unit : Text → Text) (m : Margin) :
    bodyText .standard unit m (ns.map (Node.map escape)) = rawInside (unitPieces m ns) := by
  have hescape : ∀ name : Text, '\n' ∉ name → '\n' ∉ name.escape :=
    fun name h hmem => h (mem_of_mem_escape hmem)
  induction hns generalizing m with
  | done => exact (rawInside_closingPieces m).symm
  | @literal text ns _ ih =>
      show lead (margin .standard) m text.protect ++
        bodyText .standard unit (m.after text.protect) (ns.map (Node.map escape)) = _
      have hafter : m.after text.protect = m.after text := by
        rw [protect, Margin.after_quote, Margin.after_escape]
      rw [hafter, ih, unitPieces, rawInside_append, rawInside_leadPieces]
  | @«variable» name ns hline _ ih =>
      have hpieces : rawInside (unitPieces m (.variable name :: ns)) = m.owed (margin .standard) ++
          ((Piece.expr (.variable name)).code ++ rawInside (unitPieces .paid ns)) := by
        rw [unitPieces, rawInside_append, rawInside_owedPieces]
        rfl
      rw [hpieces, code_variable, ← ih]
      exact bodyText_cons_of_splice rfl (newline_not_mem_lookup (hescape name hline)) m _
  | @reference name indent ns hname hindent _ ih =>
      have hcall := newline_not_mem_callText (hescape name (hP name hname)) hindent
      cases indent with
      | none =>
          have hpieces : rawInside (unitPieces m (.reference (.named name) none :: ns)) =
              m.owed (margin .standard) ++ (Fragments.standard.splice (callText name.escape false []) ++
                rawInside (unitPieces .paid ns)) := by
            rw [unitPieces, rawInside_append, rawInside_owedPieces]
            rfl
          rw [hpieces, ← ih]
          exact bodyText_cons_of_splice rfl (hcall false) m _
      | some w =>
          have hpieces : rawInside (unitPieces m (.reference (.named name) (some w) :: ns)) =
              Fragments.standard.splice (callText name.escape true w) ++
                rawInside (unitPieces .paid ns) := by
            rw [unitPieces]
            rfl
          rw [hpieces, ← ih]
          exact bodyText_cons_of_splice rfl (hcall true) m _

theorem calm_mask (s : Text) : Calm (mask s) := by
  rintro p ⟨gap, -, rfl⟩ h
  exact not_word_infix_mask s ((List.prefix_append word _).isInfix.trans h)

/-- No callable opens in plain nodes with masked keywords, as literals do not come together. -/
theorem calm_woven {P : Text → Prop} {b : Bool} {ns : List Node} (hns : Woven P b ns)
    (v : Text → Text) : Calm ((ns.map (Node.map mask)).flatMap (say v)) ∧
      (b = false → ns = [] ∨
        ∃ r, (ns.map (Node.map mask)).flatMap (say v) = '\'' :: r ∧ Calm r) := by
  have hname : ∀ (name : Text) {rest : Text}, Calm rest → Calm (mask name ++ '\'' :: rest) :=
    fun name rest hrest => (calm_mask name).append_cons (by decide) hrest
  have hnil : Calm [] := by decide
  have htag : ∀ {n : Node} {ns : List Node} (name : Text),
      Calm ((ns.map (Node.map mask)).flatMap (say v)) →
      Calm (nameLiteral (mask name) ++ (ns.map (Node.map mask)).flatMap (say v)) ∧
        (false = false → n :: ns = [] ∨ ∃ r,
          nameLiteral (mask name) ++ (ns.map (Node.map mask)).flatMap (say v) = '\'' :: r ∧ Calm r) := by
    intro n ns name hcalm
    have hrest := hname name hcalm
    have hopen : nameLiteral (mask name) ++ (ns.map (Node.map mask)).flatMap (say v) =
        '\'' :: (mask name ++ '\'' :: (ns.map (Node.map mask)).flatMap (say v)) := by
      simp [nameLiteral]
    rw [hopen]
    exact ⟨.append_cons (s := []) hnil (by decide) hrest, fun _ => .inr ⟨_, rfl, hrest⟩⟩
  induction hns with
  | done => exact ⟨hnil, fun _ => .inl rfl⟩
  | @literal text ns _ ih =>
      refine ⟨?_, fun h => by cases h⟩
      rcases ih.2 rfl with rfl | ⟨r, hr, hcalm⟩
      · have hlast : Calm (mask text ++ []) := by
          rw [List.append_nil]
          exact calm_mask text
        exact hlast
      · have hrest := hname text hcalm
        rw [← hr] at hrest
        exact hrest
  | @«variable» name ns _ _ ih => exact htag name ih.1
  | @reference name indent ns _ _ _ ih => exact htag name ih.1

theorem nodeCode_of_plain {P : Text → Prop} {n : Node} (hn : n.Plain P) {v : View}
    (hv : Indenting .standard v) (unit : Text → Text) : nodeCode v unit n = plainCode true n := by
  cases n with
  | literal text => rfl
  | «variable» name => exact congrArg (fun f : Fragments => f.splice _) hv.fragments
  | reference target indent =>
      cases target with
      | named name =>
          rw [← hv.bound]
          exact dispatch_standard hv.fragments hv.indents name indent
      | _ => exact hn.elim
  | _ => exact hn.elim

/-- The code that a callable has for a source, from the nodes of the source as it was written. -/
theorem unit_code {P : Text → Prop} {source : Text} (hplain : source.Plain P)
    (hunbroken : source.Unbroken) (hbell : bell ∉ source) :
    unmask (threadIndent .standard ((mask source.escape).nodes.flatMap (plainCode true))) =
      rawInside (unitPieces .fresh source.nodes) := by
  have hwoven := hplain.firstWords.woven hunbroken true
  have hline : ∀ name : Text, (∀ c ∈ name, isBlank c = false) → '\n' ∉ name :=
    fun name h hmem => absurd (h _ hmem) (by decide)
  have hescape : bell ∉ source.escape := fun hmem => hbell (mem_of_mem_escape hmem)
  have hnodes : source.escape.nodes = source.nodes.map (Node.map escape) := hplain.nodes_escape
  have hwoven' : Woven (fun _ => True) true source.escape.nodes := by
    rw [hnodes]
    exact hwoven.mapped fun s hs hmem => hs (mem_of_mem_escape hmem)
  have hmasked : (mask source.escape).nodes = source.escape.nodes.map (Node.map mask) :=
    nodes_mask hescape
  have hview : Indenting .standard (unitView Options.standard.flags .standard) :=
    indenting_unitView rfl .standard
  have hplainCode : (mask source.escape).nodes.flatMap (plainCode true) =
      (mask source.escape).nodes.flatMap
        (nodeCode (unitView Options.standard.flags .standard) fun _ => []) := by
    refine List.flatMap_congr fun n hn => ?_
    rw [hmasked] at hn
    obtain ⟨raw, hraw, rfl⟩ := List.mem_map.mp hn
    exact (nodeCode_of_plain ((hwoven'.subset raw hraw).map mask) hview _).symm
  have hcalm : Calm (((mask source.escape).renamedNodes id).flatMap (say fun _ => [])) := by
    rw [Text.renamedNodes_id, hmasked]
    exact (calm_woven hwoven' _).1
  have hunit : ∀ n ∈ source.escape.nodes, ∀ body, n.body? = some body →
      Bears .standard (fun _ => []) [] ∧ ∀ _ : Nat, bell ∉ ([] : Text) := by
    intro n hn body hbody
    rw [(hwoven'.subset n hn).body?_eq_none] at hbody
    cases hbody
  have hcode := unmask_threadIndent neutral_standard quiet_id hview (fun _ _ => []) (fun _ => [])
    hescape hunit hcalm
  rw [Text.renamedNodes_id, renamedNodes_writtenName_id hescape] at hcode
  rw [hplainCode, hcode, hnodes]
  exact bodyText_escape hline hwoven _ .fresh

end Handlebars

end Inlay
