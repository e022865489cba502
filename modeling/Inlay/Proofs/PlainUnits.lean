import Inlay.Proofs.Enrollment
import Inlay.Proofs.RuntimeRendering
import Inlay.Proofs.WrittenNames

/-!
# Units of plain text

A text without tags is one literal, and the unit of it has nothing but this
literal and margins between its lines. What the unit returns for a value of
the indentation parameter is the text with this value at the start of each
line. That is what embedding the text puts out, where the line has the value
as its indentation.
-/

namespace Inlay.Handlebars

open Callable Compilation Keyword Target

/-! ## What code puts out -/

section

variable {table : OrderedMap Text} {sp : Text}

theorem putsOut_rawInside {ps : List Piece} {out : List Output} (hwords : WordCalls ps)
    (hquotable : QuotableCalls ps) (h : Evaluates table sp ps out) :
    PutsOut table sp (rawInside ps) out := by
  refine ⟨tokens [] ps, (written_eq_rawInside_iff hwords).mpr ⟨hquotable, rfl⟩, ?_⟩
  rwa [pieces_tokens]

/-- A literal puts its value out. -/
theorem putsOut_protect (t : Text) : PutsOut table sp t.protect (t.map .char) := by
  refine ⟨tokens [] (t.map .char), ?_, ?_⟩
  · rw [← inside_map_char]
    exact written_eq_inside_iff.mpr rfl
  · rw [pieces_tokens, ← map_piece_map_char]
    exact evaluates_outputs _

end

/-! ## Texts without tags -/

theorem nodes_mask_of_literal {s : Text} (h : s.nodes = [.literal s]) (hbell : bell ∉ s) :
    (mask s).nodes = [.literal (mask s)] := by
  rw [nodes_mask hbell, h]
  rfl

section

variable {t : Text} (htags : t.tags = [])

include htags

theorem next?_of_tagless : Tag.next? t = none := by
  cases hnext : Tag.next? t with
  | none => rfl
  | some parts =>
      rw [Text.tags_of_next? hnext] at htags
      cases htags

theorem nodes_of_tagless : t.nodes = [.literal t] :=
  Node.scan_of_none (next?_of_tagless htags) true

theorem plain_of_tagless : t.Plain fun _ => True := by
  intro tag htag
  rw [htags] at htag
  cases htag

theorem unbroken_of_tagless : t.Unbroken := by
  intro tag htag
  rw [htags] at htag
  cases htag

theorem nodes_mask_of_tagless (hbell : bell ∉ t) :
    (mask t.escape).nodes = [.literal (mask t.escape)] :=
  nodes_mask_of_literal (Text.nodes_escape_of_none (next?_of_tagless htags))
    fun hmem => hbell (Text.mem_of_mem_escape hmem)

/-- The unit of a text without tags puts out the text with each line indented by the parameter. -/
theorem putsOut_unitPieces (table : OrderedMap Text) (sp : Text) :
    PutsOut table sp (rawInside (unitPieces .fresh t.nodes))
      ((Text.indentLines sp t).map .char) := by
  have hwoven := (plain_of_tagless htags).firstWords.woven (unbroken_of_tagless htags) true
  have hcalls := callsOf_unitPieces hwoven .fresh
  have hquotable : QuotableCalls (unitPieces .fresh t.nodes) := by
    refine hcalls.quotableCalls_iff.mpr fun name indent hmem => ?_
    have hnode : .reference (.named name) indent ∈ [Node.literal t] := nodes_of_tagless htags ▸ hmem
    cases List.mem_singleton.mp hnode
  refine putsOut_rawInside (hcalls.wordCalls hwoven.subset) hquotable ?_
  rw [nodes_of_tagless htags, Text.indentLines_eq_laid, Text.laid, List.map_append]
  exact (evaluates_closing _).led .fresh t

end

/-! ## Compiling a text without tags -/

section

variable {fs : FileSystem} {s : Compilation}

/-- A text that is one literal is compiled to it. -/
theorem compile_of_literal {source text : Text} (h : source.nodes = [.literal text]) (depth : Nat) :
    (host (depth + 1)).compile source fs s =
      some (text.quote, s.emit (.compile s.view source)) := by
  rw [compile_apply]
  show nodes (host depth) source.nodes fs _ = _
  rw [h, nodes_cons_apply]
  show some (text.quote ++ [], _) = _
  rw [List.append_nil]

variable {t : Text}

/-- A text as it is put on lines with this indentation. -/
def indented (v : View) (w t : Text) : Text :=
  if v.flags.noIndent then t else Text.indentLines w t

/-- What is embedded is the code of the indented text. -/
theorem embedSource_of_tagless (htags : t.tags = []) {w : Text}
    (hw : ∀ c ∈ w, c = ' ' ∨ c = '\t') (depth : Nat) :
    ∃ r, embedSource (host (depth + 1)) t.escape fs (atIndent w s) =
      some ((indented s.view w t).protect, r) := by
  have htagless : (indented s.view w t).tags = [] := by
    have hblank : ∀ c ∈ w, isBlank c = true := by
      intro c hc
      rcases hw c hc with rfl | rfl <;> rfl
    have houtlines := Text.map_outline_tags_indentLines hblank t
    rw [htags] at houtlines
    unfold indented
    split
    · exact htags
    · exact List.map_eq_nil_iff.mp houtlines
  have hslash : '\\' ∉ w := Text.not_mem_of_blank hw (by decide) (by decide)
  have hsource : (if s.view.flags.noIndent then t.escape else Text.indentLines w t.escape) =
      (indented s.view w t).escape := by
    unfold indented
    split
    · rfl
    · exact (Text.escape_indentLines hslash t).symm
  have hrun : embedSource (host (depth + 1)) t.escape fs (atIndent w s) =
      (host (depth + 1)).compile (indented s.view w t).escape fs (atIndent w s) := by
    rw [← hsource]
    rfl
  have hnodes := Text.nodes_escape_of_none (next?_of_tagless htagless)
  exact ⟨_, hrun.trans (compile_of_literal hnodes depth)⟩

/-- The callable of a text without tags. -/
def plainUnit (v : View) (code : Text) : Text :=
  (if v.flags.noIndent then "function ($cx, $in) \x7breturn '".toList
    else "function ($cx, $in, $sp) \x7breturn '".toList) ++ (code ++ "';\x7d".toList)

theorem define_standard (further code : Text) : define .standard further code =
    "function ($cx, $in".toList ++ (further ++ (") \x7breturn '".toList ++
      (code ++ "';\x7d".toList))) := by
  unfold define
  simp only [List.append_assoc, List.cons_append]
  rfl

theorem callable_of_tagless {v : View} (hfragments : v.fragments = .standard) (htags : t.tags = [])
    (hbell : bell ∉ t) :
    callable v (mask t.escape).quote = plainUnit v
      (if v.flags.noIndent then t.protect else rawInside (unitPieces .fresh t.nodes)) := by
  cases hindents : v.flags.noIndent with
  | true =>
      have hbell : bell ∉ t.protect := fun hmem =>
        hbell (Text.mem_of_mem_escape (Text.mem_of_mem_quote (by decide) hmem))
      unfold callable plainUnit
      rw [hindents, hfragments, if_pos rfl, (Veils.mask t.escape).quote.unmask_eq hbell,
        define_standard]
      rfl
  | false =>
      have hunit := callable_eq_unitOf hfragments hindents (plain_of_tagless htags)
        (unbroken_of_tagless htags) hbell
      rw [nodes_mask_of_tagless htags hbell] at hunit
      have hcode : [Node.literal (mask t.escape)].flatMap (plainCode true) =
          (mask t.escape).quote := List.append_nil _
      rw [hcode] at hunit
      unfold plainUnit
      rw [hunit, unitOf, define_standard, hindents]
      rfl

/-- A text without tags and bells, compiled into a callable of its own, puts out for any value of
the indentation parameter the text with the value at the start of each line, or the text as it is
where indentation is off. It puts out for an indentation what is put out where the text is embedded
on a line with this indentation. -/
theorem plain_unit_indents (fs : FileSystem) (depth : Nat) {s : Compilation} {t : Text}
    (hfragments : s.view.fragments = .standard) (htags : t.tags = []) (hbell : bell ∉ t) :
    ∃ code r, compileLocal (host (depth + 1)) t.escape fs s = some (plainUnit s.view code, r) ∧
      (∀ table sp out, PutsOut table sp code out ↔ out = (indented s.view sp t).map .char) ∧
      ∀ w, (∀ c ∈ w, c = ' ' ∨ c = '\t') → ∃ embedded r,
        embedSource (host (depth + 1)) t.escape fs (atIndent w s) = some (embedded, r) ∧
        ∀ table sp out, PutsOut table sp embedded out ↔ PutsOut table w code out := by
  obtain ⟨code, hcode, hputs⟩ : ∃ code,
      callable s.view (mask t.escape).quote = plainUnit s.view code ∧
      ∀ table sp, PutsOut table sp code ((indented s.view sp t).map .char) := by
    refine ⟨_, callable_of_tagless hfragments htags hbell, fun table sp => ?_⟩
    unfold indented
    split
    · exact putsOut_protect t
    · exact putsOut_unitPieces htags table sp
  refine ⟨code, s.merge (s.isolated.emit (.compile s.isolated.view (mask t.escape))), ?_,
    fun table sp out => (hputs table sp).iff_eq out, fun w hw => ?_⟩
  · rw [compileLocal_apply, compile_of_literal (nodes_mask_of_tagless htags hbell), Option.map_some,
      hcode]
  · obtain ⟨r, hembedded⟩ : ∃ r, embedSource (host (depth + 1)) t.escape fs (atIndent w s) =
        some ((indented s.view w t).protect, r) := embedSource_of_tagless htags hw depth
    refine ⟨_, r, hembedded, fun table sp out => ?_⟩
    rw [(putsOut_protect _).iff_eq, (hputs table w).iff_eq]

/-- Text with all that could be taken for code, with an empty line, a line of blanks and a newline
at the end. -/
def lookalikes : Text :=
  "'.$sp.'\n\\'function (x) \x7b\n\n  !!SeLfInDeNt!!';\n".toList

theorem plain_unit_indents_lookalikes :
    (Compilation.initial Options.standard none (.emptyAt ['/'])).view.fragments = .standard ∧
    lookalikes.tags = [] ∧ bell ∉ lookalikes ∧
    ∃ code r, compileLocal (host 1) lookalikes.escape (.emptyAt ['/'])
        (.initial Options.standard none (.emptyAt ['/'])) =
          some ("function ($cx, $in, $sp) \x7breturn '".toList ++ (code ++ "';\x7d".toList), r) ∧
      ∀ table out, PutsOut table "> ".toList code out ↔ out =
        "> '.$sp.'\n> \\'function (x) \x7b\n> \n>   !!SeLfInDeNt!!';\n".toList.map .char := by
  have hfragments :
      (Compilation.initial Options.standard none (.emptyAt ['/'])).view.fragments = .standard := rfl
  have htags : lookalikes.tags = [] := Text.tags_of_next?_eq_none (by decide +kernel)
  have hbell : bell ∉ lookalikes := by decide +kernel
  refine ⟨hfragments, htags, hbell, ?_⟩
  obtain ⟨code, r, hrun, hputs, -⟩ :=
    plain_unit_indents (.emptyAt ['/']) 0 hfragments htags hbell
  refine ⟨code, r, hrun, fun table out => ?_⟩
  have hlines : indented (Compilation.initial Options.standard none (.emptyAt ['/'])).view
      "> ".toList lookalikes =
        "> '.$sp.'\n> \\'function (x) \x7b\n> \n>   !!SeLfInDeNt!!';\n".toList := by
    decide +kernel
  rw [hputs, hlines]

end

end Inlay.Handlebars
