import Inlay.Proofs.Enrollment
import Inlay.Proofs.Rendering
import Mathlib.Data.Set.Finite.List

/-!
# Dispatching renders like embedding

A template can be compiled with its partials embedded or dispatched to. Both
render to the same, unless a name breaks the code of a call or has no unit,
or a line comes after a tag that is alone on its line in a unit that is
called with an indentation: then this line is not indented.
-/

namespace Inlay

/-- The options with dispatching on or off. -/
def Options.dispatching (o : Options) (runtime : Bool) : Options :=
  { o with flags := { o.flags with runtime } }

namespace Handlebars

open Keyword Target

/-! ## The code of the template -/

theorem callsOf_templatePieces {P : Text → Prop} {b : Bool} {ns : List Node} (hns : Woven P b ns) :
    CallsOf false ns (templatePieces ns) := by
  have hnone : ∀ name margined v, .expr (.call name margined v) ∉ ([] : List Piece) :=
    fun _ _ _ => List.not_mem_nil
  induction hns with
  | done =>
      intro name margined v
      simp [templatePieces]
  | @literal text ns _ ih => exact ih.skip (by simp) fun name margined v => by simp
  | @«variable» name ns _ _ ih =>
      have hskip : CallsOf false (.variable name :: ns)
          ([.expr (.variable name)] ++ templatePieces ns) :=
        ih.skip (by simp) fun other margined v => by simp
      exact hskip
  | @reference name indent ns _ _ _ ih => exact ih.step name indent hnone

section

variable {table : OrderedMap Text} {source? : Text → Option Text} {template : Text}

/-- Where no margin is bound, the pieces of a template put out what its nodes do. -/
theorem Spreads.evaluates_template (hstocked : Stocked table source? template) {m : Margin}
    {ns : List Node} {out : List Output} (h : Spreads source? false [] m ns out)
    (hcalled : ∀ name indent, .reference (.named name) indent ∈ ns →
      Called source? template name (passed [] indent)) :
    Evaluates table [] (templatePieces ns) out := by
  generalize hw : ([] : Text) = w at h
  induction h with
  | nil =>
      subst hw
      rw [Margin.closing_nil]
      exact .nil
  | literal _ ih =>
      subst hw
      rw [Text.lead_empty]
      exact (ih (fun name indent h => hcalled name indent (List.mem_cons_of_mem _ h)) rfl).chars _
  | «variable» _ ih =>
      subst hw
      rw [Margin.owed_nil]
      exact .variable (ih (fun name indent h => hcalled name indent (List.mem_cons_of_mem _ h)) rfl)
  | @inside w m name source ns a b hsource hinner _ _ ih =>
      subst hw
      have hname := hcalled name none List.mem_cons_self
      obtain ⟨other, hother, hentry⟩ := hstocked name _ hname
      obtain rfl := Option.some.inj (hsource.symm.trans hother)
      have hunit := hinner.evaluates hstocked fun callee indent h => .source hname hsource h
      rw [← pieces_tokens (unitPieces _ _)] at hunit
      rw [Margin.owed_nil, List.map_nil, List.nil_append]
      exact .call hentry hunit
        (ih (fun name indent h => hcalled name indent (List.mem_cons_of_mem _ h)) rfl)
  | @alone w m name v source ns a b hsource hinner _ _ ih =>
      subst hw
      have hname := hcalled name (some v) List.mem_cons_self
      obtain ⟨other, hother, hentry⟩ := hstocked name _ hname
      obtain rfl := Option.some.inj (hsource.symm.trans hother)
      have hunit := hinner.evaluates hstocked fun callee indent h => .source hname hsource h
      rw [← pieces_tokens (unitPieces _ _)] at hunit
      exact .call hentry hunit
        (ih (fun name indent h => hcalled name indent (List.mem_cons_of_mem _ h)) rfl)

end

/-! ## Entries -/

/-- The entry of a unit is written by tokens exactly if neither its name nor the names in its
calls have apostrophes. -/
theorem tableEntry_eq_entryText_iff {name source : Text} {body : List Token} (hname : '\'' ∉ name)
    (hwords : WordCalls (unitPieces .fresh source.nodes)) :
    tableEntry name.escape (unitOf source) = entryText name body ↔
      QuotableCalls (unitPieces .fresh source.nodes) ∧
        body = tokens [] (unitPieces .fresh source.nodes) := by
  have hentry : tableEntry name.escape (unitOf source) = quoted name ++
      (" => function ($cx, $in, $sp) \x7breturn ".toList ++
        (('\'' :: (rawInside (unitPieces .fresh source.nodes) ++ ['\''])) ++ ";\x7d".toList)) := by
    rw [← nameLiteral_eq_quoted hname]
    unfold tableEntry unitOf Callable.define nameLiteral
    simp only [List.append_assoc, List.cons_append]
    rfl
  rw [hentry, entryText, List.append_cancel_left_eq, List.append_cancel_left_eq,
    List.append_cancel_right_eq, eq_comm]
  exact written_eq_rawInside_iff hwords

/-! ## Projects -/

/-- The source of a name in a text as it was written. -/
def sourceOf (fs : FileSystem) (options : Options) (name : Text) : Option Text :=
  (Context.start options none fs).rawSource? fs name.escape

/-- A name in a text as it was written is the one of a registered partial. -/
def Registered (options : Options) (name : Text) : Prop :=
  name.escape ∈ options.partials

instance (options : Options) : DecidablePred (Registered options) :=
  fun name => inferInstanceAs (Decidable (name.escape ∈ options.partials))

/-- Tags are variables on one line and references to registered partials, references do not go
round in circles, and nothing has a bell. -/
structure Tidy (fs : FileSystem) (options : Options) (template : Text) : Prop where
  fragments : options.fragments = .standard
  indents : options.flags.noIndent = false
  plain : template.Plain (Registered options)
  unbroken : template.Unbroken
  sources : ∀ name source, options.partials.get? name = some source →
    source.Plain (Registered options) ∧ source.Unbroken ∧ bell ∉ source
  files : ∀ name, bell ∈ name → name ∉ options.partials →
    (Context.start options none fs).rawSource? fs name = none
  acyclic : ∀ name, ¬ Relation.TransGen (Refers (sourceOf fs options) (Registered options)) name name

namespace Tidy

variable {fs : FileSystem} {options : Options} {template : Text} (h : Tidy fs options template)

include h

theorem sources_of_found (name source : Text) (hname : Registered options name ∨ bell ∈ name)
    (hsource : (Context.start options none fs).rawSource? fs name.escape = some source) :
    source.Plain (Registered options) ∧ source.Unbroken ∧ bell ∉ source := by
  have hmem : name.escape ∈ options.partials := by
    rcases hname with hname | hbell
    · exact hname
    · by_contra hnew
      have hescape : bell ∈ name.escape :=
        List.mem_flatMap.mpr ⟨bell, hbell, List.mem_singleton.mpr rfl⟩
      rw [h.files _ hescape hnew] at hsource
      cases hsource
  rw [rawSource?_of_mem hmem] at hsource
  exact h.sources _ source hsource

theorem plainSources : PlainSources (sourceOf fs options) (Registered options) := by
  intro name source hname hsource
  obtain ⟨hplain, hunbroken, -⟩ := h.sources_of_found name source (.inl hname) hsource
  exact ⟨hplain, hunbroken⟩

omit h in
theorem found_of_registered {name : Text} (hname : Registered options name) :
    ∃ source, sourceOf fs options name = some source := by
  obtain ⟨source, hsource⟩ := OrderedMap.mem_iff_exists_get?.mp hname
  exact ⟨source, (rawSource?_of_mem hname fs).trans hsource⟩

theorem kind {name w : Text} (hcalled : Called (sourceOf fs options) template name w) :
    Registered options name :=
  hcalled.kind h.plainSources h.plain

theorem found {name w : Text} (hcalled : Called (sourceOf fs options) template name w) :
    ∃ source, sourceOf fs options name = some source :=
  found_of_registered (h.kind hcalled)

theorem woven {name source : Text} (hname : Registered options name)
    (hsource : sourceOf fs options name = some source) :
    Woven (fun name => ∀ c ∈ name, isBlank c = false) true source.nodes := by
  obtain ⟨hplain, hunbroken⟩ := h.plainSources name source hname hsource
  exact hplain.firstWords.woven hunbroken true

/-- References come to an end, as registered names are finitely many. -/
theorem wellFounded :
    WellFounded fun callee caller => Refers (sourceOf fs options) (Registered options) caller callee := by
  have hfinite : {name | Registered options name}.Finite :=
    Set.Finite.preimage Text.escape_injective.injOn (List.finite_toSet options.partials.keys)
  refine wellFounded_refers hfinite ?_ h.acyclic
  rintro caller callee ⟨hcaller, source, hsource, hcallee⟩
  exact mem_references_kind (h.plainSources caller source hcaller hsource).1 hcallee

/-- The template puts something out in the two ways, and this is its expansion. -/
theorem compared : ∃ out out', Expands (sourceOf fs options) false [] template.nodes out ∧
    Spreads (sourceOf fs options) false [] .fresh template.nodes out' ∧
    (out' = out ↔ LinesKept (sourceOf fs options) template) := by
  have hwoven := h.plain.woven h.unbroken true
  obtain ⟨out, out', hout, hout', -, hequal⟩ :=
    compared_template h.plainSources h.wellFounded (fun _ _ => h.kind) (fun _ _ => h.found) hwoven
  have hnodes : template.nodes = Node.shift [] .fresh template.nodes := by
    conv_lhs => rw [← Text.indentLines_empty template]
    rw [Text.indentLines_eq_laid]
    exact Text.scan_laid (by simp) h.plain h.unbroken .fresh
  have habove : Above (sourceOf fs options) (Registered options) [] template.nodes :=
    fun _ hcaller => absurd hcaller List.not_mem_nil
  obtain ⟨rest, rfl, hrest⟩ :=
    hout.expands h.plainSources h.acyclic hwoven (by simp) habove
  rw [← hnodes] at hrest
  have htrailing : Node.trailing [] .fresh template.nodes = [] := hwoven.trailing_eq [] .fresh
  rw [htrailing] at hequal
  exact ⟨rest, out', hrest, hout', hequal⟩

end Tidy

/-! ## Dispatching -/

/-- What embedding and dispatching need to render alike: no called name has an apostrophe, one
with the keyword is called by the template itself, and no line is left without its margin. -/
structure Alike (source? : Text → Option Text) (template : Text) : Prop where
  quotable : ∀ name w, Called source? template name w → '\'' ∉ name
  keyword : ∀ name w, Called source? template name w → word <:+: name →
    ∃ indent, .reference (.named name) indent ∈ template.nodes
  lines : LinesKept source? template

section

variable {fs : FileSystem} {options : Options} {template : Text} (h : Tidy fs options template)
  {o : Outcome}
  (hlinked : Linked fs (Context.start options none fs) (Registered options) template o)

include h hlinked

/-- A unit that is found under the literal of its name is the one of the source of the name. -/
theorem unit_of_entry {name : Text} (hname : Registered options name) (hquote : '\'' ∉ name)
    {body : List Token} (hentry : o.table.get? name.protect = some (entryText name body)) :
    ∃ source, sourceOf fs options name = some source ∧
      QuotableCalls (unitPieces .fresh source.nodes) ∧
      body = tokens [] (unitPieces .fresh source.nodes) := by
  have hkey : name.protect = name.escape :=
    Text.quote_of_not_mem fun hmem => hquote (Text.mem_of_mem_escape hmem)
  rw [hkey] at hentry
  obtain ⟨source, hsource, hunit⟩ := hlinked.unit _ _ hentry
  have hwoven := h.woven hname hsource
  have hwords := (callsOf_unitPieces hwoven .fresh).wordCalls hwoven.subset
  exact ⟨source, hsource, (tableEntry_eq_entryText_iff hquote hwords).mp hunit.symm⟩

/-- If the code is rendered, then every call in it finds the unit of the source of its name. -/
theorem stocked_of_renders {out : List Output} (hout : Renders o out)
    {name w : Text} (hcalled : Called (sourceOf fs options) template name w) :
    '\'' ∉ name ∧ ∃ source a, sourceOf fs options name = some source ∧
      o.table.get? name.protect =
        some (entryText name (tokens [] (unitPieces .fresh source.nodes))) ∧
      QuotableCalls (unitPieces .fresh source.nodes) ∧
      Evaluates o.table w (unitPieces .fresh source.nodes) a := by
  have hfirst := h.plain.firstWords.woven h.unbroken true
  have hcalls := callsOf_templatePieces hfirst
  obtain ⟨ts, hts, hevaluates⟩ := hout
  rw [hlinked.code] at hts
  obtain ⟨hquotable, rfl⟩ := (written_eq_rawInside_iff (hcalls.wordCalls hfirst.subset)).mp hts
  rw [pieces_tokens] at hevaluates
  induction hcalled with
  | @template name indent hmem =>
      have hquote := hcalls.quotableCalls_iff.mp hquotable name indent hmem
      obtain ⟨body, a, hentry, ha⟩ := hcalls.unit_of_evaluates hevaluates (.inr rfl) hmem
      obtain ⟨source, hsource, hinner, rfl⟩ :=
        unit_of_entry h hlinked (h.kind (.template hmem)) hquote hentry
      rw [pieces_tokens] at ha
      exact ⟨hquote, source, a, hsource, hentry, hinner, ha⟩
  | @source caller w callerSource name indent hcaller hsource hmem ih =>
      obtain ⟨-, other, a, hother, -, hinner, ha⟩ := ih
      obtain rfl := Option.some.inj (hsource.symm.trans hother)
      have hcalls := callsOf_unitPieces (h.woven (h.kind hcaller) hsource) .fresh
      have hquote := hcalls.quotableCalls_iff.mp hinner name indent hmem
      obtain ⟨body, b, hentry, hb⟩ := hcalls.unit_of_evaluates ha (.inl rfl) hmem
      obtain ⟨source, hsource', hinner', rfl⟩ :=
        unit_of_entry h hlinked (h.kind (.source hcaller hsource hmem)) hquote hentry
      rw [pieces_tokens] at hb
      exact ⟨hquote, source, b, hsource', hentry, hinner', hb⟩

/-- Called names without apostrophes have units, if those with the keyword are called by the
template itself. -/
theorem stocked_of_quotable
    (hquote : ∀ name w, Called (sourceOf fs options) template name w → '\'' ∉ name)
    (hkeyword : ∀ name w, Called (sourceOf fs options) template name w → word <:+: name →
      ∃ indent, .reference (.named name) indent ∈ template.nodes) :
    Stocked o.table (sourceOf fs options) template := by
  have hfound : ∀ name w, Called (sourceOf fs options) template name w →
      (Context.start options none fs).rawSource? fs name.escape ≠ none := by
    intro name w hcalled hnone
    obtain ⟨source, hsource⟩ := h.found hcalled
    cases hsource.symm.trans hnone
  have hunit : ∀ name w, Called (sourceOf fs options) template name w → name.escape ∈ o.table := by
    intro name w hcalled
    induction hcalled with
    | template hmem => exact hlinked.start _ _ hmem (hfound _ _ (.template hmem))
    | @source caller w source name indent hcaller hsource hmem ih =>
        have hcalled : Called (sourceOf fs options) template name (passed w indent) :=
          .source hcaller hsource hmem
        by_cases hword : word <:+: name
        · obtain ⟨other, hstart⟩ := hkeyword name _ hcalled hword
          exact hlinked.start name other hstart (hfound _ _ hcalled)
        · exact hlinked.called caller source name indent (h.kind hcaller) ih hsource hmem hword
            (hfound _ _ hcalled)
  intro name w hcalled
  obtain ⟨entry, hentry⟩ := OrderedMap.mem_iff_exists_get?.mp (hunit name w hcalled)
  obtain ⟨source, hsource, rfl⟩ := hlinked.unit _ _ hentry
  have hwoven := h.woven (h.kind hcalled) hsource
  have hcalls := callsOf_unitPieces hwoven .fresh
  have hinner : QuotableCalls (unitPieces .fresh source.nodes) :=
    hcalls.quotableCalls_iff.mpr fun callee indent hmem =>
      hquote callee _ (.source hcalled hsource hmem)
  have hkey : name.protect = name.escape :=
    Text.quote_of_not_mem fun hmem => hquote name w hcalled (Text.mem_of_mem_escape hmem)
  refine ⟨source, hsource, ?_⟩
  rw [hkey, hentry, (tableEntry_eq_entryText_iff (hquote name w hcalled)
    (hcalls.wordCalls hwoven.subset)).mpr ⟨hinner, rfl⟩]

/-- The dispatching code renders to the expansion of the template exactly if nothing is in the
way. -/
theorem renders_iff_alike {out out' : List Output}
    (hout' : Spreads (sourceOf fs options) false [] .fresh template.nodes out')
    (hequal : out' = out ↔ LinesKept (sourceOf fs options) template) :
    Renders o out ↔ Alike (sourceOf fs options) template := by
  have hfirst := h.plain.firstWords.woven h.unbroken true
  have hcalls := callsOf_templatePieces hfirst
  constructor
  · intro hout
    have hcalled := fun name w (hname : Called (sourceOf fs options) template name w) =>
      stocked_of_renders h hlinked hout hname
    have hstocked : Stocked o.table (sourceOf fs options) template := by
      intro name w hname
      obtain ⟨-, source, a, hsource, hentry, -⟩ := hcalled name w hname
      exact ⟨source, hsource, hentry⟩
    refine ⟨fun name w hname => (hcalled name w hname).1, fun name w hname hword => ?_, ?_⟩
    · obtain ⟨hquote, source, a, -, hentry, -⟩ := hcalled name w hname
      have hkey : name.protect = name.escape :=
        Text.quote_of_not_mem fun hmem => hquote (Text.mem_of_mem_escape hmem)
      rw [hkey] at hentry
      exact hlinked.keyword name hword (OrderedMap.mem_of_get? hentry)
    · refine hequal.mp ?_
      obtain ⟨ts, hts, hevaluates⟩ := hout
      rw [hlinked.code] at hts
      obtain ⟨-, rfl⟩ := (written_eq_rawInside_iff (hcalls.wordCalls hfirst.subset)).mp hts
      rw [pieces_tokens] at hevaluates
      exact hevaluates.unique (hout'.evaluates_template hstocked fun name indent hmem => .template hmem)
  · rintro ⟨hquote, hkeyword, hlines⟩
    have hstocked := stocked_of_quotable h hlinked hquote hkeyword
    have hquotable : QuotableCalls (templatePieces template.nodes) :=
      hcalls.quotableCalls_iff.mpr fun name indent hmem => hquote name _ (.template hmem)
    refine ⟨tokens [] (templatePieces template.nodes), ?_, ?_⟩
    · rw [hlinked.code]
      exact (written_eq_rawInside_iff (hcalls.wordCalls hfirst.subset)).mpr ⟨hquotable, rfl⟩
    · rw [pieces_tokens, ← hequal.mpr hlines]
      exact hout'.evaluates_template hstocked fun name indent hmem => .template hmem

end

/-- Embedding and dispatching render to the same exactly if no called name has an apostrophe,
names with the keyword are called by the template itself, and nothing but tags alone on their
lines comes after such a tag in a partial that is called with an indentation. -/
theorem dispatching_renders_iff (fs : FileSystem) (options : Options) (template : Text)
    (h : Tidy fs options template) :
    ∃ embedded dispatched out,
      compile fs (options.dispatching false) none template = some embedded ∧
      compile fs (options.dispatching true) none template = some dispatched ∧
      (∀ other, Renders embedded other ↔ other = out) ∧
      (Renders dispatched out ↔ Alike (sourceOf fs options) template) := by
  obtain ⟨out, out', hexpands, hout', hequal⟩ := h.compared
  have hsource : ∀ name, Registered options name → sourceOf fs options name =
      (Context.start (options.dispatching false) none fs).rawSource? fs name.escape :=
    fun _ _ => rfl
  have hplain : ∀ name raw, Registered options name →
      (Context.start (options.dispatching false) none fs).rawSource? fs name.escape = some raw →
        raw.Plain (Registered options) :=
    fun name raw hname hraw => (h.sources_of_found name raw (.inl hname) hraw).1
  obtain ⟨embedded, other, hembedded, hother, hcode⟩ :=
    exists_expansion hsource hplain h.plain rfl h.fragments
  have hsame : other = out := by
    have hnoIndent : (options.dispatching false).flags.noIndent = false := h.indents
    rw [hnoIndent] at hother
    exact hexpands.unique hother
  have hruntime : (options.dispatching true).flags.runtime = true := rfl
  obtain ⟨dispatched, hdispatched, hlinked⟩ :=
    exists_linked fs hruntime h.indents h.fragments h.sources_of_found h.plain
  have hsources : Linked fs (Context.start options none fs) (Registered options) template dispatched :=
    ⟨hlinked.code, hlinked.unit, hlinked.start, hlinked.called, hlinked.keyword⟩
  refine ⟨embedded, dispatched, out, hembedded, hdispatched, fun other => ?_, ?_⟩
  · exact (renders_of_code (hsame ▸ hcode)).iff_eq other
  · exact renders_iff_alike h hsources hout' hequal

/-! A line after a call that is alone on its line, in a partial that is called with an
indentation. -/

/-- The partial `a` calls `b` and goes on with a line of its own. -/
def lineAfterCall : Options :=
  { Options.standard with
    partials := .ofList
      [("a".toList, "\x7b\x7b> b\x7d\x7d\nx\n".toList), ("b".toList, "y\n".toList)] }

theorem tidy_lineAfterCall :
    Tidy (.emptyAt ['/']) lineAfterCall "  \x7b\x7b> a\x7d\x7d\n".toList where
  fragments := rfl
  indents := rfl
  plain := by decide +kernel
  unbroken := by decide +kernel
  sources := by
    intro name source h
    have hall : ∀ entry ∈ lineAfterCall.partials.entries, entry.2.Plain (Registered lineAfterCall) ∧
        entry.2.Unbroken ∧ bell ∉ entry.2 := by
      decide +kernel
    exact hall _ (OrderedMap.mem_entries_of_get? h)
  files := by
    intro name _ hnew
    have hcontents : (FileSystem.emptyAt ['/']).contents = [] := by decide +kernel
    unfold Context.rawSource?
    have hget : lineAfterCall.partials.get? name = none := OrderedMap.get?_eq_none_iff.mpr hnew
    have hpartials : (Context.start lineAfterCall none (.emptyAt ['/'])).partials =
        lineAfterCall.partials := rfl
    rw [hpartials, hget]
    refine List.findSome?_eq_none_iff.mpr fun path _ => ?_
    by_contra hread
    obtain ⟨content, hcontent⟩ := Option.ne_none_iff_exists'.mp hread
    have hmem := FileSystem.mem_contents_of_readText? hcontent
    rw [hcontents] at hmem
    cases hmem
  acyclic := by
    have hall : ∀ entry ∈ lineAfterCall.partials.entries, ∀ callee ∈ entry.2.references,
        entry.1 = "a".toList ∧ callee = "b".toList := by
      decide +kernel
    have hrefers : ∀ caller callee, Refers (sourceOf (.emptyAt ['/']) lineAfterCall)
        (Registered lineAfterCall) caller callee →
          caller.escape = "a".toList ∧ callee = "b".toList := by
      rintro caller callee ⟨hcaller, source, hsource, hcallee⟩
      have hget := (rawSource?_of_mem hcaller (.emptyAt ['/'])).symm.trans hsource
      exact hall _ (OrderedMap.mem_entries_of_get? hget) callee hcallee
    refine not_transGen_self (p := fun name => name.escape = "a".toList) fun caller callee h => ?_
    obtain ⟨hcaller, rfl⟩ := hrefers caller callee h
    exact ⟨hcaller, by decide⟩

theorem dispatching_renders_lineAfterCall :
    Tidy (.emptyAt ['/']) lineAfterCall "  \x7b\x7b> a\x7d\x7d\n".toList ∧
    ∃ embedded dispatched out,
      compile (.emptyAt ['/']) (lineAfterCall.dispatching false) none
        "  \x7b\x7b> a\x7d\x7d\n".toList = some embedded ∧
      compile (.emptyAt ['/']) (lineAfterCall.dispatching true) none
        "  \x7b\x7b> a\x7d\x7d\n".toList = some dispatched ∧
      (∀ other, Renders embedded other ↔ other = out) ∧
      (Renders dispatched out ↔ Alike (sourceOf (.emptyAt ['/']) lineAfterCall)
        "  \x7b\x7b> a\x7d\x7d\n".toList) :=
  ⟨tidy_lineAfterCall, dispatching_renders_iff _ _ _ tidy_lineAfterCall⟩

/-- Embedding indents the line after the call, dispatching does not. -/
theorem line_after_call_not_indented : ∃ embedded dispatched,
    compile (.emptyAt ['/']) (lineAfterCall.dispatching false) none
      "  \x7b\x7b> a\x7d\x7d\n".toList = some embedded ∧
    compile (.emptyAt ['/']) (lineAfterCall.dispatching true) none
      "  \x7b\x7b> a\x7d\x7d\n".toList = some dispatched ∧
    Renders embedded ("  y\n  x\n".toList.map .char) ∧
    Renders dispatched ("  y\nx\n".toList.map .char) := by
  have hembedded : (compile (.emptyAt ['/']) (lineAfterCall.dispatching false) none
      "  \x7b\x7b> a\x7d\x7d\n".toList).map (fun o => o.code) =
        some (codeOf ("  y\n  x\n".toList.map .char)) := by
    decide +kernel
  have hdispatched : (compile (.emptyAt ['/']) (lineAfterCall.dispatching true) none
      "  \x7b\x7b> a\x7d\x7d\n".toList).map (fun o => (o.code, o.table.get? "a".toList,
          o.table.get? "b".toList)) =
        some (rawInside [.expr (.call "a".toList false "  ".toList)],
          some (entryText "a".toList (tokens []
            [.expr (.call "b".toList true []), .char 'x', .char '\n'])),
          some (entryText "b".toList (tokens [] [.expr .margin, .char 'y', .char '\n']))) := by
    decide +kernel
  obtain ⟨embedded, hcompiled, hcode⟩ := Option.map_eq_some_iff.mp hembedded
  obtain ⟨dispatched, hcompiled', hrest⟩ := Option.map_eq_some_iff.mp hdispatched
  obtain ⟨hcode', hcaller, hcallee⟩ : _ ∧ _ ∧ _ := by
    simpa only [Prod.mk.injEq] using hrest
  refine ⟨embedded, dispatched, hcompiled, hcompiled', renders_of_code hcode, ?_⟩
  refine ⟨tokens [] [.expr (.call "a".toList false "  ".toList)], ?_, ?_⟩
  · rw [hcode']
    decide +kernel
  · rw [pieces_tokens]
    have hinner : Evaluates dispatched.table ((if true then "  ".toList else []) ++ [])
        ((tokens [] [.expr .margin, .char 'y', .char '\n']).flatMap Token.pieces)
        ("  y\n".toList.map .char) := by
      rw [pieces_tokens]
      exact .margin (.char (.char .nil))
    have houter : Evaluates dispatched.table ((if false then [] else []) ++ "  ".toList)
        ((tokens [] [.expr (.call "b".toList true []), .char 'x', .char '\n']).flatMap
          Token.pieces) ("  y\nx\n".toList.map .char) := by
      rw [pieces_tokens]
      exact .call hcallee hinner (.char (.char .nil))
    exact .call hcaller houter .nil

end Handlebars

end Inlay
