import Inlay.Proofs.IndentedRuns
import Inlay.Proofs.StaticExpansion
import Inlay.Proofs.Trimming

/-!
# Names written in tags

A name goes through the template before it is looked for: backslashes of the
template are doubled, the tag is cut out at the next two closing braces, and
its first word is taken without quotes. What is found then is the partial
that is registered under the name with its backslashes doubled.
-/

namespace Inlay

/-! ## Tags and names -/

namespace Text

/-- A name that can be written in a tag as it is. -/
structure Writable (name : Text) : Prop where
  ne_nil : name ≠ []
  solid : ∀ c ∈ name, isBlank c = false
  unclosed : ¬ Tag.closing <:+: name
  first : ∀ c ∈ name.head?, Tag.isQuote c = false ∧ c ≠ '('
  last : ∀ c ∈ name.getLast?, Tag.isQuote c = false ∧ c ≠ '\x7d'
  not_block : name ≠ Tag.blockName

/-- What stands in a tag that refers to a name. -/
def inTag (name : Text) : Text :=
  "> ".toList ++ name

/-- A template that is one tag. -/
def tagFor (name : Text) : Text :=
  Tag.opening ++ (name.inTag ++ Tag.closing)

/-- A tag goes to the first two closing braces. -/
theorem cut?_closing {s : Text} (hs : ¬ Tag.closing <:+: s) (hlast : '\x7d' ∉ s.getLast?)
    (rest : Text) : cut? Tag.closing (s ++ (Tag.closing ++ rest)) = some (s, rest) := by
  induction s with
  | nil => exact cut?_append_self rest
  | cons c s ih =>
      have hnone : after? Tag.closing (c :: (s ++ (Tag.closing ++ rest))) = none := by
        cases hafter : after? Tag.closing (c :: (s ++ (Tag.closing ++ rest))) with
        | none => rfl
        | some t =>
            obtain ⟨rfl, ht⟩ := List.cons.inj (eq_append_of_after? hafter)
            cases s with
            | nil => exact absurd rfl hlast
            | cons d s =>
                obtain ⟨rfl, -⟩ := List.cons.inj ht
                exact absurd ⟨[], s, rfl⟩ hs
      have hrest : '\x7d' ∉ s.getLast? := by
        intro h
        apply hlast
        rw [List.getLast?_cons, h]
        rfl
      rw [List.cons_append, cut?, hnone, ih (fun h => hs (h.trans (List.suffix_cons c s).isInfix)) hrest]
      rfl

namespace Writable

variable {name : Text} (h : name.Writable)

include h

theorem first_not_blank : name.head?.any isBlank = false := by
  obtain ⟨c, s, rfl⟩ := List.exists_cons_of_ne_nil h.ne_nil
  simpa using h.solid c List.mem_cons_self

theorem last_not_blank : name.getLast?.any isBlank = false := by
  rw [List.getLast?_eq_some_getLast h.ne_nil]
  exact h.solid _ (List.getLast_mem h.ne_nil)

theorem getLast?_inTag : name.inTag.getLast? = name.getLast? :=
  List.getLast?_append_of_ne_nil _ h.ne_nil

theorem next?_tagFor : Tag.next? name.tagFor = some ([], name.inTag, []) := by
  have hinside : ¬ Tag.closing <:+: name.inTag := by
    intro hinfix
    rcases List.infix_cons_iff.mp hinfix with hprefix | hinfix
    · exact absurd (List.cons_prefix_cons.mp hprefix).1 (by decide)
    · rcases List.infix_cons_iff.mp hinfix with hprefix | hinfix
      · exact absurd (List.cons_prefix_cons.mp hprefix).1 (by decide)
      · exact h.unclosed hinfix
  have hlast : '\x7d' ∉ name.inTag.getLast? := by
    intro hmem
    rw [h.getLast?_inTag] at hmem
    exact (h.last _ hmem).2 rfl
  have hcut := cut?_closing hinside hlast []
  rw [List.append_nil] at hcut
  unfold Tag.next? tagFor
  rw [cut?_append_self]
  simp only [Option.bind_eq_bind, Option.bind_some, hcut, Option.pure_def]

theorem trim_inTag : name.inTag.trim = name.inTag := by
  have hlast : name.inTag.getLast?.any isBlank = false := by
    rw [h.getLast?_inTag]
    exact h.last_not_blank
  have hnone : ∀ c ∈ ([] : Text), isBlank c = true := by simp
  have hfirst : name.inTag.head?.any isBlank = false := rfl
  have hstrip := strip_append hnone hnone hfirst hlast
  rwa [List.nil_append, List.append_nil] at hstrip

theorem trim_cons_blank : trim (' ' :: name) = name := by
  have hblank : ∀ c ∈ [' '], isBlank c = true := by decide
  have hstrip := strip_append hblank (b := []) (by simp) h.first_not_blank h.last_not_blank
  rwa [List.append_nil, List.singleton_append] at hstrip

theorem parenthesized?_eq_none : Tag.parenthesized? name = none := by
  obtain ⟨c, s, rfl⟩ := List.exists_cons_of_ne_nil h.ne_nil
  have hc := (h.first c rfl).2
  unfold Tag.parenthesized?
  split
  · rename_i heq
    exact absurd (List.cons.inj heq).1 hc
  · rfl

theorem firstWord_cons_blank : firstWord (' ' :: name) = name := by
  obtain ⟨c, s, rfl⟩ := List.exists_cons_of_ne_nil h.ne_nil
  have hc : ¬ isBlank c = true := Bool.eq_false_iff.mp (h.solid c List.mem_cons_self)
  have hquote : (c :: s).getLast?.any Tag.isQuote = false := by
    rw [List.getLast?_eq_some_getLast h.ne_nil]
    exact (h.last _ (List.getLast?_eq_some_getLast h.ne_nil)).1
  have hnone : ∀ d ∈ ([] : Text), Tag.isQuote d = true := by simp
  have hfirst : (c :: s).head?.any Tag.isQuote = false := (h.first c rfl).1
  have hstrip := strip_append hnone hnone hfirst hquote
  have hword : (c :: s).takeWhile (fun d => !isBlank d) = c :: s := by
    rw [List.takeWhile_eq_self_iff]
    intro d hd
    rw [h.solid d hd]
    rfl
  rw [firstWord, List.dropWhile_cons_of_pos (by decide), List.dropWhile_cons_of_neg hc, hword]
  rwa [List.nil_append, List.append_nil] at hstrip

/-- The tag refers to the name. -/
theorem ofText_inTag : Tag.ofText name.inTag = .reference (.named name) := by
  have hreference : Tag.referenceOf (' ' :: name) = .named name := by
    unfold Tag.referenceOf
    rw [h.trim_cons_blank, h.parenthesized?_eq_none, h.firstWord_cons_blank]
    exact if_neg h.not_block
  have hblock : after? ['#', '>'] name.inTag = none := by simp [inTag, after?]
  have hrest : after? ['>'] name.inTag = some (' ' :: name) := by simp [inTag, after?]
  rw [Tag.ofText, h.trim_inTag, Tag.ofInside, hblock, hrest, ← hreference]

/-- The template is escaped before its tag is read. -/
theorem nodes_escape_tagFor : name.tagFor.escape.nodes =
    [.literal [], .reference (.named name.escape) (some []), .literal []] := by
  have hplain : name.tagFor.Plain fun _ => True := by
    intro tag htag
    rw [tags_of_next? h.next?_tagFor, tags_nil, h.ofText_inTag] at htag
    rw [List.mem_singleton.mp htag]
    trivial
  have hempty : Node.scan true [] = [.literal []] := Node.scan_of_none (by decide) true
  have hnodes : name.tagFor.nodes =
      .literal [] :: .reference (.named name) (some []) :: Node.scan true [] :=
    Node.scan_of_reference h.next?_tagFor h.ofText_inTag true
  rw [hplain.nodes_escape, hnodes, hempty]
  simp [Node.map, Reference.map]

end Writable

/-- A text without tags is one literal, escaped or not. -/
theorem nodes_escape_of_none {s : Text} (h : Tag.next? s = none) :
    s.escape.nodes = [.literal s.escape] := by
  have hnone : Tag.next? s.escape = none := by
    rw [escape_eq_replace, inert_escape.next?_replace, h]
    rfl
  exact Node.scan_of_none hnone true

end Text

namespace Handlebars

open Compilation

section

variable {fs : FileSystem} {options : Options} {hook : Option Hook}

/-- A run from the template to the end is what the compilation yields. -/
theorem Compiles.compile_eq {source code : Text} {middle final : Compilation}
    (h : Compiles fs options none source code middle final) :
    compile fs options none source = some (Outcome.ofRun (code, final)) := by
  obtain ⟨code', middle', final', hrun, h'⟩ := exists_compiles fs options source
  obtain ⟨rfl, rfl⟩ := h.unique h'
  unfold compile
  rw [hrun]
  rfl

/-- Nothing is read after the template if no name was left to render time. -/
theorem Compiles.of_runs {source code : Text} {final : Compilation}
    (h : Runs fs (.text source.escape) (.initial options hook fs) code final)
    (hcount : final.view.counters.count Counter.dynamicReferences = 0) :
    Compiles fs options hook source code final final := by
  have hpreloaded : preloaded final.view = [] := if_neg (not_not.mpr hcount)
  exact ⟨h, hpreloaded ▸ .nil⟩

theorem runs_text_of_none {source : Text} (h : Tag.next? source = none) (s : Compilation) :
    Runs fs (.text source.escape) s source.escape.quote
      (s.emit (.compile s.view source.escape)) := by
  have hrun : Runs fs (.nodes [.literal source.escape]) (s.emit (.compile s.view source.escape))
      (source.escape.quote ++ []) (s.emit (.compile s.view source.escape)) := .cons .literal .nil
  rw [← Text.nodes_escape_of_none h, List.append_nil] at hrun
  exact .text hrun

variable {s : Compilation} {name : Text}

/-- A partial that is not found is reported once, when it is read. -/
theorem missedOnce_missed (name : Text) (s : Compilation) :
    (s.missed name).missedOnce name = s.missed name := by
  have hflags : (s.missed name).view.flags = s.view.flags :=
    congrArg (fun c => c.flags) (scope_missed name s)
  apply missedOnce_eq_self
  rw [hflags]
  exact told_missed name s

variable (hembeds : s.view.flags.runtime = false) (hfree : s.HookFree)
  (hchain : s.view.chain = []) (hnew : name ∉ s.view.cached)

include hembeds hfree hnew

/-- A reference that finds nothing has no code, and is reported unless that is switched off. -/
theorem exists_run_missing (hnone : s.context.rawSource? fs name = none) :
    ∃ t, Runs fs (.node (.reference (.named name) (some []))) s [] t ∧
      t.view.diagnostics = s.view.diagnostics ++
        (if s.view.flags.skipMissing then [] else [.missingPartial name]) ∧
      t.view.counters = s.view.counters.increment Counter.references := by
  have hunknown : (atIndent [] s).view.resolvedName name ∉ (atIndent [] s).view.cached := by
    have hsame : (atIndent [] s).view.resolvedName name = name := hfree.resolvedName_eq name
    rwa [hsame]
  have hread : Runs fs (.read name) (atIndent [] s) []
      (((atIndent [] s).counted Counter.references).missed name) := .readMissing hunknown hnone
  have hmissed := missedOnce_missed name ((atIndent [] s).counted Counter.references)
  have hdone := hread.hookFree ⟨hfree.hook, hfree.aliases⟩
  have hcached := cached_missed name ((atIndent [] s).counted Counter.references)
  generalize hs₁ : ((atIndent [] s).counted Counter.references).missed name = s₁ at *
  have hembed : Runs fs (.embed name) s₁ [] (s₁.missedOnce name) :=
    .embedMissing (OrderedMap.get?_eq_none_iff.mpr (hcached ▸ hnew))
  rw [hmissed] at hembed
  refine ⟨atIndent s.view.lineIndent s₁, .embedded hread (hread.flags_eq ▸ hembeds) ?_, ?_, ?_⟩
  · rwa [hdone.resolvedName_eq, hdone.resolvedName_eq]
  · rw [← hs₁]
    exact diagnostics_missed ..
  · rw [← hs₁]
    unfold Compilation.missed
    split <;> rfl

include hchain

/-- The code of a reference that finds a source without tags is the source, quoted. -/
theorem exists_run_found {source : Text} (hsource : s.context.rawSource? fs name = some source)
    (hnone : Tag.next? source = none) :
    ∃ t, Runs fs (.node (.reference (.named name) (some []))) s source.escape.quote t ∧
      t.view.diagnostics = s.view.diagnostics ∧
      t.view.counters = s.view.counters.increment Counter.references := by
  have hread : Runs fs (.read name) (atIndent [] s) []
      (((atIndent [] s).counted Counter.references).cache name name source) :=
    runs_read_embedding hembeds ⟨hfree.hook, hfree.aliases⟩ hsource
  have hdone := hread.hookFree ⟨hfree.hook, hfree.aliases⟩
  have hcached : (((atIndent [] s).counted Counter.references).cache name name source).view.cached.get?
      name = some source.escape := OrderedMap.get?_insertIfNew_self hnew _
  generalize hs₁ : ((atIndent [] s).counted Counter.references).cache name name source = s₁ at *
  have hindent : s₁.view.lineIndent = [] := congrArg (fun c => c.lineIndent) hread.scope_eq
  have hplaced : embedded s₁.view source.escape = source.escape := by
    unfold embedded
    rw [hindent, Text.indentLines_empty, ite_self]
  have htext : Runs fs (.text (embedded s₁.view source.escape)) (s₁.enter name)
      source.escape.quote ((s₁.enter name).emit (.compile (s₁.enter name).view source.escape)) := by
    rw [hplaced]
    exact runs_text_of_none hnone (s₁.enter name)
  have hnodup : (name :: s₁.view.chain).Nodup := by
    have hempty : s₁.view.chain = [] := hread.chain_eq.trans hchain
    rw [hempty]
    exact List.nodup_singleton name
  have hruntime : s₁.view.flags.runtime = false := hread.flags_eq ▸ hembeds
  have hresolved : s₁.view.resolvedName (s₁.view.resolvedName name) = name := by
    rw [hdone.resolvedName_eq, hdone.resolvedName_eq]
  have hembed := Runs.embedGuarded hcached hruntime hnodup htext
  refine ⟨_, .embedded hread hruntime (hresolved.symm ▸ hembed), ?_, ?_⟩
  · show s₁.view.diagnostics = _
    rw [← hs₁]
    rfl
  · show s₁.view.counters = _
    rw [← hs₁]
    rfl

end

/-! ## Whole templates -/

variable {fs : FileSystem} {options : Options}

theorem counters_start : (Context.start options none fs).counters = .ofList
    [(Counter.references, 0), (Counter.dynamicReferences, 0), (Counter.inlineDefinitions, 0)] := rfl

theorem compile_eq_of_none {source : Text} (h : Tag.next? source = none) :
    ∃ outcome, compile fs options none source = some outcome ∧
      outcome.code = source.protect ∧ outcome.diagnostics = [] := by
  have hrun : Runs fs _ _ _ _ := runs_text_of_none h (.initial options none fs)
  refine ⟨_, (Compiles.of_runs hrun ?_).compile_eq, rfl, rfl⟩
  show (Context.start options none fs).counters.count Counter.dynamicReferences = 0
  rw [counters_start]
  decide

/-- The outcome of a tag comes from what a run of its reference gives. -/
theorem exists_outcome_tagFor {name code : Text} (hname : name.Writable) {diagnostics : List Diagnostic}
    (h : ∀ s : Compilation, s.context = Context.start options none fs →
      ∃ t, Runs fs (.node (.reference (.named name.escape) (some []))) s code t ∧
        t.view.diagnostics = s.view.diagnostics ++ diagnostics ∧
        t.view.counters = s.view.counters.increment Counter.references) :
    ∃ outcome, compile fs options none name.tagFor = some outcome ∧
      outcome.code = code ∧ outcome.diagnostics = diagnostics := by
  obtain ⟨t, hnode, hdiagnostics, hcounters⟩ := h
    ((Compilation.initial options none fs).emit
      (.compile (Compilation.initial options none fs).view name.tagFor.escape)) rfl
  have hnodes : Runs fs (.nodes name.tagFor.escape.nodes)
      ((Compilation.initial options none fs).emit
        (.compile (Compilation.initial options none fs).view name.tagFor.escape))
      ([] ++ (code ++ ([] ++ []))) t := by
    rw [hname.nodes_escape_tagFor]
    exact .cons .literal (.cons hnode (.cons .literal .nil))
  have hcount : t.view.counters.count Counter.dynamicReferences = 0 := by
    rw [hcounters]
    show ((Context.start options none fs).counters.increment Counter.references).count
      Counter.dynamicReferences = 0
    rw [counters_start]
    decide
  refine ⟨_, (Compiles.of_runs (.text hnodes) hcount).compile_eq, ?_, hdiagnostics⟩
  show [] ++ (code ++ ([] ++ [])) = code
  simp

/-- A tag finds what is registered under its name with the backslashes doubled, or a file of that
name. So a registered partial without tags is found under a name without backslashes, and there
is the same code as for the partial itself; under a name with backslashes this is so only if the
same text is found under the other name. -/
theorem written_name_found (fs : FileSystem) (options : Options) (name source : Text)
    (hembeds : options.flags.runtime = false) (hname : name.Writable)
    (hsource : options.partials.get? name = some source) (hnone : Tag.next? source = none) :
    ∃ tag text, compile fs options none name.tagFor = some tag ∧
      compile fs options none source = some text ∧
      ('\\' ∉ name → tag.diagnostics = [] ∧ tag.code = text.code) ∧
      (∀ found, (Context.start options none fs).rawSource? fs name.escape = some found →
        Tag.next? found = none → tag.diagnostics = [] ∧ (tag.code = text.code ↔ found = source)) ∧
      ((Context.start options none fs).rawSource? fs name.escape = none →
        tag.code = [] ∧ tag.diagnostics =
          if options.flags.skipMissing then [] else [.missingPartial name.escape]) := by
  have hstart : ∀ s : Compilation, s.context = Context.start options none fs →
      s.view.flags = options.flags ∧ s.HookFree ∧ s.view.chain = [] ∧ name.escape ∉ s.view.cached := by
    intro s hs
    have hview : s.view = (Context.start options none fs).toView := congrArg Context.toView hs
    refine ⟨congrArg View.flags hview, ⟨congrArg Context.hook hs, congrArg View.aliases hview⟩,
      congrArg View.chain hview, ?_⟩
    rw [hview]
    exact List.not_mem_nil
  have hfound : ∀ found, (Context.start options none fs).rawSource? fs name.escape = some found →
      Tag.next? found = none → ∃ tag, compile fs options none name.tagFor = some tag ∧
        tag.code = found.protect ∧ tag.diagnostics = [] := by
    intro found hraw htags
    refine exists_outcome_tagFor hname fun s hs => ?_
    obtain ⟨hflags, hfree, hchain, hnew⟩ := hstart s hs
    rw [← hs] at hraw
    obtain ⟨t, hrun, hdiagnostics, hcounters⟩ :=
      exists_run_found (hflags ▸ hembeds) hfree hchain hnew hraw htags
    exact ⟨t, hrun, hdiagnostics.trans (List.append_nil _).symm, hcounters⟩
  have hmissing : (Context.start options none fs).rawSource? fs name.escape = none →
      ∃ tag, compile fs options none name.tagFor = some tag ∧ tag.code = [] ∧ tag.diagnostics =
        if options.flags.skipMissing then [] else [.missingPartial name.escape] := by
    intro hraw
    refine exists_outcome_tagFor hname fun s hs => ?_
    obtain ⟨hflags, hfree, -, hnew⟩ := hstart s hs
    rw [← hs] at hraw
    obtain ⟨t, hrun, hdiagnostics, hcounters⟩ :=
      exists_run_missing (hflags ▸ hembeds) hfree hnew hraw
    exact ⟨t, hrun, hflags ▸ hdiagnostics, hcounters⟩
  obtain ⟨text, htext, hcode, -⟩ : ∃ text, compile fs options none source = some text ∧
      text.code = source.protect ∧ text.diagnostics = [] := compile_eq_of_none hnone
  obtain ⟨tag, htag, -⟩ := compile_terminates fs options name.tagFor
  refine ⟨tag, text, htag, htext, fun hplain => ?_, fun found hraw htags => ?_, fun hraw => ?_⟩
  · have hmem : name ∈ (Context.start options none fs).partials :=
      OrderedMap.mem_iff_exists_get?.mpr ⟨source, hsource⟩
    have hself : (Context.start options none fs).rawSource? fs name.escape = some source := by
      rw [Text.escape_of_not_mem hplain, rawSource?_of_mem hmem]
      exact hsource
    obtain ⟨other, hother, hsame, hnothing⟩ := hfound source hself hnone
    obtain rfl := Option.some.inj (htag.symm.trans hother)
    exact ⟨hnothing, hsame.trans hcode.symm⟩
  · obtain ⟨other, hother, hsame, hnothing⟩ := hfound found hraw htags
    obtain rfl := Option.some.inj (htag.symm.trans hother)
    rw [hsame, hcode, Text.protect_injective.eq_iff]
    exact ⟨hnothing, Iff.rfl⟩
  · obtain ⟨other, hother, hempty, hreported⟩ := hmissing hraw
    obtain rfl := Option.some.inj (htag.symm.trans hother)
    exact ⟨hempty, hreported⟩

/-- A name with a backslash, and in the second place its other name. -/
def backslashOptions : Options :=
  { Options.standard with
    partials := .ofList [("a\\b".toList, "x".toList), ("c\\d".toList, "y".toList),
      ("c\\\\d".toList, "z".toList)] }

theorem writable_backslash : Text.Writable "a\\b".toList ∧ Text.Writable "c\\d".toList := by
  constructor
  · exact ⟨by decide, by decide, by decide, by decide, by decide, by decide⟩
  · exact ⟨by decide, by decide, by decide, by decide, by decide, by decide⟩

theorem written_name_found_backslash :
    Text.Writable "c\\d".toList ∧ backslashOptions.partials.get? "c\\d".toList = some "y".toList ∧
    ∃ tag text,
      compile (.emptyAt ['/']) backslashOptions none (Text.tagFor "c\\d".toList) = some tag ∧
      compile (.emptyAt ['/']) backslashOptions none "y".toList = some text ∧
      tag.diagnostics = [] ∧ tag.code ≠ text.code := by
  have hsource : backslashOptions.partials.get? "c\\d".toList = some "y".toList := by decide +kernel
  obtain ⟨tag, text, htag, htext, -, hfound, -⟩ := written_name_found (.emptyAt ['/'])
    backslashOptions "c\\d".toList "y".toList rfl writable_backslash.2 hsource (by decide)
  obtain ⟨hclean, hsame⟩ := hfound "z".toList (by decide +kernel) (by decide)
  refine ⟨writable_backslash.2, hsource, tag, text, htag, htext, hclean, fun heq => ?_⟩
  exact absurd (hsame.mp heq) (by decide)

/-- A registered name with a backslash is reported as missing. -/
theorem backslash_name_missing :
    Text.Writable "a\\b".toList ∧ backslashOptions.partials.get? "a\\b".toList = some "x".toList ∧
    (compile (.emptyAt ['/']) backslashOptions none (Text.tagFor "a\\b".toList)).map
      (fun tag => (tag.code, tag.diagnostics)) = some ([], [.missingPartial "a\\\\b".toList]) ∧
    (compile (.emptyAt ['/']) backslashOptions none "x".toList).map (fun text => text.code) =
      some "x".toList :=
  ⟨writable_backslash.1, by decide +kernel, by decide +kernel, by decide +kernel⟩

end Handlebars

end Inlay
