import Inlay.Proofs.CompiledUnits
import Inlay.Proofs.KeptCalls

/-!
# The calls of the final code

A call in the final code names a partial. Either the dispatch table has a
unit of this name, or nothing of this name can be found and it is reported.
This holds for every name without the keyword. A name with the keyword is
masked where a unit refers to it, but not in the final code, so there it
depends on the template itself.
-/

namespace Inlay.Handlebars

open Compilation Keyword

/-! ## Calls in units -/

/-- The code of a node is in the code of the nodes. -/
theorem nodeCode_isInfix (v : View) (unit : Text → Text) {ns : List Node} {n : Node} (hn : n ∈ ns) :
    nodeCode v unit n <:+: ns.flatMap (nodeCode v unit) := by
  obtain ⟨before, after, rfl⟩ := List.append_of_mem hn
  rw [List.flatMap_append, List.flatMap_cons]
  exact ⟨_, _, List.append_assoc ..⟩

theorem callTo_isInfix_nodeCode (v : View) (unit : Text → Text) {n : Node} {name : Text}
    (h : n.dispatches? = some name) : callTo name <:+: nodeCode v unit n := by
  cases n with
  | reference target indent =>
      cases target with
      | named other =>
          obtain rfl := Option.some.inj h
          exact callTo_isInfix_dispatch v other indent none
      | _ => cases h
  | block other body closed =>
      obtain rfl := Option.some.inj h
      exact callTo_isInfix_dispatch v other none (some (unit body))
  | _ => cases h

/-- The callable of a body is in the code of the nodes. -/
theorem unit_isInfix_of_mem (v : View) (unit : Text → Text) {ns : List Node} {name body : Text}
    {closed : Bool} (h : .block name body closed ∈ ns) : unit body <:+: ns.flatMap (nodeCode v unit) := by
  have hcall : unit body <:+: nodeCode v unit (.block name body closed) :=
    callable_isInfix_dispatch v (nameLiteral name) none (unit body)
  exact hcall.trans (nodeCode_isInfix v unit h)

/-- A call of a text that a unit is compiled from is in the unit, with its name unmasked. -/
theorem callTo_isInfix_unitCode {flags : Flags} {fragments : Fragments}
    (hmargins : PlainMargins flags fragments) {source text : Text} (h : Comprises source text)
    {name : Text} (hname : name ∈ text.dispatched) (hkept : Kept (unmask name)) :
    callTo (unmask name) <:+: unitCode flags fragments source := by
  have hsolid : name.Solid := Text.solid_of_mem_references (text.dispatched_subset hname)
  induction h with
  | own source =>
      obtain ⟨n, hn, hdispatch⟩ := List.mem_filterMap.mp hname
      rw [unitCode_eq]
      refine callTo_isInfix_callable hmargins (hkept.lasting hsolid) ?_
      exact (callTo_isInfix_nodeCode _ _ hdispatch).trans (nodeCode_isInfix _ _ hn)
  | @body source other body closed text hblock _ ih =>
      have hinside := (ih hname).trans
        (unit_isInfix_of_mem (unitView flags fragments) (unitCode flags fragments) hblock)
      -- the callable of the body was unmasked, and goes through the passes over the unit around it
      have hcall := callTo_isInfix_callable (v := unitView flags fragments) hmargins
        (hkept.lasting_unmask hsolid) hinside
      rw [unitCode_eq]
      rwa [unmask_unmask] at hcall

/-! ## The calls and definitions of a compilation -/

section

variable (fs : FileSystem) (options : Options) (template code : Text) (final : Compilation)

/-- A masked text was compiled for a callable in this place: for the body of a block in the code of
the template, or for a unit in its entry of the dispatch table. -/
inductive CompiledInto : Text → Text → Prop
  | body {name body closed text} :
      .block name body closed ∈ template.escape.nodes → Comprises body text → CompiledInto code text
  | entry {name source entry text} :
      final.view.cached.get? name = some source → final.view.table.get? name = some entry →
      Comprises source text → CompiledInto entry text

/-- A reference or block makes a call with this name in this place. In the code of the template the
name is the one of the tag, in a callable it is unmasked. -/
inductive Emitted : Text → Text → Prop
  | template {name} : name ∈ template.escape.dispatched → Emitted code name
  | unit {place text masked} :
      CompiledInto template code final place text → masked ∈ text.dispatched → Kept (unmask masked) →
      Emitted place (unmask masked)

/-- An inline definition has this name, in the template or in a unit. -/
def DefinedInline (name : Text) : Prop :=
  name ∈ template.escape.defined ∨
    ∃ place text, CompiledInto template code final place text ∧ ∃ masked ∈ text.defined, name = unmask masked

/-- The table has a unit of this name, or nothing has this name and that is reported unless
missing partials are skipped. -/
def Closed (name : Text) : Prop :=
  name ∈ final.view.table ∨
    (¬ HasSource fs (Context.start options none fs) name ∧ ¬ DefinedInline template code final name ∧
      (options.flags.skipMissing = true ∨ .missingPartial name ∈ final.view.diagnostics))

end

section

variable {fs : FileSystem} {options : Options} {template code : Text} {middle final : Compilation}
  (h : Compiles fs options none template code middle final) (hruntime : options.flags.runtime = true)

include h hruntime

/-- Whatever is compiled but the template has its place in the final code, and all that has a place
there was compiled. -/
theorem Compiles.handed_iff (text : Text) :
    Handed final text ↔ text = template.escape ∨ ∃ place, CompiledInto template code final place text := by
  obtain ⟨hrecorded, hbrought⟩ := h.recorded hruntime
  have htable := (h.canonical hruntime).1
  constructor
  · intro hhanded
    rcases hrecorded.allotted text hhanded with (heq | ⟨name, body, closed, hblock, htext⟩) |
      ⟨name, source, hsource, htext⟩
    · exact .inl heq
    · exact .inr ⟨code, .body hblock htext⟩
    · obtain ⟨entry, hentry⟩ :=
        OrderedMap.mem_iff_exists_get?.mp ((htable name).mpr (OrderedMap.mem_of_get? hsource))
      exact .inr ⟨entry, .entry hsource hentry htext⟩
  · rintro (heq | ⟨place, hplaced⟩)
    · exact hbrought text (.inl heq)
    · cases hplaced with
      | body hblock htext => exact hbrought text (.inr ⟨_, _, _, hblock, htext⟩)
      | @entry name source entry _ hsource hentry htext =>
          obtain ⟨other, hother, htexts⟩ := hrecorded.units name (OrderedMap.mem_of_get? hentry)
          obtain rfl := Option.some.inj (hsource.symm.trans hother)
          exact htexts text htext

theorem Compiles.callTo_isInfix_code {name : Text} (hname : name ∈ template.escape.dispatched) :
    callTo name <:+: code := by
  obtain ⟨n, hn, hdispatch⟩ := List.mem_filterMap.mp hname
  rw [h.code_eq hruntime]
  exact (callTo_isInfix_nodeCode _ _ hdispatch).trans (nodeCode_isInfix _ _ hn)

/-- The calls are there in the final code. -/
theorem Compiles.callTo_isInfix (hmargins : PlainMargins options.flags options.fragments)
    {place name : Text} (hname : Emitted template code final place name) :
    callTo name <:+: place := by
  cases hname with
  | template hname => exact h.callTo_isInfix_code hruntime hname
  | unit hplaced hname hkept =>
      cases hplaced with
      | @body other body closed _ hblock htext =>
          have hunit := callTo_isInfix_unitCode hmargins htext hname hkept
          rw [h.code_eq hruntime]
          exact hunit.trans (unit_isInfix_of_mem _ _ hblock)
      | @entry key source _ _ hsource hentry htext =>
          have hunit := (h.canonical hruntime).2 key source hsource
          rw [h.resolve_eq_id, renamedUnit_id] at hunit
          obtain rfl := Option.some.inj (hentry.symm.trans hunit)
          exact (callTo_isInfix_unitCode hmargins htext hname hkept).trans
            (List.suffix_append _ _).isInfix

end

/-! ## Where the calls lead -/

/-- A name that unmasks to one without the keyword was not masked. -/
theorem eq_of_unmask {masked : Text} (hname : ¬ word <:+: unmask masked) : unmask masked = masked :=
  (unmask_eq_self_or_word_isInfix masked).resolve_right hname

section

variable {fs : FileSystem} {options : Options} {template code : Text} {preloads : List Text}
  {final : Compilation} (h : Done fs options template preloads final)
  (hhanded : ∀ place text, CompiledInto template code final place text → Handed final text)

include h hhanded

/-- A name without the keyword has a unit wherever it is defined. -/
theorem mem_table_of_definedInline {name : Text} (hplain : ¬ word <:+: name)
    (hname : DefinedInline template code final name) : name ∈ final.view.table := by
  rcases hname with hname | ⟨place, text, hplaced, masked, hmasked, rfl⟩
  · exact h.mem_table_of_defined h.handed_template hname
  · rw [eq_of_unmask hplain]
    exact h.mem_table_of_defined (hhanded place text hplaced) hmasked

omit hhanded in
theorem closed_of_looked {name : Text}
    (hlooked : Looked fs (Context.start options none fs) final name)
    (hdefined : name ∉ final.view.table → ¬ DefinedInline template code final name) :
    Closed fs options template code final name := by
  by_cases htable : name ∈ final.view.table
  · exact .inl htable
  · rcases hlooked with hcached | ⟨hsource, hreported⟩
    · exact .inl (h.mem_table_of_mem_cached hcached)
    · exact .inr ⟨hsource, hdefined htable, hreported⟩

/-- A name without the keyword is closed wherever it is called. -/
theorem closed_of_plain {place name : Text} (hplain : ¬ word <:+: name)
    (hname : Emitted template code final place name) : Closed fs options template code final name := by
  refine closed_of_looked h ?_ fun htable hdefined =>
    htable (mem_table_of_definedInline h hhanded hplain hdefined)
  cases hname with
  | template hname => exact h.looked h.handed_template hname
  | unit hplaced hmasked _ =>
      rw [eq_of_unmask hplain]
      exact h.looked (hhanded _ _ hplaced) hmasked

omit hhanded in
/-- A name with the keyword is closed only by what the template itself does. -/
theorem found_or_missing_of_closed {name : Text} (hword : word <:+: name)
    (hclosed : Closed fs options template code final name) :
    Found fs (Context.start options none fs) template preloads name ∨
      (¬ HasSource fs (Context.start options none fs) name ∧ ¬ DefinedInline template code final name ∧
        (options.flags.skipMissing = true ∨ name ∈ template.escape.dispatched)) := by
  rcases hclosed with htable | ⟨hsource, hdefined, hreported⟩
  · rcases (h.gains.table name htable).resolve_left (OrderedMap.not_mem_empty name) with hplain | hfound
    · exact absurd hword hplain
    · exact .inl hfound
  · refine .inr ⟨hsource, hdefined, hreported.imp_right fun hmissing => ?_⟩
    rcases (h.gains.missing name hmissing).resolve_left (List.not_mem_nil) with hplain | hname
    · exact absurd hword hplain
    · exact hname

end

/-- Where the calls of a dispatching compilation lead. The texts that are compiled are the template and
those that have a place in a callable of the final code, and their calls stand there. The name in a
call has a unit, or cannot be found and is reported, if it does not have the keyword. If it does, this
is so exactly if the template itself defines the name, or finds it, or nothing has this name and the
template itself reports it or nothing is reported at all. -/
theorem dispatch_closed_iff (fs : FileSystem) (options : Options) (template : Text)
    (hruntime : options.flags.runtime = true) :
    ∃ code middle final,
      run fs options none template = some (code, final) ∧
      Compiles fs options none template code middle final ∧
      (∀ text, Handed final text ↔
        text = template.escape ∨ ∃ place, CompiledInto template code final place text) ∧
      (∀ name ∈ template.escape.dispatched, callTo name <:+: code) ∧
      ∀ place name, Emitted template code final place name →
        (PlainMargins options.flags options.fragments → callTo name <:+: place) ∧
        (Closed fs options template code final name ↔
          ¬ word <:+: name ∨
          Found fs (Context.start options none fs) template (preloaded middle.view) name ∨
          (¬ HasSource fs (Context.start options none fs) name ∧
            ¬ DefinedInline template code final name ∧
            (options.flags.skipMissing = true ∨ name ∈ template.escape.dispatched))) := by
  obtain ⟨code, middle, final, hrun, hcompiles⟩ := exists_compiles fs options template
  have h := hcompiles.done hruntime
  have hplaces := hcompiles.handed_iff hruntime
  have hhanded : ∀ place text, CompiledInto template code final place text → Handed final text :=
    fun place text hplaced => (hplaces text).mpr (.inr ⟨place, hplaced⟩)
  refine ⟨code, middle, final, hrun, hcompiles, hplaces,
    fun name hname => hcompiles.callTo_isInfix_code hruntime hname,
    fun place name hname => ⟨fun hmargins => hcompiles.callTo_isInfix hruntime hmargins hname, ?_⟩⟩
  by_cases hword : word <:+: name
  · constructor
    · intro hclosed
      exact .inr (found_or_missing_of_closed h hword hclosed)
    · rintro (hplain | hfound | ⟨hsource, hdefined, hskip | htold⟩)
      · exact absurd hword hplain
      · exact .inl (h.mem_table_of_found hfound)
      · exact .inr ⟨hsource, hdefined, .inl hskip⟩
      · exact closed_of_looked h (h.looked h.handed_template htold) fun _ => hdefined
  · constructor
    · intro _
      exact .inl hword
    · intro _
      exact closed_of_plain h hhanded hword hname

/-- A template refers to a partial, and the partial to one that has the keyword in its name. -/
def keywordOptions : Options :=
  { Options.standard with
    flags := ⟨false, true, false, false⟩
    partials := .ofList
      [("p".toList, "\x7b\x7b> function\x7d\x7d".toList), ("function".toList, "x".toList)] }

/-- The call in the unit of `p` names a registered partial that has no unit. -/
theorem keyword_call_without_unit :
    (compile (.emptyAt "/".toList) keywordOptions none "\x7b\x7b> p\x7d\x7d".toList).map
        (fun o => (o.table.entries, o.diagnostics)) =
      some ([("p".toList, ("'p' => function ($cx, $in, $sp) \x7breturn ".toList ++
          "''.LR::p($cx, 'function', $in, $sp.'').'';\x7d".toList))],
        [.missingPartial (Keyword.mask "function".toList)]) := by
  decide +kernel

/-- A partial refers to one with the keyword in its name, and in the body of a block to one that
there is not. -/
def calledOptions : Options :=
  { Options.standard with
    flags := ⟨false, true, false, false⟩
    partials := .ofList
      [("p".toList, "\x7b\x7b> function\x7d\x7d\x7b\x7b#> q\x7d\x7d\x7b\x7b> r\x7d\x7d\x7b\x7b/q\x7d\x7d".toList),
        ("q".toList, "y".toList), ("function".toList, "x".toList)] }

/-- In the unit of `p` the call of `q` is closed and so is the one of `r` in the body of the block, but
the one of `function` is not. -/
theorem dispatch_closed_keyword : calledOptions.flags.runtime = true ∧ ∃ code final unit,
    run (.emptyAt "/".toList) calledOptions none "\x7b\x7b> p\x7d\x7d".toList = some (code, final) ∧
    final.view.table.get? "p".toList = some unit ∧
    (callTo "q".toList <:+: unit ∧
      Closed (.emptyAt "/".toList) calledOptions "\x7b\x7b> p\x7d\x7d".toList code final "q".toList) ∧
    (callTo "r".toList <:+: unit ∧
      Closed (.emptyAt "/".toList) calledOptions "\x7b\x7b> p\x7d\x7d".toList code final "r".toList) ∧
    callTo "function".toList <:+: unit ∧
      ¬ Closed (.emptyAt "/".toList) calledOptions "\x7b\x7b> p\x7d\x7d".toList code final
        "function".toList := by
  obtain ⟨code, middle, final, hrun, -, -, -, hclosed⟩ :=
    dispatch_closed_iff (.emptyAt "/".toList) calledOptions "\x7b\x7b> p\x7d\x7d".toList rfl
  let source : Text := "\x7b\x7b> function\x7d\x7d\x7b\x7b#> q\x7d\x7d\x7b\x7b> r\x7d\x7d\x7b\x7b/q\x7d\x7d".toList
  have hstate : ((run (.emptyAt "/".toList) calledOptions none "\x7b\x7b> p\x7d\x7d".toList).map
      fun r => (r.2.view.cached.get? "p".toList, (r.2.view.table.get? "p".toList).isSome,
        decide ("function".toList ∈ r.2.view.table))) = some (some source, true, false) := by
    decide +kernel
  rw [hrun] at hstate
  obtain ⟨hsource, hentry⟩ := Prod.mk.inj (Option.some.inj hstate)
  obtain ⟨hentry, hfunction⟩ := Prod.mk.inj hentry
  obtain ⟨unit, hunit⟩ := Option.isSome_iff_exists.mp hentry
  have hmargins : PlainMargins calledOptions.flags calledOptions.fragments := by decide
  have hcall : ∀ {text : Text} (masked name : Text), Comprises source text → unmask masked = name →
      masked ∈ text.dispatched → Kept name →
        Emitted "\x7b\x7b> p\x7d\x7d".toList code final unit name := by
    rintro text masked - htext rfl hmem hkept
    exact .unit (.entry hsource hunit htext) hmem hkept
  have hbody : .block "q".toList "\x7b\x7b> r\x7d\x7d".toList true ∈ (mask source).nodes := by
    decide +kernel
  have hq := hcall "q".toList "q".toList (.own source) (by decide +kernel) (by decide +kernel)
    (by decide +kernel)
  have hr := hcall "r".toList "r".toList (.body hbody (.own _)) (by decide +kernel)
    (by decide +kernel) (by decide +kernel)
  have hword := hcall (mask "function".toList) "function".toList (.own source) (by decide +kernel)
    (by decide +kernel) (by decide +kernel)
  refine ⟨rfl, code, final, unit, hrun, hunit, ?_, ?_, (hclosed _ _ hword).1 hmargins, ?_⟩
  · exact ⟨(hclosed _ _ hq).1 hmargins, (hclosed _ _ hq).2.mpr (.inl (by decide))⟩
  · exact ⟨(hclosed _ _ hr).1 hmargins, (hclosed _ _ hr).2.mpr (.inl (by decide))⟩
  · rintro (htable | ⟨hnone, -⟩)
    · exact of_decide_eq_false hfunction htable
    · exact hnone (hasSource_of_mem_partials (by decide))

end Inlay.Handlebars
