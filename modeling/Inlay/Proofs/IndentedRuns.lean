import Inlay.Proofs.AlignedStates
import Inlay.Proofs.DispatchClosure
import Inlay.Proofs.Termination

/-!
# Compilations with and without indentation

For each run with indentation switched off there is one with indentation
switched on that does the same but for indentation. So switching it changes
no count, no diagnostic and no name of a unit. Where partials are embedded,
indentation is written into their sources, and a line may break inside of a
tag: the name of an inline partial, the name of a variable, or what a
diagnostic quotes then has the indentation in it.
-/

namespace Inlay.Handlebars

open Compilation

/-! ## Tasks and codes -/

/-- The tasks are the same but for indentation. Nodes start a line or go on with one. -/
inductive Task.Aligned (runtime : Bool) : (atStart : Bool) → Task → Task → Prop
  | text {source source' : Text} : source'.essence runtime true = source.essence runtime true →
      Aligned runtime true (.text source) (.text source')
  | nodes {atStart} {ns ns' : List Node} : Node.AlignedAll runtime atStart ns ns' →
      Aligned runtime atStart (.nodes ns) (.nodes ns')
  | node {atStart} {n n' : Node} : Node.Aligned runtime atStart n n' →
      Aligned runtime atStart (.node n) (.node n')
  | read {name : Text} : name.Exact runtime → Aligned runtime true (.read name) (.read name)
  | unit {name} : Aligned runtime true (.unit name) (.unit name)
  | apart {template} : runtime = true → Aligned runtime true (.apart template) (.apart template)
  | embed {name : Text} : runtime = false → name.Exact runtime →
      Aligned runtime true (.embed name) (.embed name)

/-- Indentation is off in the first view and on in the second one. -/
structure ViewsAligned (f : Fragments) (bound : Bool) (v v' : View) : Prop where
  plain : v.flags.noIndent = true
  indented : v'.flags.noIndent = false
  fragments : v.fragments = f
  fragments' : v'.fragments = f
  indentBound : v'.indentBound = bound

/-- The codes that two tasks have, with indentation switched off and on. They are put together
alike, node by node, from the codes of the same nodes: a literal is the same but for indentation at
the start of its lines, and at its own start if it starts a line of its source. `sources` are those
of the first compilation, which embeds them as they are, and `blocks` are the bodies around. Calls
in the second code pass their indentation, which starts with the bound one if there is one. -/
inductive CodeAlike (runtime : Bool) (f : Fragments) (sources : OrderedMap Text) :
    (bound : Bool) → (blocks blocks' : List Text) → (atStart : Bool) → Task → Task → Text → Text → Prop
  | text {bound bs bs' source source' code code'} :
      source'.essence runtime true = source.essence runtime true →
      CodeAlike runtime f sources bound bs bs' true (.nodes source.nodes) (.nodes source'.nodes)
        code code' →
      CodeAlike runtime f sources bound bs bs' true (.text source) (.text source') code code'
  | nil {bound bs bs' b} : CodeAlike runtime f sources bound bs bs' b (.nodes []) (.nodes []) [] []
  | cons {bound bs bs' b n n' ns ns' code code' rest rest'} :
      CodeAlike runtime f sources bound bs bs' b (.node n) (.node n') code code' →
      CodeAlike runtime f sources bound bs bs' n.takesLine (.nodes ns) (.nodes ns') rest rest' →
      CodeAlike runtime f sources bound bs bs' b (.nodes (n :: ns)) (.nodes (n' :: ns'))
        (code ++ rest) (code' ++ rest')
  | literal {bound bs bs' b text text'} : text'.essence runtime b = text.essence runtime b →
      CodeAlike runtime f sources bound bs bs' b (.node (.literal text)) (.node (.literal text'))
        text.quote text'.quote
  | variable {bound bs bs' b name name'} : name'.essence runtime false = name.essence runtime false →
      CodeAlike runtime f sources bound bs bs' b (.node (.variable name)) (.node (.variable name'))
        (f.splice (lookup name)) (f.splice (lookup name'))
  | named {bound bs bs' b v v' name indent indent'} : runtime = true → ViewsAligned f bound v v' →
      IndentsAligned runtime indent indent' →
      CodeAlike runtime f sources bound bs bs' b (.node (.reference (.named name) indent))
        (.node (.reference (.named name) indent'))
        (dispatch v (nameLiteral name) indent none) (dispatch v' (nameLiteral name) indent' none)
  | embeddedNamed {bound bs bs' b name indent indent' code code'} : runtime = false →
      CodeAlike runtime f sources bound bs bs' true (.embed name) (.embed name) code code' →
      CodeAlike runtime f sources bound bs bs' b (.node (.reference (.named name) indent))
        (.node (.reference (.named name) indent')) code code'
  | dynamic {bound bs bs' b v v' expr expr' indent indent'} : ViewsAligned f bound v v' →
      expr'.essence runtime false = expr.essence runtime false →
      IndentsAligned runtime indent indent' →
      CodeAlike runtime f sources bound bs bs' b (.node (.reference (.dynamic expr) indent))
        (.node (.reference (.dynamic expr') indent'))
        (dispatch v (lookup expr) indent none) (dispatch v' (lookup expr') indent' none)
  | enclosed {bound bs bs' b body body' indent indent' code code'} :
      CodeAlike runtime f sources bound bs bs' true (.text (Text.indentLines (indent.getD []) body))
        (.text (Text.indentLines (indent'.getD []) body')) code code' →
      CodeAlike runtime f sources bound (body :: bs) (body' :: bs') b
        (.node (.reference .block indent)) (.node (.reference .block indent')) code code'
  | enclosedCall {bound b indent indent'} : runtime = true →
      CodeAlike runtime f sources bound [] [] b (.node (.reference .block indent))
        (.node (.reference .block indent'))
        (f.splice "LR::pb($cx, $in)".toList) (f.splice "LR::pb($cx, $in)".toList)
  | notEnclosed {bound b indent indent'} : runtime = false →
      CodeAlike runtime f sources bound [] [] b (.node (.reference .block indent))
        (.node (.reference .block indent')) [] []
  | block {bound bs bs' b v v' name body closed unit unit'} : runtime = true →
      ViewsAligned f bound v v' →
      CodeAlike runtime f sources bound bs bs' true (.apart body) (.apart body) unit unit' →
      CodeAlike runtime f sources bound bs bs' b (.node (.block name body closed))
        (.node (.block name body closed))
        (dispatch v (nameLiteral name) none (some unit)) (dispatch v' (nameLiteral name) none (some unit'))
  | embeddedBlock {bound bs bs' b name body body' closed code code'} : runtime = false →
      CodeAlike runtime f sources bound (body :: bs) (body' :: bs') true (.embed name) (.embed name)
        code code' →
      CodeAlike runtime f sources bound bs bs' b (.node (.block name body closed))
        (.node (.block name body' closed)) code code'
  | inlinePartial {bound bs bs' b name name' body body' closed} :
      CodeAlike runtime f sources bound bs bs' b (.node (.inlinePartial name body closed))
        (.node (.inlinePartial name' body' closed)) [] []
  | strayClose {bound bs bs' b name name'} :
      CodeAlike runtime f sources bound bs bs' b (.node (.strayClose name)) (.node (.strayClose name'))
        [] []
  | read {bound bs bs' name} :
      CodeAlike runtime f sources bound bs bs' true (.read name) (.read name) [] []
  | unit {bound bs bs' name} :
      CodeAlike runtime f sources bound bs bs' true (.unit name) (.unit name) [] []
  | apart {bound bs bs' v v' template code code'} : ViewsAligned f bound v v' →
      CodeAlike runtime f sources true [] [] true (.text (Keyword.mask template))
        (.text (Keyword.mask template)) code code' →
      CodeAlike runtime f sources bound bs bs' true (.apart template) (.apart template)
        (callable v code) (callable v' code')
  | embedded {bound bs bs' name source source' code code'} : sources.get? name = some source →
      CodeAlike runtime f sources bound bs bs' true (.text source) (.text source') code code' →
      CodeAlike runtime f sources bound bs bs' true (.embed name) (.embed name) code code'
  | notEmbedded {bound bs bs' name} :
      CodeAlike runtime f sources bound bs bs' true (.embed name) (.embed name) [] []

theorem CodeAlike.mono {runtime : Bool} {f : Fragments} {sources others : OrderedMap Text}
    {bound atStart : Bool} {blocks blocks' : List Text} {task task' : Task} {code code' : Text}
    (h : CodeAlike runtime f sources bound blocks blocks' atStart task task' code code')
    (hbelow : sources.Below others) :
    CodeAlike runtime f others bound blocks blocks' atStart task task' code code' := by
  induction h with
  | text hsource _ ih => exact .text hsource ih
  | nil => exact .nil
  | cons _ _ ih₁ ih₂ => exact .cons ih₁ ih₂
  | literal htext => exact .literal htext
  | «variable» hname => exact .variable hname
  | named hruntime hviews hindent => exact .named hruntime hviews hindent
  | embeddedNamed hembeds _ ih => exact .embeddedNamed hembeds ih
  | dynamic hviews hexpr hindent => exact .dynamic hviews hexpr hindent
  | enclosed _ ih => exact .enclosed ih
  | enclosedCall hruntime => exact .enclosedCall hruntime
  | notEnclosed hembeds => exact .notEnclosed hembeds
  | block hruntime hviews _ ih => exact .block hruntime hviews ih
  | embeddedBlock hembeds _ ih => exact .embeddedBlock hembeds ih
  | inlinePartial => exact .inlinePartial
  | strayClose => exact .strayClose
  | read => exact .read
  | unit => exact .unit
  | apart hviews _ ih => exact .apart hviews ih
  | embedded hsource _ ih => exact .embedded (hbelow _ _ hsource) ih
  | notEmbedded => exact .notEmbedded

/-! ## Where partials are embedded -/

variable {fs : FileSystem} {s s' t : Compilation} {name raw : Text}

theorem cache_of_mem (h : name ∈ s.view.cached) (raw : Text) : s.cache name name raw = s := by
  have hcached : s.view.cached.insertIfNew name raw.escape = s.view.cached :=
    OrderedMap.insertIfNew_of_mem h _
  unfold Compilation.cache
  simp only [if_true]
  exact congrArg (fun m => s.mapView fun v => { v with cached := m }) hcached

/-- The state after the source of an inline definition is cached, if there is none. -/
def inlineKept (name source : Text) (s : Compilation) : Compilation :=
  s.mapView fun v => { v with cached := v.cached.insertIfNew name source }

theorem inlineKept_of_mem (h : name ∈ s.view.cached) (source : Text) : inlineKept name source s = s := by
  have hcached : s.view.cached.insertIfNew name source = s.view.cached :=
    OrderedMap.insertIfNew_of_mem h _
  exact congrArg (fun m => s.mapView fun v => { v with cached := m }) hcached

theorem inlineCached_eq (h : name ∉ s.view.cached) (source : Text) :
    inlineCached name source s = inlineKept name source s := by
  have hcached : s.view.cached.insert name source = s.view.cached.insertIfNew name source := by
    rw [OrderedMap.insert, if_neg h]
  exact congrArg (fun m => s.mapView fun v => { v with cached := m }) hcached

/-- Reading a partial that has a source counts the reference, and caches the source once. -/
theorem runs_read_embedding (hembeds : s.view.flags.runtime = false) (hs : s.HookFree)
    (hraw : s.context.rawSource? fs name = some raw) :
    Runs fs (.read name) s [] ((s.counted Counter.references).cache name name raw) := by
  have hcounted : (s.counted Counter.references).HookFree := ⟨hs.hook, hs.aliases⟩
  by_cases hmem : name ∈ s.view.cached
  · have hread : Runs fs (.read name) s [] (s.counted Counter.references) :=
      .readKnown (by rwa [hs.resolvedName_eq])
    have hmem : name ∈ (s.counted Counter.references).view.cached := hmem
    rwa [cache_of_mem hmem]
  · refine .readFound (u := []) (by rwa [hs.resolvedName_eq]) hraw (hcounted.preprocess_eq raw name) ?_
    rw [hcounted.preprocessed_eq]
    exact .unitIdle (.inl hembeds)

/-- An inline definition is noted, and its source is cached once. -/
theorem runs_inline_embedding (hembeds : s.view.flags.runtime = false) (name body : Text) (closed : Bool) :
    Runs fs (.node (.inlinePartial name body closed)) s []
      (inlineKept name (Keyword.unmask body)
        (inlineNoted name (Keyword.unmask body) (closeChecked "inline".toList closed s))) := by
  have hcached := cached_inlineNoted name (Keyword.unmask body) "inline".toList closed s
  by_cases hmem : name ∈ s.view.cached
  · rw [inlineKept_of_mem (hcached ▸ hmem)]
    exact .inlineKnown hmem
  · rw [← inlineCached_eq (hcached ▸ hmem)]
    refine .inlineNew hmem (.unitIdle (.inl ?_))
    cases closed <;> exact hembeds

/-! ## Runs -/

variable {runtime bound : Bool} {f : Fragments}

theorem essence_indentLines {indent indent' : Option Text} (hindent : IndentsAligned runtime indent indent')
    {body body' : Text} (hbody : body'.essence runtime true = body.essence runtime true) :
    (Text.indentLines (indent'.getD []) body').essence runtime true =
      (Text.indentLines (indent.getD []) body).essence runtime true := by
  cases runtime with
  | true =>
      obtain rfl : body' = body := hbody
      rw [hindent.same rfl]
  | false =>
      show Text.unindent true _ = Text.unindent true _
      rw [Text.unindent_indentLines hindent.blank, Text.unindent_indentLines hindent.blank']
      exact hbody

namespace Aligned

variable (h : Aligned runtime f bound s s')

include h

theorem views : ViewsAligned f bound s.view s'.view :=
  ⟨h.plain, h.noIndent_eq, h.fragments, h.fragments', h.indentBound⟩

theorem runtime_eq : s'.view.flags.runtime = s.view.flags.runtime :=
  h.mode'.trans h.mode.symm

theorem mem_cached_iff (hname : name.Exact runtime) :
    s'.view.resolvedName name ∈ s'.view.cached ↔ s.view.resolvedName name ∈ s.view.cached := by
  rw [h.hookFree.resolvedName_eq, h.hookFree'.resolvedName_eq]
  exact h.cached.mem_iff hname

theorem inlineKept {name' source source' : Text}
    (hname : name'.essence runtime false = name.essence runtime false)
    (hsource : source'.essence runtime true = source.essence runtime true) :
    Aligned runtime f bound (inlineKept name source s) (inlineKept name' source' s') :=
  { h with
    hookFree := ⟨h.hookFree.hook, h.hookFree.aliases⟩
    hookFree' := ⟨h.hookFree'.hook, h.hookFree'.aliases⟩
    cached := h.cached.insertIfNew hname hsource }

theorem inlineCached (hname : name ∉ s.view.cached) (hname' : name ∉ s'.view.cached) (source : Text) :
    Aligned runtime f bound (inlineCached name source s) (inlineCached name source s') := by
  rw [inlineCached_eq hname, inlineCached_eq hname']
  exact h.inlineKept rfl rfl

/-- Without indentation a source is embedded as it is. -/
theorem embedded_eq (source : Text) : embedded s.view source = source := by
  unfold embedded
  rw [h.plain]
  rfl

/-- Indentation is written into a source that is embedded, and nothing else. -/
theorem essence_embedded (hembeds : runtime = false) {source source' : Text}
    (hsource : source'.essence runtime true = source.essence runtime true) :
    (embedded s'.view source').essence runtime true = (embedded s.view source).essence runtime true := by
  subst hembeds
  unfold embedded
  rw [h.plain, h.noIndent_eq]
  show Text.unindent true (Text.indentLines _ _) = Text.unindent true source
  rw [Text.unindent_indentLines h.lineIndent]
  exact hsource

theorem exists_source (hname : name.Exact runtime) {source : Text}
    (hsource : s.view.cached.get? name = some source) :
    ∃ source', s'.view.cached.get? name = some source' ∧
      source'.essence runtime true = source.essence runtime true := by
  have hvalue := h.cached.values name hname
  rw [hsource, Option.map_some] at hvalue
  exact Option.map_eq_some_iff.mp hvalue

theorem get?_eq_none (hname : name.Exact runtime) (hnone : s.view.cached.get? name = none) :
    s'.view.cached.get? name = none := by
  rw [OrderedMap.get?_eq_none_iff] at hnone ⊢
  exact (h.cached.mem_iff hname).not.mpr hnone

end Aligned

/-- Where partials are embedded, an inline definition does the same but for indentation. -/
theorem aligned_inline_embedding (hs : Aligned false f bound s s') {name name' body body' code : Text}
    {closed : Bool} (h : Runs fs (.node (.inlinePartial name body closed)) s code t)
    (hname : name'.essence false false = name.essence false false)
    (hbody : body'.essence false true = body.essence false true) :
    ∃ t', Runs fs (.node (.inlinePartial name' body' closed)) s' [] t' ∧ Aligned false f bound t t' ∧
      code = [] := by
  obtain ⟨rfl, rfl⟩ := (runs_inline_embedding hs.mode name body closed).unique h
  refine ⟨_, runs_inline_embedding hs.mode' name' body' closed, ?_, rfl⟩
  exact ((hs.closeChecked _ closed).inlineNoted ..).inlineKept hname (Text.essence_unmask hbody)

/-- For each run with indentation off there is one with indentation on that does the same but for
indentation. -/
theorem Runs.aligned {task task' : Task} {code : Text} {atStart : Bool} (h : Runs fs task s code t)
    (htask : task.Aligned runtime atStart task') (hs : Aligned runtime f bound s s') :
    ∃ code' t', Runs fs task' s' code' t' ∧ Aligned runtime f bound t t' ∧
      CodeAlike runtime f t.view.cached bound s.view.blocks s'.view.blocks atStart task task'
        code code' := by
  -- the other run is put together from those of the tasks that this one starts
  induction h generalizing task' s' bound atStart with
  | text _ ih =>
      cases htask with
      | text hsource =>
          obtain ⟨code', t', hrun, ht, hcode⟩ := ih (.nodes (Node.alignedAll_nodes hsource)) (hs.emit _ _)
          exact ⟨code', t', .text hrun, ht, .text hsource hcode⟩
  | nil =>
      cases htask with
      | nodes hnodes =>
          cases hnodes with
          | nil => exact ⟨[], s', .nil, hs, .nil⟩
  | cons h₁ h₂ ih₁ ih₂ =>
      cases htask with
      | nodes hnodes =>
          cases hnodes with
          | cons hn hns =>
              obtain ⟨a', s₁', hrun₁, hs₁, ha⟩ := ih₁ (.node hn) hs
              obtain ⟨b', t', hrun₂, ht, hb⟩ := ih₂ (.nodes hns) hs₁
              rw [h₁.blocks_eq, hrun₁.blocks_eq] at hb
              exact ⟨a' ++ b', t', .cons hrun₁ hrun₂, ht, .cons (ha.mono h₂.grows.cached) hb⟩
  | literal =>
      cases htask with
      | node hn =>
          cases hn with
          | literal htext => exact ⟨_, s', .literal, hs, .literal htext⟩
  | «variable» =>
      cases htask with
      | node hn =>
          cases hn with
          | «variable» hname =>
              refine ⟨_, s', .variable, hs, ?_⟩
              rw [hs.fragments, hs.fragments']
              exact .variable hname
  | @dispatched name indent s u s₁ _ hruntime ih =>
      cases htask with
      | node hn =>
          cases hn with
          | named hname hindent =>
              obtain ⟨u', s₁', hread, hs₁, -⟩ := ih (.read hname) (hs.atIndent _ hindent.blank')
              refine ⟨_, _, .dispatched hread (hs₁.runtime_eq.trans hruntime),
                hs₁.atIndent _ hs.lineIndent, ?_⟩
              rw [hs₁.hookFree.resolvedName_eq, hs₁.hookFree'.resolvedName_eq]
              exact .named (hs₁.mode.symm.trans hruntime) hs₁.views hindent
  | @embedded name indent s u s₁ code t h₁ hembeds _ ih₁ ih₂ =>
      cases htask with
      | node hn =>
          cases hn with
          | named hname hindent =>
              obtain ⟨u', s₁', hread, hs₁, -⟩ := ih₁ (.read hname) (hs.atIndent _ hindent.blank')
              rw [hs₁.hookFree.resolvedName_eq, hs₁.hookFree.resolvedName_eq] at ih₂
              have hmode : runtime = false := hs₁.mode.symm.trans hembeds
              obtain ⟨code', t', hembed, ht, hcode⟩ := ih₂ (.embed hmode hname) hs₁
              rw [h₁.blocks_eq, hread.blocks_eq] at hcode
              refine ⟨code', _, .embedded hread (hs₁.runtime_eq.trans hembeds) ?_,
                ht.atIndent _ hs.lineIndent, .embeddedNamed hmode hcode⟩
              rw [hs₁.hookFree'.resolvedName_eq, hs₁.hookFree'.resolvedName_eq]
              exact hembed
  | @dynamic expr indent s =>
      cases htask with
      | node hn =>
          cases hn with
          | dynamic hexpr hindent =>
              have hcounted := (hs.atIndent (indent.getD []) hindent.blank').counted Counter.dynamicReferences
              exact ⟨_, _, .dynamic, (hcounted.dynamicNoted hexpr).atIndent _ hs.lineIndent,
                .dynamic hcounted.views hexpr hindent⟩
  | @enclosed body outer indent s code t hblocks _ ih =>
      cases htask with
      | node hn =>
          cases hn with
          | enclosing hindent =>
              obtain ⟨body', outer', hbody, houter, hblocks'⟩ :=
                List.forall₂_cons_left_iff.mp (hblocks ▸ hs.blocks)
              obtain ⟨code', t', hrun, ht, hcode⟩ := ih (.text (essence_indentLines hindent hbody))
                ((hs.atIndent _ hindent.blank').inBlocks houter)
              refine ⟨code', _, .enclosed hblocks' hrun,
                (ht.inBlocks (.cons hbody ht.blocks)).atIndent _ hs.lineIndent, ?_⟩
              rw [hblocks, hblocks']
              exact .enclosed hcode
  | @enclosedCall indent s hblocks hruntime =>
      cases htask with
      | node hn =>
          cases hn with
          | enclosing hindent =>
              have hblocks' := List.forall₂_nil_left_iff.mp (hblocks ▸ hs.blocks)
              refine ⟨_, s', .enclosedCall hblocks' (hs.runtime_eq.trans hruntime), hs, ?_⟩
              rw [hs.fragments, hs.fragments', hblocks, hblocks']
              exact .enclosedCall (hs.mode.symm.trans hruntime)
  | @notEnclosed indent s hblocks hembeds =>
      cases htask with
      | node hn =>
          cases hn with
          | enclosing hindent =>
              have hblocks' := List.forall₂_nil_left_iff.mp (hblocks ▸ hs.blocks)
              refine ⟨[], _, .notEnclosed hblocks' (hs.runtime_eq.trans hembeds), hs.report rfl, ?_⟩
              rw [hblocks, hblocks']
              exact .notEnclosed (hs.mode.symm.trans hembeds)
  | @blockDispatched name body closed s u s₁ unit t h₁ hruntime _ ih₁ ih₂ =>
      cases htask with
      | node hn =>
          cases hn with
          | @block _ _ body' _ hname hbody =>
              have hclosed := hs.closeChecked name closed
              obtain ⟨u', s₁', hread, hs₁, -⟩ := ih₁ (.read hname)
                (hclosed.atIndent [] (List.forall_mem_nil _))
              obtain rfl : true = runtime := hruntime.symm.trans hs₁.mode
              obtain rfl : body' = body := hbody
              obtain ⟨unit', t', hunit, ht, hcode⟩ := ih₂ (.apart rfl) hs₁
              refine ⟨_, _, .blockDispatched hread hs₁.mode' hunit, ht.atIndent _ hs.lineIndent, ?_⟩
              rw [hs₁.hookFree.resolvedName_eq, hs₁.hookFree'.resolvedName_eq]
              rw [h₁.blocks_eq, hread.blocks_eq] at hcode
              cases closed <;> exact .block rfl ht.views hcode
  | @blockEmbedded name body closed s u s₁ code t h₁ hembeds _ ih₁ ih₂ =>
      cases htask with
      | node hn =>
          cases hn with
          | @block _ _ body' _ hname hbody =>
              obtain ⟨u', s₁', hread, hs₁, -⟩ := ih₁ (.read hname)
                ((hs.closeChecked name closed).atIndent [] (List.forall_mem_nil _))
              rw [hs₁.hookFree.resolvedName_eq, hs₁.hookFree.resolvedName_eq] at ih₂
              have hmode : runtime = false := hs₁.mode.symm.trans hembeds
              obtain ⟨code', t', hembed, ht, hcode⟩ := ih₂ (.embed hmode hname)
                (hs₁.inBlocks (.cons hbody hs₁.blocks))
              have houter := List.forall₂_drop 1 ht.blocks
              rw [List.drop_one, List.drop_one] at houter
              refine ⟨code', _, .blockEmbedded hread (hs₁.runtime_eq.trans hembeds) ?_,
                (ht.inBlocks houter).atIndent _ hs.lineIndent, ?_⟩
              · rw [hs₁.hookFree'.resolvedName_eq, hs₁.hookFree'.resolvedName_eq]
                exact hembed
              · have hinside : CodeAlike runtime f t.view.cached bound (body :: s₁.view.blocks)
                    (body' :: s₁'.view.blocks) true (.embed name) (.embed name) code code' := hcode
                rw [h₁.blocks_eq, hread.blocks_eq] at hinside
                cases closed <;> exact .embeddedBlock hmode hinside
  | @inlineKnown name body closed s hknown =>
      cases htask with
      | node hn =>
          cases hn with
          | @inlinePartial _ name' _ body' _ hname hbody =>
              cases runtime with
              -- the names may differ here, and the other one need not be known
              | false =>
                  obtain ⟨t', hrun, ht, -⟩ :=
                    aligned_inline_embedding hs (.inlineKnown hknown) hname hbody
                  exact ⟨[], t', hrun, ht, .inlinePartial⟩
              | true =>
                  obtain rfl : name' = name := hname
                  obtain rfl : body' = body := hbody
                  exact ⟨[], _, .inlineKnown ((hs.cached.mem_iff (.inl rfl)).mpr hknown),
                    (hs.closeChecked _ closed).inlineNoted .., .inlinePartial⟩
  | @inlineNew name body closed s u t hnew hunit ih =>
      cases htask with
      | node hn =>
          cases hn with
          | @inlinePartial _ name' _ body' _ hname hbody =>
              cases runtime with
              | false =>
                  obtain ⟨t', hrun, ht, -⟩ :=
                    aligned_inline_embedding hs (.inlineNew hnew hunit) hname hbody
                  exact ⟨[], t', hrun, ht, .inlinePartial⟩
              | true =>
                  obtain rfl : name' = name := hname
                  obtain rfl : body' = body := hbody
                  have hnew' : name' ∉ s'.view.cached := (hs.cached.mem_iff (.inl rfl)).not.mpr hnew
                  have hnoted := (hs.closeChecked "inline".toList closed).inlineNoted name' name'
                    (Keyword.unmask body') (Keyword.unmask body')
                  have hcached := hnoted.inlineCached (by rwa [cached_inlineNoted])
                    (by rwa [cached_inlineNoted]) (Keyword.unmask body')
                  obtain ⟨u', t', hunit', ht, -⟩ := ih .unit hcached
                  exact ⟨[], t', .inlineNew hnew' hunit', ht, .inlinePartial⟩
  | strayClose =>
      cases htask with
      | node hn =>
          cases hn with
          | strayClose hname =>
              exact ⟨[], _, .strayClose, hs.report (congrArg Diagnostic.unexpectedClose hname),
                .strayClose⟩
  | @readKnown name s hknown =>
      cases htask with
      | read hname =>
          exact ⟨[], _, .readKnown ((hs.mem_cached_iff hname).mpr hknown), hs.counted _, .read⟩
  | @readMissing name s hnew hnone =>
      cases htask with
      | read hname =>
          exact ⟨[], _, .readMissing ((hs.mem_cached_iff hname).not.mpr hnew)
            ((hs.rawSource?_eq fs name).trans hnone), (hs.counted _).missed name, .read⟩
  | @readFound name s raw source target u t hnew hraw hparts _ ih =>
      cases htask with
      | read hname =>
          have hcounted := hs.counted Counter.references
          obtain ⟨rfl, rfl⟩ := hcounted.hookFree.parts_eq hparts
          rw [hcounted.hookFree.preprocessed_eq] at ih
          obtain ⟨u', t', hunit, ht, -⟩ := ih .unit (hcounted.cache name raw)
          refine ⟨[], t', .readFound (u := u') ((hs.mem_cached_iff hname).not.mpr hnew)
            ((hs.rawSource?_eq fs name).trans hraw) (hcounted.hookFree'.preprocess_eq raw name) ?_,
            ht, .read⟩
          rw [hcounted.hookFree'.preprocessed_eq]
          exact hunit
  | @unitIdle name s hidle =>
      cases htask with
      | unit =>
          refine ⟨[], s', .unitIdle ?_, hs, .unit⟩
          cases runtime with
          | false => exact .inl hs.mode'
          | true =>
              rw [hs.runtime_eq, hs.mem_table_iff]
              exact hidle.imp_right (Or.imp_right (hs.get?_eq_none (.inl rfl)))
  | @unitNew name s source unit t hruntime hnew hsource _ ih =>
      cases htask with
      | unit =>
          obtain rfl : true = runtime := hruntime.symm.trans hs.mode
          obtain ⟨source', hsource', rfl⟩ := hs.exists_source (.inl rfl) hsource
          obtain ⟨unit', t', hunit, ht, -⟩ := ih (.apart rfl) hs
          exact ⟨[], _, .unitNew hs.mode' ((hs.mem_table_iff name).not.mpr hnew) hsource' hunit,
            ht.enroll name unit unit', .unit⟩
  | @apart template s code t hrun ih =>
      cases htask with
      | apart hmode =>
          obtain ⟨code', t', hrun', ht, hcode⟩ := ih (.text rfl) hs.isolated
          have hcached : (s.merge t).view.cached = t.view.cached :=
            OrderedMap.absorb_of_prefix hrun.works.appends.cached
          rw [hcached]
          exact ⟨_, _, .apart hrun', hs.merge ht hrun.works.appends hrun'.works.appends,
            .apart hs.views hcode⟩
  | @embedMissing name s hnone =>
      cases htask with
      | embed hmode hname =>
          exact ⟨[], _, .embedMissing (hs.get?_eq_none hname hnone), hs.missedOnce name, .notEmbedded⟩
  | embedOpen _ hruntime =>
      cases htask with
      | embed hmode => simp [hs.mode, hmode] at hruntime
  | @embedGuarded name s source code t hsource hembeds hnodup hinside ih =>
      cases htask with
      | embed hmode hname =>
          obtain ⟨source', hsource', hessence⟩ := hs.exists_source hname hsource
          obtain ⟨code', t', hrun, ht, hcode⟩ := ih
            (.text (hs.essence_embedded hmode hessence)) (hs.enter name)
          rw [hs.embedded_eq source] at hcode
          exact ⟨code', _, .embedGuarded hsource' (hs.runtime_eq.trans hembeds) (hs.chain ▸ hnodup) hrun,
            ht.leave, .embedded (hinside.grows.cached _ _ hsource) hcode⟩
  | @embedRepeated name s source hsource hembeds hrepeated =>
      cases htask with
      | embed hmode hname =>
          obtain ⟨source', hsource', -⟩ := hs.exists_source hname hsource
          refine ⟨[], _, .embedRepeated hsource' (hs.runtime_eq.trans hembeds) (hs.chain ▸ hrepeated), ?_,
            .notEmbedded⟩
          exact hs.report (by rw [hs.chain])

/-- Partials that have sources are read alike, whatever their names are. -/
theorem ReadsAll.aligned {names : List Text} (h : ReadsAll fs names s t)
    (hs : Aligned runtime f bound s s') (hnames : ∀ name ∈ names, HasSource fs s.context name) :
    ∃ t', ReadsAll fs names s' t' ∧ Aligned runtime f bound t t' := by
  induction h generalizing s' with
  | nil => exact ⟨s', .nil, hs⟩
  | @cons name names s u s₁ t hread _ ih =>
      obtain ⟨hname, hnames⟩ := List.forall_mem_cons.mp hnames
      have hrest : ∀ other ∈ names, HasSource fs s₁.context other := by
        intro other hother
        unfold HasSource
        rw [hread.rawSource?_eq]
        exact hnames other hother
      suffices hfirst : ∃ u' s₁', Runs fs (.read name) s' u' s₁' ∧ Aligned runtime f bound s₁ s₁' by
        obtain ⟨u', s₁', hread', hs₁⟩ := hfirst
        obtain ⟨t', hreads, ht⟩ := ih hs₁ hrest
        exact ⟨t', .cons hread' hreads, ht⟩
      cases runtime with
      | true =>
          obtain ⟨u', s₁', hread', hs₁, -⟩ := hread.aligned (.read (.inl rfl)) hs
          exact ⟨u', s₁', hread', hs₁⟩
      | false =>
          -- a registered name may have newlines, and then be cached in one run already
          obtain ⟨raw, hraw⟩ := Option.ne_none_iff_exists'.mp hname
          obtain ⟨rfl, rfl⟩ := (runs_read_embedding hs.mode hs.hookFree hraw).unique hread
          exact ⟨[], _, runs_read_embedding hs.mode' hs.hookFree' ((hs.rawSource?_eq fs name).trans hraw),
            (hs.counted _).cache name raw⟩

/-! ## Whole compilations -/

end Inlay.Handlebars

namespace Inlay

/-- The options with indentation switched on or off. -/
def Options.indenting (options : Options) (on : Bool) : Options :=
  { options with flags := { options.flags with noIndent := !on } }

namespace Handlebars

open Compilation

theorem aligned_initial (fs : FileSystem) (options : Options) :
    Aligned options.flags.runtime options.fragments false (initial (options.indenting false) none fs)
      (initial (options.indenting true) none fs) where
  mode := rfl
  plain := rfl
  flags := rfl
  fragments := rfl
  fragments' := rfl
  indentBound := rfl
  hookFree := ⟨rfl, rfl⟩
  hookFree' := ⟨rfl, rfl⟩
  directories := rfl
  endings := rfl
  partials := rfl
  counters := rfl
  chain := rfl
  cached := .empty
  table := rfl
  diagnostics := rfl
  blocks := .nil
  lineIndent := List.forall_mem_nil _

theorem Compiles.aligned {fs : FileSystem} {options : Options} {template code : Text}
    {middle final : Compilation} (h : Compiles fs (options.indenting false) none template code middle final) :
    ∃ code' middle' final', Compiles fs (options.indenting true) none template code' middle' final' ∧
      Aligned options.flags.runtime options.fragments false final final' ∧
      CodeAlike options.flags.runtime options.fragments final.view.cached false [] [] true
        (.text template.escape) (.text template.escape) code code' := by
  obtain ⟨code', middle', hrun, hmiddle, hcode⟩ := h.runs.aligned (.text rfl) (aligned_initial fs options)
  obtain ⟨final', hreads, hfinal⟩ := h.reads.aligned hmiddle fun name hname =>
    hasSource_of_mem_partials (mem_partials_of_mem_preloaded hname)
  rw [← hmiddle.preloaded_eq] at hreads
  exact ⟨code', middle', final', ⟨hrun, hreads⟩, hfinal, hcode.mono h.reads.grows.cached⟩

/-- Indentation does not change what is counted or dispatched to. Where partials are dispatched, it
changes no diagnostic and no source, and codes differ in the indentation of calls and units only.
Where partials are embedded, it goes into sources before they are scanned: spaces and tabs at the
start of lines come in, in literal text and bodies, and where a line breaks inside of a tag also in
the names of variables and inline partials and in what diagnostics quote. All else is the same. -/
theorem outcome_eq_but_indentation (fs : FileSystem) (options : Options) (template : Text) :
    ∃ plain indented,
      compile fs (options.indenting false) none template = some plain ∧
      compile fs (options.indenting true) none template = some indented ∧
      indented.counters = plain.counters ∧ indented.table.keys = plain.table.keys ∧
      CodeAlike options.flags.runtime options.fragments plain.cached false [] [] true
        (.text template.escape) (.text template.escape) plain.code indented.code ∧
      (options.flags.runtime = true →
        indented.diagnostics = plain.diagnostics ∧ indented.cached = plain.cached) ∧
      (options.flags.runtime = false →
        indented.diagnostics.map (Diagnostic.essence false) =
          plain.diagnostics.map (Diagnostic.essence false) ∧
        indented.cached.keys.filter (fun name => '\n' ∉ name) =
          plain.cached.keys.filter (fun name => '\n' ∉ name) ∧
        (∀ name, '\n' ∉ name → (indented.cached.get? name).map (Text.unindent true) =
          (plain.cached.get? name).map (Text.unindent true)) ∧
        ∀ name, name ∈ indented.cached.keys.map (Text.unindent false) ↔
          name ∈ plain.cached.keys.map (Text.unindent false)) := by
  obtain ⟨code, middle, final, hrun, h⟩ := exists_compiles fs (options.indenting false) template
  obtain ⟨code', middle', final', h', hfinal, hcode⟩ := h.aligned
  obtain ⟨code'', middle'', final'', hrun', h''⟩ := exists_compiles fs (options.indenting true) template
  obtain ⟨rfl, rfl⟩ := h'.unique h''
  refine ⟨Outcome.ofRun (code, final), Outcome.ofRun (code'', final''), ?_, ?_, hfinal.counters,
    hfinal.table, hcode, fun hruntime => ?_, fun hembeds => ?_⟩
  · unfold compile
    rw [hrun]
    rfl
  · unfold compile
    rw [hrun']
    rfl
  · rw [hruntime] at hfinal
    refine ⟨?_, hfinal.cached.eq⟩
    have hdiagnostics := hfinal.diagnostics
    rwa [Diagnostic.map_essence_true, Diagnostic.map_essence_true] at hdiagnostics
  · rw [hembeds] at hfinal
    refine ⟨hfinal.diagnostics, ?_, fun name hname => hfinal.cached.values name (.inr hname),
      hfinal.cached.names⟩
    have hexact : (fun name : Text => decide (name.Exact false)) = fun name => decide ('\n' ∉ name) := by
      funext name
      simp [Text.Exact]
    have hkeys := hfinal.cached.keys
    rwa [hexact] at hkeys

/-- A partial with lines that break inside of tags. -/
def brokenTags : Options :=
  { Options.standard with
    partials := .ofList [("p".toList, "\x7b\x7b#*inline 'a\nb'\x7d\x7dc\nd\x7b\x7b/inline\x7d\x7d\x7b\x7be\nf\x7d\x7d\x7b\x7b/g\nh\x7d\x7d".toList)] }

/-- Indentation of the tag that embeds the partial comes into the name and the body of an inline
partial, the name of a variable and a diagnostic. -/
theorem indentation_reaches_names :
    (compile (.emptyAt ['/']) (brokenTags.indenting false) none "  \x7b\x7b> p\x7d\x7d\n".toList).map
        (fun o => (o.code, o.cached.entries.tail, o.diagnostics)) =
      some ("'.$in['e\nf'].'".toList, [("a\nb".toList, "c\nd".toList)],
        [.unexpectedClose "g\nh".toList]) ∧
    (compile (.emptyAt ['/']) (brokenTags.indenting true) none "  \x7b\x7b> p\x7d\x7d\n".toList).map
        (fun o => (o.code, o.cached.entries.tail, o.diagnostics)) =
      some ("  '.$in['e\n  f'].'".toList, [("a\n  b".toList, "c\n  d".toList)],
        [.unexpectedClose "g\n  h".toList]) := by
  constructor <;> decide +kernel

end Handlebars

end Inlay
