import Inlay.Proofs.Equations

/-!
# Runs of the Handlebars host

Everything that a compilation with the Handlebars host can do, as one
relation between a task, the state it starts in, its code and the state it
ends in. There is one rule for each way a task can go. A property of all
compilations is proved by induction on the run, one case for each rule, and
does not mention how deep calls may nest.
-/

namespace Inlay.Handlebars

/-- What a compilation is at. Reading a partial and making a unit are tasks
of their own, a unit is compiled apart, and a name to embed is resolved. -/
inductive Task where
  | text (source : Text)
  | nodes (ns : List Node)
  | node (n : Node)
  | read (name : Text)
  | unit (name : Text)
  | apart (template : Text)
  | embed (name : Text)

/-- The run of a task. Tasks that yield no code have the empty text. -/
inductive Runs (fs : FileSystem) : Task → Compilation → Text → Compilation → Prop
  | text {source s code t} :
      Runs fs (.nodes source.nodes) (s.emit (.compile s.view source)) code t →
      Runs fs (.text source) s code t
  | nil {s} : Runs fs (.nodes []) s [] s
  | cons {n ns s a s₁ b t} :
      Runs fs (.node n) s a s₁ → Runs fs (.nodes ns) s₁ b t →
      Runs fs (.nodes (n :: ns)) s (a ++ b) t
  | literal {text s} : Runs fs (.node (.literal text)) s text.quote s
  | variable {name s} :
      Runs fs (.node (.variable name)) s (s.view.fragments.splice (lookup name)) s
  | dispatched {name indent s u s₁} :
      Runs fs (.read name) (atIndent (indent.getD []) s) u s₁ → s₁.view.flags.runtime = true →
      Runs fs (.node (.reference (.named name) indent)) s
        (dispatch s₁.view (nameLiteral (s₁.view.resolvedName name)) indent none)
        (atIndent s.view.lineIndent s₁)
  | embedded {name indent s u s₁ code t} :
      Runs fs (.read name) (atIndent (indent.getD []) s) u s₁ → s₁.view.flags.runtime = false →
      Runs fs (.embed (s₁.view.resolvedName (s₁.view.resolvedName name))) s₁ code t →
      Runs fs (.node (.reference (.named name) indent)) s code (atIndent s.view.lineIndent t)
  | dynamic {expr indent s} :
      Runs fs (.node (.reference (.dynamic expr) indent)) s
        (dispatch ((atIndent (indent.getD []) s).counted Counter.dynamicReferences).view
          (lookup expr) indent none)
        (atIndent s.view.lineIndent
          (dynamicNoted expr ((atIndent (indent.getD []) s).counted Counter.dynamicReferences)))
  | enclosed {body outer indent s code t} :
      s.view.blocks = body :: outer →
      Runs fs (.text (Text.indentLines (indent.getD []) body))
        (inBlocks outer (atIndent (indent.getD []) s)) code t →
      Runs fs (.node (.reference .block indent)) s code
        (atIndent s.view.lineIndent (inBlocks (body :: t.view.blocks) t))
  | enclosedCall {indent s} :
      s.view.blocks = [] → s.view.flags.runtime = true →
      Runs fs (.node (.reference .block indent)) s
        (s.view.fragments.splice "LR::pb($cx, $in)".toList) s
  | notEnclosed {indent s} :
      s.view.blocks = [] → s.view.flags.runtime = false →
      Runs fs (.node (.reference .block indent)) s [] (s.mapView (·.report .noEnclosingBlock))
  | blockDispatched {name body closed s u s₁ unit t} :
      Runs fs (.read name) (atIndent [] (closeChecked name closed s)) u s₁ →
      s₁.view.flags.runtime = true → Runs fs (.apart body) s₁ unit t →
      Runs fs (.node (.block name body closed)) s
        (dispatch t.view (nameLiteral (s₁.view.resolvedName name)) none (some unit))
        (atIndent s.view.lineIndent t)
  | blockEmbedded {name body closed s u s₁ code t} :
      Runs fs (.read name) (atIndent [] (closeChecked name closed s)) u s₁ →
      s₁.view.flags.runtime = false →
      Runs fs (.embed (s₁.view.resolvedName (s₁.view.resolvedName name)))
        (inBlocks (body :: s₁.view.blocks) s₁) code t →
      Runs fs (.node (.block name body closed)) s code
        (atIndent s.view.lineIndent (inBlocks t.view.blocks.tail t))
  | inlineKnown {name body closed s} :
      name ∈ s.view.cached →
      Runs fs (.node (.inlinePartial name body closed)) s []
        (inlineNoted name (Keyword.unmask body) (closeChecked "inline".toList closed s))
  | inlineNew {name body closed s u t} :
      name ∉ s.view.cached →
      Runs fs (.unit name)
        (inlineCached name (Keyword.unmask body)
          (inlineNoted name (Keyword.unmask body) (closeChecked "inline".toList closed s))) u t →
      Runs fs (.node (.inlinePartial name body closed)) s [] t
  | strayClose {name s} :
      Runs fs (.node (.strayClose name)) s [] (s.mapView (·.report (.unexpectedClose name)))
  | readKnown {name s} :
      s.view.resolvedName name ∈ s.view.cached →
      Runs fs (.read name) s [] (s.counted Counter.references)
  | readMissing {name s} :
      s.view.resolvedName name ∉ s.view.cached → s.context.rawSource? fs name = none →
      Runs fs (.read name) s [] ((s.counted Counter.references).missed name)
  | readFound {name s raw source target u t} :
      s.view.resolvedName name ∉ s.view.cached → s.context.rawSource? fs name = some raw →
      (s.counted Counter.references).context.preprocess raw name = (source, target) →
      Runs fs (.unit target)
        (((s.counted Counter.references).preprocessed raw name).cache name target source) u t →
      Runs fs (.read name) s [] t
  | unitIdle {name s} :
      s.view.flags.runtime = false ∨ name ∈ s.view.table ∨ s.view.cached.get? name = none →
      Runs fs (.unit name) s [] s
  | unitNew {name s source unit t} :
      s.view.flags.runtime = true → name ∉ s.view.table →
      s.view.cached.get? name = some source → Runs fs (.apart source) s unit t →
      Runs fs (.unit name) s [] (t.enroll name unit)
  | apart {template s code t} :
      Runs fs (.text (Keyword.mask template)) s.isolated code t →
      Runs fs (.apart template) s (callable s.view code) (s.merge t)
  | embedMissing {name s} :
      s.view.cached.get? name = none → Runs fs (.embed name) s [] (s.missedOnce name)
  | embedOpen {name s source code t} :
      s.view.cached.get? name = some source → s.view.flags.runtime = true →
      Runs fs (.text (embedded s.view source)) s code t → Runs fs (.embed name) s code t
  | embedGuarded {name s source code t} :
      s.view.cached.get? name = some source → s.view.flags.runtime = false →
      (name :: s.view.chain).Nodup →
      Runs fs (.text (embedded s.view source)) (s.enter name) code t →
      Runs fs (.embed name) s code t.leave
  | embedRepeated {name s source} :
      s.view.cached.get? name = some source → s.view.flags.runtime = false →
      ¬ (name :: s.view.chain).Nodup →
      Runs fs (.embed name) s []
        (s.mapView (·.report (.recursivePartial (name :: s.view.chain).reverse)))

/-! ## What the host computes is a run -/

/-- The results of the host are runs. -/
def Sound (fs : FileSystem) (self : Host) : Prop :=
  ∀ ⦃source s code t⦄, self source fs s = some (code, t) →
    Runs fs (.nodes source.nodes) s code t

namespace Sound

variable {fs : FileSystem} {self : Host} (hself : Sound fs self)

include hself

theorem runs_text {source code : Text} {s t : Compilation}
    (h : self.compile source fs s = some (code, t)) : Runs fs (.text source) s code t :=
  .text (hself h)

theorem runs_apart {template unit : Text} {s t : Compilation}
    (h : compileLocal self template fs s = some (unit, t)) :
    Runs fs (.apart template) s unit t := by
  rw [compileLocal_apply] at h
  obtain ⟨⟨code, copy⟩, hc, hp⟩ := Option.map_eq_some_iff.mp h
  obtain ⟨rfl, rfl⟩ := Prod.mk.injEq .. ▸ hp
  exact .apart (hself.runs_text hc)

theorem runs_unit {name : Text} {s t : Compilation} {u : Option Text}
    (h : compileUnit self name fs s = some (u, t)) : Runs fs (.unit name) s [] t := by
  rw [compileUnit_apply] at h
  split at h
  · rename_i hidle
    obtain ⟨-, rfl⟩ := Prod.mk.injEq .. ▸ Option.some.inj h
    refine .unitIdle ?_
    simp only [Bool.or_eq_true, Bool.not_eq_true', decide_eq_true_eq] at hidle
    exact hidle.imp_right .inl
  · rename_i hbusy
    simp only [Bool.or_eq_true, Bool.not_eq_true', decide_eq_true_eq, not_or,
      Bool.not_eq_false] at hbusy
    split at h
    · rename_i hnone
      obtain ⟨-, rfl⟩ := Prod.mk.injEq .. ▸ Option.some.inj h
      exact .unitIdle (.inr (.inr hnone))
    · rename_i source hsource
      obtain ⟨⟨unit, t'⟩, hc, hp⟩ := Option.map_eq_some_iff.mp h
      obtain ⟨-, rfl⟩ := Prod.mk.injEq .. ▸ hp
      exact .unitNew hbusy.1 hbusy.2 hsource (hself.runs_apart hc)

theorem runs_read {name : Text} {s t : Compilation} {u : Option Text}
    (h : readPartial self name fs s = some (u, t)) : Runs fs (.read name) s [] t := by
  rw [readPartial_apply, readCounted] at h
  split at h
  · rename_i hknown
    obtain ⟨-, rfl⟩ := Prod.mk.injEq .. ▸ Option.some.inj h
    exact .readKnown hknown
  · rename_i hnew
    split at h
    · rename_i hnone
      obtain ⟨-, rfl⟩ := Prod.mk.injEq .. ▸ Option.some.inj h
      exact .readMissing hnew hnone
    · rename_i raw hraw
      exact .readFound hnew hraw rfl (hself.runs_unit h)

theorem runs_embed {requested code : Text} {s t : Compilation}
    (h : embed self requested fs s = some (code, t)) :
    Runs fs (.embed (s.view.resolvedName requested)) s code t := by
  rw [embed_apply, embedResolved] at h
  split at h
  · rename_i hnone
    obtain ⟨rfl, rfl⟩ := Prod.mk.injEq .. ▸ Option.some.inj h
    exact .embedMissing hnone
  · rename_i source hsource
    split at h
    · rename_i hruntime
      exact .embedOpen hsource hruntime (hself.runs_text h)
    · rename_i hruntime
      have hruntime := Bool.not_eq_true _ ▸ hruntime
      split at h
      · rename_i hnodup
        obtain ⟨⟨c, t'⟩, hc, hp⟩ := Option.map_eq_some_iff.mp h
        obtain ⟨rfl, rfl⟩ := Prod.mk.injEq .. ▸ hp
        exact .embedGuarded hsource hruntime hnodup (hself.runs_text hc)
      · rename_i hnodup
        obtain ⟨rfl, rfl⟩ := Prod.mk.injEq .. ▸ Option.some.inj h
        exact .embedRepeated hsource hruntime hnodup

theorem runs_reference {target : Reference} {indent : Option Text} {code : Text}
    {s t : Compilation} (h : reference self target indent fs s = some (code, t)) :
    Runs fs (.node (.reference target indent)) s code t := by
  unfold reference at h
  rw [withLineIndent_apply] at h
  obtain ⟨⟨c, t'⟩, hc, hp⟩ := Option.map_eq_some_iff.mp h
  obtain ⟨rfl, rfl⟩ := Prod.mk.injEq .. ▸ hp
  cases target with
  | named name =>
      simp only [namedReference_apply, Option.bind_eq_some_iff] at hc
      obtain ⟨⟨u, s₁⟩, hread, hc⟩ := hc
      have hread := hself.runs_read hread
      split at hc
      · rename_i hruntime
        obtain ⟨rfl, rfl⟩ := Prod.mk.injEq .. ▸ Option.some.inj hc
        exact .dispatched hread hruntime
      · rename_i hruntime
        exact .embedded hread (Bool.not_eq_true _ ▸ hruntime) (hself.runs_embed hc)
  | dynamic expr =>
      simp only [dynamicReference_apply] at hc
      obtain ⟨rfl, rfl⟩ := Prod.mk.injEq .. ▸ Option.some.inj hc
      exact .dynamic
  | block =>
      simp only [enclosingBlock_apply] at hc
      split at hc
      · rename_i body outer hblocks
        obtain ⟨⟨c', t''⟩, hbody, hp⟩ := Option.map_eq_some_iff.mp hc
        obtain ⟨rfl, rfl⟩ := Prod.mk.injEq .. ▸ hp
        exact .enclosed hblocks (hself.runs_text hbody)
      · rename_i hblocks
        split at hc
        · rename_i hruntime
          obtain ⟨rfl, rfl⟩ := Prod.mk.injEq .. ▸ Option.some.inj hc
          exact .enclosedCall hblocks hruntime
        · rename_i hruntime
          obtain ⟨rfl, rfl⟩ := Prod.mk.injEq .. ▸ Option.some.inj hc
          exact .notEnclosed hblocks (Bool.not_eq_true _ ▸ hruntime)

theorem runs_block {name body code : Text} {closed : Bool} {s t : Compilation}
    (h : partialBlock self name body fs (closeChecked name closed s) = some (code, t)) :
    Runs fs (.node (.block name body closed)) s code t := by
  have hindent : (closeChecked name closed s).view.lineIndent = s.view.lineIndent := by
    cases closed <;> rfl
  rw [partialBlock_apply, hindent] at h
  obtain ⟨⟨c, t'⟩, hc, hp⟩ := Option.map_eq_some_iff.mp h
  obtain ⟨rfl, rfl⟩ := Prod.mk.injEq .. ▸ hp
  obtain ⟨⟨u, s₁⟩, hread, hc⟩ := Option.bind_eq_some_iff.mp hc
  have hread := hself.runs_read hread
  rw [blockRead] at hc
  split at hc
  · rename_i hruntime
    obtain ⟨⟨unit, t''⟩, hunit, hp⟩ := Option.map_eq_some_iff.mp hc
    obtain ⟨rfl, rfl⟩ := Prod.mk.injEq .. ▸ hp
    exact .blockDispatched hread hruntime (hself.runs_apart hunit)
  · rename_i hruntime
    rw [embedWithBlock_apply] at hc
    obtain ⟨⟨c', t''⟩, hembed, hp⟩ := Option.map_eq_some_iff.mp hc
    obtain ⟨rfl, rfl⟩ := Prod.mk.injEq .. ▸ hp
    exact .blockEmbedded hread (Bool.not_eq_true _ ▸ hruntime) (hself.runs_embed hembed)

theorem runs_inline {name body : Text} {closed : Bool} {s t : Compilation}
    (h : defineInline self name body fs (closeChecked "inline".toList closed s) = some ((), t)) :
    Runs fs (.node (.inlinePartial name body closed)) s [] t := by
  rw [defineInline_apply, defineNoted, cached_inlineNoted] at h
  split at h
  · rename_i hknown
    obtain ⟨-, rfl⟩ := Prod.mk.injEq .. ▸ Option.some.inj h
    exact .inlineKnown hknown
  · rename_i hnew
    obtain ⟨⟨u, t'⟩, hunit, hp⟩ := Option.map_eq_some_iff.mp h
    obtain ⟨-, rfl⟩ := Prod.mk.injEq .. ▸ hp
    exact .inlineNew hnew (hself.runs_unit hunit)

theorem runs_node {n : Node} {code : Text} {s t : Compilation}
    (h : node self n fs s = some (code, t)) : Runs fs (.node n) s code t := by
  cases n with
  | literal text =>
      obtain ⟨rfl, rfl⟩ := Prod.mk.injEq .. ▸ Option.some.inj h
      exact .literal
  | «variable» name =>
      obtain ⟨rfl, rfl⟩ := Prod.mk.injEq .. ▸ Option.some.inj h
      exact .variable
  | reference target indent => exact hself.runs_reference h
  | block name body closed =>
      simp only [node, CompileM.bind_apply, checkClosed_apply, Option.bind_some] at h
      exact hself.runs_block h
  | inlinePartial name body closed =>
      simp only [node, CompileM.bind_apply, checkClosed_apply, Option.bind_some,
        CompileM.pure_apply, Option.bind_eq_some_iff] at h
      obtain ⟨⟨⟨⟩, t'⟩, hdefine, hp⟩ := h
      obtain ⟨rfl, rfl⟩ := Prod.mk.injEq .. ▸ Option.some.inj hp
      exact hself.runs_inline hdefine
  | strayClose name =>
      obtain ⟨rfl, rfl⟩ := Prod.mk.injEq .. ▸ Option.some.inj h
      exact .strayClose

theorem runs_nodes {ns : List Node} {code : Text} {s t : Compilation}
    (h : nodes self ns fs s = some (code, t)) : Runs fs (.nodes ns) s code t := by
  induction ns generalizing code s with
  | nil =>
      obtain ⟨rfl, rfl⟩ := Prod.mk.injEq .. ▸ Option.some.inj h
      exact .nil
  | cons n ns ih =>
      rw [nodes_cons_apply] at h
      obtain ⟨⟨a, s₁⟩, hn, h⟩ := Option.bind_eq_some_iff.mp h
      obtain ⟨⟨b, t'⟩, hns, hp⟩ := Option.map_eq_some_iff.mp h
      obtain ⟨rfl, rfl⟩ := Prod.mk.injEq .. ▸ hp
      exact .cons (hself.runs_node hn) (ih hns)

end Sound

theorem sound_host (fs : FileSystem) (depth : Nat) : Sound fs (host depth) := by
  induction depth with
  | zero => exact fun source s code t h => nomatch h
  | succ depth ih => exact fun source s code t h => ih.runs_nodes h

/-! ## Whole compilations -/

/-- The run of reading partials in order. -/
inductive ReadsAll (fs : FileSystem) : List Text → Compilation → Compilation → Prop
  | nil {s} : ReadsAll fs [] s s
  | cons {name names s u s₁ t} :
      Runs fs (.read name) s u s₁ → ReadsAll fs names s₁ t → ReadsAll fs (name :: names) s t

theorem Sound.reads_all {fs : FileSystem} {self : Host} (hself : Sound fs self) {names : List Text}
    {s t : Compilation} (h : readAll self names fs s = some ((), t)) : ReadsAll fs names s t := by
  induction names generalizing s with
  | nil =>
      obtain ⟨-, rfl⟩ := Prod.mk.injEq .. ▸ Option.some.inj h
      exact .nil
  | cons name names ih =>
      rw [readAll_cons_apply] at h
      obtain ⟨⟨u, s₁⟩, hread, h⟩ := Option.bind_eq_some_iff.mp h
      exact .cons (hself.runs_read hread) (ih h)

/-- A template is compiled from the initial state, and then partials that may be named
at render time are read. -/
structure Compiles (fs : FileSystem) (options : Options) (hook : Option Hook) (source code : Text)
    (middle final : Compilation) : Prop where
  runs : Runs fs (.text source.escape) (.initial options hook fs) code middle
  reads : ReadsAll fs (preloaded middle.view) middle final

theorem Sound.compiles {fs : FileSystem} {self : Host} (hself : Sound fs self) {options : Options}
    {hook : Option Hook} {source code : Text} {final : Compilation}
    (h : runWith self fs options hook source = some (code, final)) :
    ∃ middle, Compiles fs options hook source code middle final := by
  rw [runWith_apply] at h
  obtain ⟨⟨c, middle⟩, hcode, h⟩ := Option.bind_eq_some_iff.mp h
  obtain ⟨⟨⟨⟩, t⟩, hpreload, hp⟩ := Option.map_eq_some_iff.mp h
  obtain ⟨rfl, rfl⟩ := Prod.mk.injEq .. ▸ hp
  rw [preload_apply] at hpreload
  exact ⟨middle, hself.runs_text hcode, hself.reads_all hpreload⟩

/-! ## A task has one run -/

theorem Runs.unique {fs : FileSystem} {task : Task} {s t : Compilation} {code : Text}
    (h : Runs fs task s code t) :
    ∀ {code' t'}, Runs fs task s code' t' → code' = code ∧ t' = t := by
  induction h with
  | text _ ih =>
      intro _ _ h
      cases h with
      | text h => exact ih h
  | nil =>
      rintro _ _ ⟨⟩
      exact ⟨rfl, rfl⟩
  | cons _ _ ih₁ ih₂ =>
      intro _ _ h
      cases h with
      | cons h₁ h₂ =>
          obtain ⟨rfl, rfl⟩ := ih₁ h₁
          obtain ⟨rfl, rfl⟩ := ih₂ h₂
          exact ⟨rfl, rfl⟩
  | literal =>
      rintro _ _ ⟨⟩
      exact ⟨rfl, rfl⟩
  | «variable» =>
      rintro _ _ ⟨⟩
      exact ⟨rfl, rfl⟩
  | dispatched _ hruntime ih =>
      intro _ _ h
      cases h with
      | dispatched hread _ =>
          obtain ⟨rfl, rfl⟩ := ih hread
          exact ⟨rfl, rfl⟩
      | embedded hread hruntime' _ =>
          obtain ⟨rfl, rfl⟩ := ih hread
          simp [hruntime] at hruntime'
  | embedded _ hruntime _ ih₁ ih₂ =>
      intro _ _ h
      cases h with
      | dispatched hread hruntime' =>
          obtain ⟨rfl, rfl⟩ := ih₁ hread
          simp [hruntime] at hruntime'
      | embedded hread _ hembed =>
          obtain ⟨rfl, rfl⟩ := ih₁ hread
          obtain ⟨rfl, rfl⟩ := ih₂ hembed
          exact ⟨rfl, rfl⟩
  | dynamic =>
      rintro _ _ ⟨⟩
      exact ⟨rfl, rfl⟩
  | enclosed hblocks _ ih =>
      intro _ _ h
      cases h with
      | enclosed hblocks' hbody =>
          obtain ⟨rfl, rfl⟩ := List.cons.injEq .. ▸ hblocks.symm.trans hblocks'
          obtain ⟨rfl, rfl⟩ := ih hbody
          exact ⟨rfl, rfl⟩
      | enclosedCall hblocks' _ => simp [hblocks] at hblocks'
      | notEnclosed hblocks' _ => simp [hblocks] at hblocks'
  | enclosedCall hblocks hruntime =>
      intro _ _ h
      cases h with
      | enclosed hblocks' _ => simp [hblocks] at hblocks'
      | enclosedCall => exact ⟨rfl, rfl⟩
      | notEnclosed _ hruntime' => simp [hruntime] at hruntime'
  | notEnclosed hblocks hruntime =>
      intro _ _ h
      cases h with
      | enclosed hblocks' _ => simp [hblocks] at hblocks'
      | enclosedCall _ hruntime' => simp [hruntime] at hruntime'
      | notEnclosed => exact ⟨rfl, rfl⟩
  | blockDispatched _ hruntime _ ih₁ ih₂ =>
      intro _ _ h
      cases h with
      | blockDispatched hread _ hapart =>
          obtain ⟨rfl, rfl⟩ := ih₁ hread
          obtain ⟨rfl, rfl⟩ := ih₂ hapart
          exact ⟨rfl, rfl⟩
      | blockEmbedded hread hruntime' _ =>
          obtain ⟨rfl, rfl⟩ := ih₁ hread
          simp [hruntime] at hruntime'
  | blockEmbedded _ hruntime _ ih₁ ih₂ =>
      intro _ _ h
      cases h with
      | blockDispatched hread hruntime' _ =>
          obtain ⟨rfl, rfl⟩ := ih₁ hread
          simp [hruntime] at hruntime'
      | blockEmbedded hread _ hembed =>
          obtain ⟨rfl, rfl⟩ := ih₁ hread
          obtain ⟨rfl, rfl⟩ := ih₂ hembed
          exact ⟨rfl, rfl⟩
  | inlineKnown hknown =>
      intro _ _ h
      cases h with
      | inlineKnown => exact ⟨rfl, rfl⟩
      | inlineNew hnew _ => exact absurd hknown hnew
  | inlineNew hnew _ ih =>
      intro _ _ h
      cases h with
      | inlineKnown hknown => exact absurd hknown hnew
      | inlineNew _ hunit => exact ⟨rfl, (ih hunit).2⟩
  | strayClose =>
      rintro _ _ ⟨⟩
      exact ⟨rfl, rfl⟩
  | readKnown hknown =>
      intro _ _ h
      cases h with
      | readKnown => exact ⟨rfl, rfl⟩
      | readMissing hnew _ => exact absurd hknown hnew
      | readFound hnew _ _ _ => exact absurd hknown hnew
  | readMissing hnew hnone =>
      intro _ _ h
      cases h with
      | readKnown hknown => exact absurd hknown hnew
      | readMissing => exact ⟨rfl, rfl⟩
      | readFound _ hraw _ _ => simp [hnone] at hraw
  | readFound hnew hraw hparts _ ih =>
      intro _ _ h
      cases h with
      | readKnown hknown => exact absurd hknown hnew
      | readMissing _ hnone => simp [hnone] at hraw
      | readFound _ hraw' hparts' hunit =>
          obtain rfl := Option.some.inj (hraw.symm.trans hraw')
          obtain ⟨rfl, rfl⟩ := Prod.mk.injEq .. ▸ hparts.symm.trans hparts'
          exact ⟨rfl, (ih hunit).2⟩
  | unitIdle hidle =>
      intro _ _ h
      cases h with
      | unitIdle => exact ⟨rfl, rfl⟩
      | unitNew hruntime hnew hsource _ => simp [hruntime, hnew, hsource] at hidle
  | unitNew hruntime hnew hsource _ ih =>
      intro _ _ h
      cases h with
      | unitIdle hidle => simp [hruntime, hnew, hsource] at hidle
      | unitNew _ _ hsource' hapart =>
          obtain rfl := Option.some.inj (hsource.symm.trans hsource')
          obtain ⟨rfl, rfl⟩ := ih hapart
          exact ⟨rfl, rfl⟩
  | apart _ ih =>
      intro _ _ h
      cases h with
      | apart h =>
          obtain ⟨rfl, rfl⟩ := ih h
          exact ⟨rfl, rfl⟩
  | embedMissing hnone =>
      intro _ _ h
      cases h with
      | embedMissing => exact ⟨rfl, rfl⟩
      | embedOpen hsource _ _ => simp [hnone] at hsource
      | embedGuarded hsource _ _ _ => simp [hnone] at hsource
      | embedRepeated hsource _ _ => simp [hnone] at hsource
  | embedOpen hsource hruntime _ ih =>
      intro _ _ h
      cases h with
      | embedMissing hnone => simp [hnone] at hsource
      | embedOpen hsource' _ htext =>
          obtain rfl := Option.some.inj (hsource.symm.trans hsource')
          exact ih htext
      | embedGuarded _ hruntime' _ _ => simp [hruntime] at hruntime'
      | embedRepeated _ hruntime' _ => simp [hruntime] at hruntime'
  | embedGuarded hsource hruntime hnodup _ ih =>
      intro _ _ h
      cases h with
      | embedMissing hnone => simp [hnone] at hsource
      | embedOpen _ hruntime' _ => simp [hruntime] at hruntime'
      | embedGuarded hsource' _ _ htext =>
          obtain rfl := Option.some.inj (hsource.symm.trans hsource')
          obtain ⟨rfl, rfl⟩ := ih htext
          exact ⟨rfl, rfl⟩
      | embedRepeated _ _ hrepeated => exact absurd hnodup hrepeated
  | embedRepeated hsource hruntime hrepeated =>
      intro _ _ h
      cases h with
      | embedMissing hnone => simp [hnone] at hsource
      | embedOpen _ hruntime' _ => simp [hruntime] at hruntime'
      | embedGuarded _ _ hnodup _ => exact absurd hnodup hrepeated
      | embedRepeated => exact ⟨rfl, rfl⟩

theorem ReadsAll.unique {fs : FileSystem} {names : List Text} {s t t' : Compilation}
    (h : ReadsAll fs names s t) (h' : ReadsAll fs names s t') : t' = t := by
  induction h with
  | nil =>
      cases h'
      rfl
  | cons hread _ ih =>
      cases h' with
      | cons hread' hrest =>
          obtain ⟨-, rfl⟩ := hread.unique hread'
          exact ih hrest

theorem Compiles.unique {fs : FileSystem} {options : Options} {hook : Option Hook}
    {source code code' : Text} {middle final middle' final' : Compilation}
    (h : Compiles fs options hook source code middle final)
    (h' : Compiles fs options hook source code' middle' final') :
    code' = code ∧ final' = final := by
  obtain ⟨rfl, rfl⟩ := h.runs.unique h'.runs
  exact ⟨rfl, h.reads.unique h'.reads⟩

end Inlay.Handlebars
