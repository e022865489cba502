import Inlay.Proofs.EmbeddedSources
import Inlay.Proofs.NestedBlocks

/-!
# Errors of nested templates

A compilation whose template and partials are nested complains of a closing
tag exactly if it comes to a nested text with a block inside a block of the
same closing name. Until then all that it comes to is nested: sources are
nested when they are found, and bodies of blocks and inline definitions are
nested where they are not cut short.
-/

namespace Inlay

/-- The diagnostic tells of a block without its closing tag, or of a closing tag without its
block. -/
def Diagnostic.ofNesting : Diagnostic → Bool
  | .unclosedBlock _ => true
  | .unexpectedClose _ => true
  | _ => false

namespace Compilation

/-- The diagnostics that tell of closing tags. -/
def nestingErrors (s : Compilation) : List Diagnostic :=
  s.view.diagnostics.filter Diagnostic.ofNesting

theorem nestingErrors_report {d : Diagnostic} (hd : d.ofNesting = false) (s : Compilation) :
    (s.mapView (·.report d)).nestingErrors = s.nestingErrors := by
  show (s.view.diagnostics ++ [d]).filter _ = _
  rw [List.filter_append, List.filter_cons_of_neg (by simp [hd]), List.filter_nil, List.append_nil]
  rfl

theorem nestingErrors_missed (name : Text) (s : Compilation) :
    (s.missed name).nestingErrors = s.nestingErrors := by
  unfold missed
  split
  · rfl
  · exact nestingErrors_report rfl s

theorem nestingErrors_missedOnce (name : Text) (s : Compilation) :
    (s.missedOnce name).nestingErrors = s.nestingErrors := by
  unfold missedOnce
  split
  · exact nestingErrors_report rfl s
  · rfl

theorem nestingErrors_preprocessed (source name : Text) (s : Compilation) :
    (s.preprocessed source name).nestingErrors = s.nestingErrors := by
  unfold preprocessed
  split <;> rfl

/-- What a copy adds is added when it is merged back. -/
theorem nestingErrors_merge {s t : Compilation} (h : s.isolated.Grows t) :
    (s.merge t).nestingErrors = t.nestingErrors := by
  obtain ⟨added, hadded⟩ := h.diagnostics
  have hadded : s.view.diagnostics ++ added = t.view.diagnostics := hadded
  show (s.view.diagnostics ++ t.view.diagnostics.drop s.view.diagnostics.length).filter _ =
    t.view.diagnostics.filter _
  rw [← hadded, List.drop_left]

end Compilation

/-- A partial is embedded with blanks added. -/
theorem Text.Nested.embedded {v : View} {source : Text} (h : source.Nested)
    (hindent : ∀ c ∈ v.lineIndent, isBlank c = true) : (Inlay.embedded v source).Nested := by
  unfold Inlay.embedded
  split
  · exact h
  · exact h.indentLines hindent

namespace Handlebars

open Compilation

variable {fs : FileSystem}

theorem nestingErrors_dynamicNoted (expr : Text) (s : Compilation) :
    (dynamicNoted expr s).nestingErrors = s.nestingErrors := by
  unfold dynamicNoted
  split
  · exact nestingErrors_report rfl s
  · rfl

/-! ## What a compilation reaches -/

/-- What updates keep, and copies too, holds wherever a task comes to. -/
theorem Meets.kept {P : Compilation → Prop} {task task' : Task} {s s' : Compilation}
    (h : Meets fs task s task' s') (hs : P s) (hworks : ∀ r t, P r → Works fs r t → P t)
    (hcopy : ∀ r, P r → P r.isolated) : P s' := by
  induction h with
  | here => exact hs
  | step _ hstarts ih =>
      rcases hstarts.works with hdone | rfl
      · exact hworks _ _ ih hdone
      · exact hcopy _ ih

/-- The sources that a compilation comes to from outside: those that it finds, and those that are
cached or around it from the first. -/
inductive Reaches (fs : FileSystem) (task : Task) (first : Compilation) : Text → Prop
  | found {name s raw source target} :
      Meets fs task first (.read name) s → s.view.resolvedName name ∉ s.view.cached →
      s.context.rawSource? fs name = some raw →
      (s.counted Counter.references).context.preprocess raw name = (source, target) →
      Reaches fs task first source
  | embedded {name s source} :
      Meets fs task first (.embed name) s → first.view.cached.get? name = some source →
      Reaches fs task first source
  | compiled {name s source} :
      Meets fs task first (.unit name) s → first.view.cached.get? name = some source →
      Reaches fs task first source
  | around {indent s body outer} :
      Meets fs task first (.node (.reference .block indent)) s → s.view.blocks = body :: outer →
      body ∈ first.view.blocks → Reaches fs task first body

theorem Meets.rawSource?_eq {task task' : Task} {s s' : Compilation}
    (h : Meets fs task s task' s') (name : Text) :
    s'.context.rawSource? fs name = s.context.rawSource? fs name :=
  h.kept (P := fun r => r.context.rawSource? fs name = s.context.rawSource? fs name) rfl
    (fun _ _ hr hworks => (hworks.rawSource?_eq name).trans hr) fun _ hr => hr

theorem Meets.hookFree {task task' : Task} {s s' : Compilation} (h : Meets fs task s task' s')
    (hs : s.HookFree) : s'.HookFree :=
  h.kept hs (fun _ _ hr hworks => hworks.hookFree hr) fun _ hr => ⟨hr.hook, hr.aliases⟩

theorem Meets.diagnostics_isPrefix {task task' : Task} {s s' : Compilation}
    (h : Meets fs task s task' s') : s.view.diagnostics <+: s'.view.diagnostics :=
  h.kept (P := fun r => s.view.diagnostics <+: r.view.diagnostics) List.prefix_rfl
    (fun _ _ hr hworks => hr.trans hworks.grows.diagnostics) fun _ hr => hr

/-- Without preprocessing, and with nothing there from the first, a compilation reaches sources as
they were written. -/
theorem Reaches.exists_rawSource {task : Task} {first : Compilation} {other : Text}
    (h : Reaches fs task first other) (hfree : first.HookFree) (hcached : first.view.cached = ∅)
    (hblocks : first.view.blocks = []) : ∃ name, first.context.rawSource? fs name = some other := by
  cases h with
  | @found name s raw _ _ hmeets _ hraw hparts =>
      have hs := hmeets.hookFree hfree
      have hcounted : (s.counted Counter.references).HookFree := ⟨hs.hook, hs.aliases⟩
      obtain ⟨rfl, -⟩ := hcounted.parts_eq hparts
      exact ⟨name, (hmeets.rawSource?_eq name).symm.trans hraw⟩
  | embedded _ hsource => simp [hcached, OrderedMap.get?_empty] at hsource
  | compiled _ hsource => simp [hcached, OrderedMap.get?_empty] at hsource
  | around _ _ hmem => simp [hblocks] at hmem

/-- Sources and bodies are nested, or there from the first. -/
structure Orderly (first s : Compilation) : Prop where
  cached : ∀ name source, s.view.cached.get? name = some source →
    source.Nested ∨ first.view.cached.get? name = some source
  blocks : ∀ body ∈ s.view.blocks, body.Nested ∨ body ∈ first.view.blocks

/-- The texts of the task are nested, and blanks indent them. -/
def Task.Nested (s : Compilation) : Task → Prop
  | .text source => source.Nested
  | .nodes ns => ∀ n ∈ ns, n.Nested ∧ n.BlankIndent
  | .node n => n.Nested ∧ n.BlankIndent
  | .apart template => template.Nested
  | .embed _ => ∀ c ∈ s.view.lineIndent, isBlank c = true
  | _ => True

/-- What is cached in the end is nested or was there from the first, and no closing tag is
complained of. -/
structure StaysNested (first s t : Compilation) : Prop where
  cached : ∀ name source, t.view.cached.get? name = some source →
    source.Nested ∨ first.view.cached.get? name = some source
  errors : t.nestingErrors = s.nestingErrors

theorem Orderly.after {first s t : Compilation} {task : Task} {code : Text} (hs : Orderly first s)
    (hrun : Runs fs task s code t) (h : StaysNested first s t) : Orderly first t :=
  ⟨h.cached, hrun.blocks_eq ▸ hs.blocks⟩

theorem Orderly.found {first s : Compilation} (hs : Orderly first s) {source : Text}
    (hsource : source.Nested) (raw name target : Text) :
    Orderly first ((s.preprocessed raw name).cache name target source) := by
  unfold preprocessed
  split
  · exact ⟨OrderedMap.forall_insertIfNew hs.cached (.inl hsource.escape), hs.blocks⟩
  · exact ⟨OrderedMap.forall_insertIfNew hs.cached (.inl hsource.escape), hs.blocks⟩

theorem Orderly.inlineCached {first s : Compilation} (hs : Orderly first s) (name : Text)
    {source : Text} (hsource : source.Nested) : Orderly first (inlineCached name source s) :=
  ⟨OrderedMap.forall_insert hs.cached (.inl hsource), hs.blocks⟩

theorem Orderly.isolated {first s : Compilation} (hs : Orderly first s) :
    Orderly first s.isolated :=
  ⟨hs.cached, by simp [Compilation.isolated, Context.isolated]⟩

theorem StaysNested.trans {first s t r : Compilation} (h₁ : StaysNested first s t)
    (h₂ : StaysNested first t r) : StaysNested first s r :=
  ⟨h₂.cached, h₂.errors.trans h₁.errors⟩

/-- Sources from outside are nested, and no nested text that is met has a block inside an outermost
block of the same closing name. -/
structure NestedThroughout (fs : FileSystem) (root : Task) (first : Compilation) : Prop where
  reached : ∀ other, Reaches fs root first other → other.Nested
  apart : ∀ text s, Meets fs root first (.text text) s → text.Nested → text.overlaps = false

section

variable {root task task' : Task} {first s s' t : Compilation} {code : Text}

/-- What a nested task starts is nested. -/
theorem Starts.nested (h : Starts fs task s task' s') (hall : NestedThroughout fs root first)
    (hmeets : Meets fs root first task s) (hs : Orderly first s) (htask : task.Nested s) :
    task'.Nested s' := by
  cases h with
  | text =>
      exact fun n hn => ⟨Node.nested_of_mem_scan htask (hall.apart _ s hmeets htask) hn,
        Node.blankIndent_of_mem hn⟩
  | head => exact (List.forall_mem_cons.mp htask).1
  | tail => exact (List.forall_mem_cons.mp htask).2
  | referenceRead => trivial
  | @referenceEmbed _ indent _ _ _ hread =>
      have hindent : s'.view.lineIndent = indent.getD [] :=
        congrArg (fun c => c.lineIndent) hread.scope_eq
      show ∀ c ∈ s'.view.lineIndent, isBlank c = true
      exact hindent ▸ htask.2.isBlank
  | @enclosed body outer _ _ hblocks =>
      have hmem : body ∈ s.view.blocks := hblocks ▸ List.mem_cons_self
      have hbody : body.Nested := (hs.blocks body hmem).elim id fun hfirst =>
        hall.reached body (.around hmeets hblocks hfirst)
      exact hbody.indentLines htask.2.isBlank
  | blockRead => trivial
  | @blockApart name body closed => exact (htask.1.body name body closed rfl).2
  | @blockEmbed _ _ _ _ _ s₁ hread =>
      have hindent : s₁.view.lineIndent = [] := congrArg (fun c => c.lineIndent) hread.scope_eq
      show ∀ c ∈ s₁.view.lineIndent, isBlank c = true
      simp [hindent]
  | inline => trivial
  | found => trivial
  | @unit name _ source _ _ hsource =>
      exact (hs.cached name source hsource).elim id fun hfirst =>
        hall.reached source (.compiled hmeets hfirst)
  | apart => exact htask.mask
  | @embedOpen name _ source hsource =>
      have hnested : source.Nested := (hs.cached name source hsource).elim id fun hfirst =>
        hall.reached source (.embedded hmeets hfirst)
      exact hnested.embedded htask
  | @embedGuarded name _ source hsource =>
      have hnested : source.Nested := (hs.cached name source hsource).elim id fun hfirst =>
        hall.reached source (.embedded hmeets hfirst)
      exact hnested.embedded htask

/-- The run of a nested task complains of no closing tag. -/
theorem Runs.stays_nested (h : Runs fs task s code t) (hall : NestedThroughout fs root first)
    (hmeets : Meets fs root first task s) (hs : Orderly first s) (htask : task.Nested s) :
    StaysNested first s t := by
  -- only sources that are reached are nested, so the way to the task is carried along
  induction h with
  | @text source s code t _ ih =>
      have hstarts : Starts fs (.text source) s _ _ := .text
      have hinside := ih (hmeets.step hstarts) ⟨hs.cached, hs.blocks⟩
        (hstarts.nested hall hmeets hs htask)
      exact ⟨hinside.cached, hinside.errors⟩
  | nil => exact ⟨hs.cached, rfl⟩
  | cons h₁ _ ih₁ ih₂ =>
      obtain ⟨hn, hns⟩ := List.forall_mem_cons.mp htask
      have hfirst := ih₁ (hmeets.step .head) hs hn
      exact hfirst.trans (ih₂ (hmeets.step (.tail h₁)) (hs.after h₁ hfirst) hns)
  | literal => exact ⟨hs.cached, rfl⟩
  | «variable» => exact ⟨hs.cached, rfl⟩
  | dispatched _ _ ih =>
      have hread := ih (hmeets.step .referenceRead) ⟨hs.cached, hs.blocks⟩ trivial
      exact ⟨hread.cached, hread.errors⟩
  | @embedded name indent s u s₁ code t h₁ hruntime _ ih₁ ih₂ =>
      have hs₀ : Orderly first (atIndent (indent.getD []) s) := ⟨hs.cached, hs.blocks⟩
      have hread := ih₁ (hmeets.step .referenceRead) hs₀ trivial
      have hstarts : Starts fs (.node (.reference (.named name) indent)) s _ _ :=
        .referenceEmbed h₁ hruntime
      have hembed := ih₂ (hmeets.step hstarts) (hs₀.after h₁ hread)
        (hstarts.nested hall hmeets hs htask)
      exact ⟨hembed.cached, hembed.errors.trans hread.errors⟩
  | @dynamic expr indent s =>
      refine ⟨fun name source hsource => hs.cached name source ?_, nestingErrors_dynamicNoted ..⟩
      unfold dynamicNoted at hsource
      split at hsource <;> exact hsource
  | @enclosed body outer indent s code t hblocks _ ih =>
      have hstarts : Starts fs (.node (.reference .block indent)) s _ _ := .enclosed hblocks
      have houter := (List.forall_mem_cons.mp (hblocks ▸ hs.blocks)).2
      have hinside := ih (hmeets.step hstarts) ⟨hs.cached, houter⟩
        (hstarts.nested hall hmeets hs htask)
      exact ⟨hinside.cached, hinside.errors⟩
  | enclosedCall => exact ⟨hs.cached, rfl⟩
  | notEnclosed => exact ⟨hs.cached, nestingErrors_report rfl _⟩
  | @blockDispatched name body closed s u s₁ unit t h₁ hruntime _ ih₁ ih₂ =>
      obtain ⟨rfl, hbody⟩ := htask.1.body name body closed rfl
      have hs₀ : Orderly first (atIndent [] s) := ⟨hs.cached, hs.blocks⟩
      have hread := ih₁ (hmeets.step .blockRead) hs₀ trivial
      have hunit := ih₂ (hmeets.step (.blockApart h₁ hruntime)) (hs₀.after h₁ hread) hbody
      exact ⟨hunit.cached, hunit.errors.trans hread.errors⟩
  | @blockEmbedded name body closed s u s₁ code t h₁ hruntime _ ih₁ ih₂ =>
      obtain ⟨rfl, hbody⟩ := htask.1.body name body closed rfl
      have hs₀ : Orderly first (atIndent [] s) := ⟨hs.cached, hs.blocks⟩
      have hread := ih₁ (hmeets.step .blockRead) hs₀ trivial
      have hs₁ := hs₀.after h₁ hread
      have hstarts : Starts fs (.node (.block name body true)) s _ _ := .blockEmbed h₁ hruntime
      have hembed := ih₂ (hmeets.step hstarts)
        ⟨hs₁.cached, List.forall_mem_cons.mpr ⟨.inl hbody, hs₁.blocks⟩⟩
        (hstarts.nested hall hmeets hs htask)
      exact ⟨hembed.cached, hembed.errors.trans hread.errors⟩
  | @inlineKnown name body closed s =>
      obtain ⟨rfl, -⟩ := htask.1.body "inline".toList body closed rfl
      exact ⟨hs.cached, rfl⟩
  | @inlineNew name body closed s u t hnew _ ih =>
      obtain ⟨rfl, hbody⟩ := htask.1.body "inline".toList body closed rfl
      have hnoted : Orderly first (inlineNoted name (Keyword.unmask body) s) :=
        ⟨hs.cached, hs.blocks⟩
      have hunit := ih (hmeets.step (.inline hnew)) (hnoted.inlineCached name hbody.unmask) trivial
      exact ⟨hunit.cached, hunit.errors⟩
  | @strayClose name => exact absurd rfl (htask.1.kept name)
  | readKnown => exact ⟨hs.cached, rfl⟩
  | @readMissing name s =>
      refine ⟨fun other source hsource => ?_, nestingErrors_missed ..⟩
      rw [cached_missed] at hsource
      exact hs.cached other source hsource
  | @readFound name s raw source target u t hnew hraw hparts _ ih =>
      have hsource := hall.reached source (.found hmeets hnew hraw hparts)
      have hcounted : Orderly first (s.counted Counter.references) := ⟨hs.cached, hs.blocks⟩
      have hunit := ih (hmeets.step (.found hnew hraw hparts))
        (hcounted.found hsource raw name target) trivial
      exact ⟨hunit.cached, hunit.errors.trans (nestingErrors_preprocessed ..)⟩
  | unitIdle => exact ⟨hs.cached, rfl⟩
  | @unitNew name s source unit t hruntime hnew hsource _ ih =>
      have hstarts : Starts fs (.unit name) s _ _ := .unit hruntime hnew hsource
      have hunit := ih (hmeets.step hstarts) hs (hstarts.nested hall hmeets hs htask)
      exact ⟨hunit.cached, hunit.errors⟩
  | @apart template s code t h ih =>
      have hcopy := ih (hmeets.step .apart) hs.isolated htask.mask
      exact ⟨OrderedMap.forall_absorb hs.cached hcopy.cached,
        (nestingErrors_merge h.grows).trans hcopy.errors⟩
  | @embedMissing name s =>
      refine ⟨fun other source hsource => hs.cached other source ?_, nestingErrors_missedOnce ..⟩
      unfold Compilation.missedOnce at hsource
      split at hsource <;> exact hsource
  | @embedOpen name s source code t hsource hruntime _ ih =>
      have hstarts : Starts fs (.embed name) s _ _ := .embedOpen hsource hruntime
      exact ih (hmeets.step hstarts) hs (hstarts.nested hall hmeets hs htask)
  | @embedGuarded name s source code t hsource hruntime hnodup _ ih =>
      have hstarts : Starts fs (.embed name) s _ _ := .embedGuarded hsource hruntime hnodup
      have hinside := ih (hmeets.step hstarts) ⟨hs.cached, hs.blocks⟩
        (hstarts.nested hall hmeets hs htask)
      exact ⟨hinside.cached, hinside.errors⟩
  | embedRepeated => exact ⟨hs.cached, nestingErrors_report rfl _⟩

/-- A nested task starts others in states whose sources and bodies are nested. -/
theorem Starts.orderly (h : Starts fs task s task' s') (hall : NestedThroughout fs root first)
    (hmeets : Meets fs root first task s) (hs : Orderly first s) (htask : task.Nested s) :
    Orderly first s' := by
  cases h with
  | text => exact ⟨hs.cached, hs.blocks⟩
  | head => exact hs
  | tail hnode =>
      have hn := (List.forall_mem_cons.mp htask).1
      exact hs.after hnode (hnode.stays_nested hall (hmeets.step .head) hs hn)
  | referenceRead => exact ⟨hs.cached, hs.blocks⟩
  | @referenceEmbed _ indent _ _ _ hread =>
      have hs₀ : Orderly first (atIndent (indent.getD []) s) := ⟨hs.cached, hs.blocks⟩
      exact hs₀.after hread (hread.stays_nested hall (hmeets.step .referenceRead) hs₀ trivial)
  | enclosed hblocks => exact ⟨hs.cached, (List.forall_mem_cons.mp (hblocks ▸ hs.blocks)).2⟩
  | @blockRead name body closed =>
      obtain ⟨rfl, -⟩ := htask.1.body name body closed rfl
      exact ⟨hs.cached, hs.blocks⟩
  | @blockApart name body closed _ _ _ hread =>
      obtain ⟨rfl, -⟩ := htask.1.body name body closed rfl
      have hs₀ : Orderly first (atIndent [] s) := ⟨hs.cached, hs.blocks⟩
      exact hs₀.after hread (hread.stays_nested hall (hmeets.step .blockRead) hs₀ trivial)
  | @blockEmbed name body closed _ _ _ hread =>
      obtain ⟨rfl, hbody⟩ := htask.1.body name body closed rfl
      have hs₀ : Orderly first (atIndent [] s) := ⟨hs.cached, hs.blocks⟩
      have hs₁ := hs₀.after hread (hread.stays_nested hall (hmeets.step .blockRead) hs₀ trivial)
      exact ⟨hs₁.cached, List.forall_mem_cons.mpr ⟨.inl hbody, hs₁.blocks⟩⟩
  | @inline name body closed =>
      obtain ⟨rfl, hbody⟩ := htask.1.body "inline".toList body closed rfl
      have hnoted : Orderly first (inlineNoted name (Keyword.unmask body) s) :=
        ⟨hs.cached, hs.blocks⟩
      exact hnoted.inlineCached name hbody.unmask
  | @found name _ raw source target hnew hraw hparts =>
      have hsource := hall.reached source (.found hmeets hnew hraw hparts)
      have hcounted : Orderly first (s.counted Counter.references) := ⟨hs.cached, hs.blocks⟩
      exact hcounted.found hsource raw name target
  | unit => exact hs
  | apart => exact hs.isolated
  | embedOpen => exact hs
  | embedGuarded => exact ⟨hs.cached, hs.blocks⟩

/-- All that a nested task comes to is nested. -/
theorem Meets.nested (h : Meets fs root first task s) (hall : NestedThroughout fs root first)
    (hroot : root.Nested first) : Orderly first s ∧ task.Nested s := by
  induction h with
  | here => exact ⟨⟨fun _ _ h => .inr h, fun _ h => .inr h⟩, hroot⟩
  | step hmeets hstarts ih =>
      obtain ⟨hs, htask⟩ := ih
      exact ⟨hstarts.orderly hall hmeets hs htask, hstarts.nested hall hmeets hs htask⟩

end

/-! ## Left-over closing tags -/

/-- A closing tag that is left over among the nodes is reported. -/
theorem Runs.reports_strayClose {ns : List Node} {s t : Compilation} {code name : Text}
    (h : Runs fs (.nodes ns) s code t) (hmem : .strayClose name ∈ ns) :
    ∃ before, s.view.diagnostics <+: before ∧
      before ++ [.unexpectedClose name] <+: t.view.diagnostics := by
  induction ns generalizing s code with
  | nil => cases hmem
  | cons n ns ih =>
      cases h with | cons hnode hrest => ?_
      rcases List.mem_cons.mp hmem with rfl | hmem
      · cases hnode with | strayClose => ?_
        exact ⟨_, List.prefix_rfl, hrest.grows.diagnostics⟩
      · obtain ⟨before, hbefore, hafter⟩ := ih hrest hmem
        exact ⟨before, hnode.grows.diagnostics.trans hbefore, hafter⟩

/-- A nested text with a block inside a block of the same closing name has a closing tag left over,
and this is reported. -/
theorem Runs.reports_overlap {source text code : Text} {s s₁ t : Compilation}
    (h : Runs fs (.text source) s code t) (hmeets : Meets fs (.text source) s (.text text) s₁)
    (hnested : text.Nested) (hover : text.overlaps = true) :
    ∃ before name, s.view.diagnostics <+: before ∧
      before ++ [.unexpectedClose name] <+: t.view.diagnostics := by
  obtain ⟨code', t', hrun, hgrows, -⟩ := hmeets.exists_inner_run h
  obtain ⟨name, hmem⟩ := Node.exists_strayClose true hnested (.inr hover)
  cases hrun with | text hnodes => ?_
  obtain ⟨before, hbefore, hafter⟩ := hnodes.reports_strayClose hmem
  exact ⟨before, name, hmeets.diagnostics_isPrefix.trans hbefore, hafter.trans hgrows.diagnostics⟩

/-- Blocks in a nested template, with all sources that it reaches nested too. A block of a nested
text is closed, and it has its own body exactly if no block inside ends at a closing tag of the same
name. The compilation complains of closing tags exactly if it comes to a nested text with a block
inside an outermost block of the same closing name. If it does not, all texts that it comes to are
nested, and all their blocks have their own bodies. -/
theorem nesting_errors_iff (fs : FileSystem) (depth : Nat) {source code : Text}
    {s t : Compilation} (hnested : source.Nested)
    (hreach : ∀ other, Reaches fs (.text source) s other → other.Nested)
    (hrun : (host depth).compile source fs s = some (code, t)) :
    (∀ text : Text, text.Nested → ∀ n ∈ text.nodes, ∀ name body closed,
      n.taken? = some (name, body, closed) → closed = true ∧ ∃ rest own after,
        text.Opens name rest ∧ Node.ownBody? [name] rest = some (own, after) ∧ own.Nested ∧
          (body = own ↔ ∀ tag ∈ own.tags, tag.closedBy? ≠ some name)) ∧
    ∃ new, t.view.diagnostics = s.view.diagnostics ++ new ∧
      ((∃ d ∈ new, d.ofNesting = true) ↔
        ∃ text s₁, Meets fs (.text source) s (.text text) s₁ ∧ text.Nested ∧
          text.overlaps = true) ∧
      ((∀ d ∈ new, d.ofNesting = false) → ∀ text s₁, Meets fs (.text source) s (.text text) s₁ →
        text.Nested ∧ ∀ n ∈ text.nodes, ∀ name body closed,
          n.taken? = some (name, body, closed) → closed = true ∧ ∃ rest after,
            text.Opens name rest ∧ Node.ownBody? [name] rest = some (body, after)) := by
  have hruns := (sound_host fs depth).runs_text hrun
  obtain ⟨new, hnew⟩ := hruns.grows.diagnostics
  have hreported : ∀ text s₁, Meets fs (.text source) s (.text text) s₁ → text.Nested →
      text.overlaps = true → ∃ d ∈ new, d.ofNesting = true := by
    intro text s₁ hmeets htext hover
    obtain ⟨before, name, ⟨mid, rfl⟩, hafter⟩ := hruns.reports_overlap hmeets htext hover
    rw [← hnew, List.append_assoc, List.prefix_append_right_inj] at hafter
    exact ⟨_, hafter.subset (List.mem_append_right _ List.mem_cons_self), rfl⟩
  refine ⟨fun text htext n hn name body closed htaken => ?_, new, hnew.symm, ⟨?_, ?_⟩, ?_⟩
  · obtain ⟨hclosed, rest, own, after, hopens, hown, hinside, hiff, -⟩ :=
      Node.closed_and_body_eq_iff htext hn htaken
    exact ⟨hclosed, rest, own, after, hopens, hown, hinside, hiff⟩
  · rintro ⟨d, hd, hof⟩
    by_contra hnone
    have hall : NestedThroughout fs (.text source) s := ⟨hreach, fun text s₁ hmeets htext =>
      Bool.eq_false_iff.mpr fun hover => hnone ⟨text, s₁, hmeets, htext, hover⟩⟩
    have hs : Orderly s s := ⟨fun _ _ h => .inr h, fun _ h => .inr h⟩
    have herrors := (hruns.stays_nested hall .here hs hnested).errors
    unfold nestingErrors at herrors
    rw [← hnew, List.filter_append] at herrors
    have hempty := List.append_right_eq_self.mp herrors
    exact List.filter_eq_nil_iff.mp hempty d hd hof
  · rintro ⟨text, s₁, hmeets, htext, hover⟩
    exact hreported text s₁ hmeets htext hover
  · intro hquiet text s₁ hmeets
    have hall : NestedThroughout fs (.text source) s := ⟨hreach, fun text s₁ hmeets htext =>
      Bool.eq_false_iff.mpr fun hover => by
        obtain ⟨d, hd, hof⟩ := hreported text s₁ hmeets htext hover
        simp [hquiet d hd] at hof⟩
    have htext : text.Nested := (hmeets.nested hall hnested).2
    refine ⟨htext, fun n hn name body closed htaken => ?_⟩
    have hbody := (Node.nested_of_mem_scan htext (hall.apart text s₁ hmeets htext) hn).body
    obtain ⟨hclosed, rest, own, after, hopens, hown, -, -, hiff⟩ :=
      Node.closed_and_body_eq_iff htext hn htaken
    obtain rfl := hiff.mpr (hbody name body closed htaken).2
    exact ⟨hclosed, rest, after, hopens, hown⟩

/-- One partial, and no file is looked for. -/
def onePartialOptions : Options :=
  { Options.standard with
    endings := []
    partials := .ofList [("a".toList, "A".toList)] }

/-- A block inside a block of the same name. -/
def sameNameTemplate : Text :=
  "\x7b\x7b#> a\x7d\x7d\x7b\x7b#> a\x7d\x7dx\x7b\x7b/a\x7d\x7d\x7b\x7b/a\x7d\x7d".toList

theorem nesting_errors_iff_same_name :
    let start := initial onePartialOptions none (.emptyAt ['/'])
    sameNameTemplate.escape.Nested ∧
    (∀ other, Reaches (.emptyAt ['/']) (.text sameNameTemplate.escape) start other → other.Nested) ∧
    ∃ code t, (host 2).compile sameNameTemplate.escape (.emptyAt ['/']) start = some (code, t) ∧
      ∃ d ∈ t.view.diagnostics, d.ofNesting = true := by
  intro start
  have hnested : sameNameTemplate.escape.Nested := by decide +kernel
  have hover : sameNameTemplate.escape.overlaps = true := by decide +kernel
  have hpartials : ∀ name source, onePartialOptions.partials.get? name = some source →
      source.Nested :=
    OrderedMap.forall_insert (m := ∅) (p := fun _ source => Text.Nested source) nofun (by decide +kernel)
  have hreach : ∀ other, Reaches (.emptyAt ['/']) (.text sameNameTemplate.escape) start other →
      other.Nested := by
    intro other h
    obtain ⟨name, hraw⟩ := h.exists_rawSource ⟨rfl, rfl⟩ rfl rfl
    unfold Context.rawSource? at hraw
    split at hraw
    · rename_i source hsource
      obtain rfl := Option.some.inj hraw
      exact hpartials name source hsource
    · cases hraw
  have hsome : ((host 2).compile sameNameTemplate.escape (.emptyAt ['/']) start).isSome = true := by
    decide +kernel
  obtain ⟨⟨code, t⟩, hrun⟩ := Option.isSome_iff_exists.mp hsome
  obtain ⟨-, new, hnew, hiff, -⟩ := nesting_errors_iff (.emptyAt ['/']) 2 hnested hreach hrun
  obtain ⟨d, hd, hof⟩ := hiff.mpr ⟨_, _, .here, hnested, hover⟩
  exact ⟨hnested, hreach, code, t, hrun, d, hnew ▸ List.mem_append_right _ hd, hof⟩

/-- The body of the outer block ends at the closing tag of the inner one, and the other closing tag
is complained of. -/
theorem same_name_block_cut :
    sameNameTemplate.Nested ∧
    sameNameTemplate.nodes =
      [.literal [], .block "a".toList "\x7b\x7b#> a\x7d\x7dx".toList true,
        .literal [], .strayClose "a".toList, .literal []] ∧
    (compile (.emptyAt ['/']) onePartialOptions none sameNameTemplate).map
      (fun o => (o.code, o.diagnostics)) =
        some ("A".toList, [.unexpectedClose "a".toList]) := by
  decide +kernel

end Handlebars

end Inlay
