import Inlay.Proofs.DirectCalls
import Inlay.Proofs.StaticDiagnostics

/-!
# When the guard against recursion reports

The chain of partials being embedded is not the path of references to the
text being compiled: a block body is put in the place of an enclosing-block
reference while the partial with this reference, and all that were embedded
on the way to it, are still on the chain. Where no partial can be reached
that refers back to itself, these bodies are all that the guard reports. It
reports each way from such a body to a partial on the chain.
-/

namespace Inlay

/-! ## Ways back to the chain -/

/-- From the calls, the way leads to a name that is being embedded. Before it, the partials
with the names on the way are embedded. -/
inductive LeadsBack (found? : Text → Option Text) :
    List Text → List Text → List Text → Text → Prop
  | back {chain calls name} : name ∈ calls → name ∈ chain → LeadsBack found? chain calls [] name
  | through {chain calls name source way again} :
      name ∈ calls → found? name = some source → name ∉ chain →
      LeadsBack found? (name :: chain) source.dispatched way again →
      LeadsBack found? chain calls (name :: way) again

/-- How a text with these calls comes to be compiled while the chain is embedded: as the
template, in the place of an enclosing-block reference, or as the source of a partial that such
a text calls. -/
inductive Opened (found? : Text → Option Text) (template : List Text)
    (placed : List Text → List Text → Prop) : List Text → List Text → Prop
  | template : Opened found? template placed [] template
  | placed {chain calls} : placed chain calls → Opened found? template placed chain calls
  | source {chain calls name source} :
      Opened found? template placed chain calls → name ∈ calls → found? name = some source →
      name ∉ chain → Opened found? template placed (name :: chain) source.dispatched

section Ways

variable {found? : Text → Option Text}

theorem LeadsBack.transGen {chain way : List Text} {name source again : Text}
    (h : LeadsBack found? chain source.dispatched way again) (hsource : found? name = some source) :
    Relation.TransGen (Cites found?) name again := by
  generalize hcalls : source.dispatched = calls at h
  induction h generalizing name source with
  | back hmem _ =>
      subst hcalls
      exact .single ⟨source, hsource, source.dispatched_subset hmem⟩
  | through hmem hnext _ _ ih =>
      subst hcalls
      exact .head ⟨source, hsource, source.dispatched_subset hmem⟩ (ih hnext rfl)

/-- Where no name on the chain refers back to itself, a way back to the chain starts in a body
that was put in the place of a reference, and leads to what was embedded then. -/
theorem Opened.leadsBack {template : List Text} {placed : List Text → List Text → Prop}
    {chain calls way : List Text} {again : Text} (h : Opened found? template placed chain calls)
    (hacyclic : ∀ name ∈ chain, ¬ Relation.TransGen (Cites found?) name name)
    (hback : LeadsBack found? chain calls way again) (hmem : again ∈ chain) :
    ∃ chain' calls' way', placed chain' calls' ∧ again ∈ chain' ∧
      LeadsBack found? chain' calls' way' again ∧
      chain.reverse ++ way = chain'.reverse ++ way' := by
  induction h generalizing way with
  | template => cases hmem
  | placed hplaced => exact ⟨_, _, way, hplaced, hmem, hback, rfl⟩
  | @source chain calls name source _ hname hsource hnew ih =>
      obtain ⟨hself, hacyclic⟩ := List.forall_mem_cons.mp hacyclic
      rcases List.mem_cons.mp hmem with rfl | hmem
      · exact absurd (hback.transGen hsource) hself
      · obtain ⟨chain', calls', way', hplaced, hmem', hback', hway⟩ :=
          ih hacyclic (.through hname hsource hnew hback) hmem
        refine ⟨chain', calls', way', hplaced, hmem', hback', ?_⟩
        rw [← hway, List.reverse_cons, List.append_assoc]
        rfl

end Ways

/-! ## Texts without definitions -/

/-- The tag starts an inline definition. -/
def Tag.defines : Tag → Bool
  | .openInline _ => true
  | _ => false

/-- The tag does not define a partial, and what it refers to is one of the names. -/
structure Tag.Among (names : Text → Prop) (tag : Tag) : Prop where
  undefining : ∀ name, tag ≠ .openInline name
  refers : ∀ name ∈ tag.refersTo?, names name

theorem Tag.Among.of_outline {names : Text → Prop} {tag other : Tag} (h : tag.Among names)
    (houtline : other.outline = tag.outline) : other.Among names := by
  constructor
  · rintro name rfl
    cases tag with
    | openInline other => exact h.undefining other rfl
    | reference target => cases target <;> cases houtline
    | _ => cases houtline
  · intro name hname
    refine h.refers name ?_
    rwa [← refersTo?_outline, ← houtline, refersTo?_outline]

/-- The text defines no partial, and what it refers to is one of the names. -/
def Text.Among (names : Text → Prop) (s : Text) : Prop :=
  ∀ tag ∈ s.tags, tag.Among names

def Node.Among (names : Text → Prop) (n : Node) : Prop :=
  ∀ tag ∈ n.tags, tag.Among names

/-- The text defines no partial. -/
def Text.Undefining (s : Text) : Prop :=
  ∀ tag ∈ s.tags, tag.defines = false

instance (s : Text) : Decidable s.Undefining :=
  inferInstanceAs (Decidable (∀ tag ∈ s.tags, tag.defines = false))

theorem Text.Undefining.among {names : Text → Prop} {s : Text} (h : s.Undefining)
    (hnames : ∀ name ∈ s.references, names name) : s.Among names := by
  intro tag htag
  refine ⟨?_, fun name hname => hnames name (List.mem_filterMap.mpr ⟨tag, htag, hname⟩)⟩
  rintro name rfl
  cases h _ htag

namespace Text.Among

variable {names : Text → Prop} {s : Text} (h : s.Among names)

include h

theorem node {n : Node} (hn : n ∈ s.nodes) : n.Among names :=
  fun tag htag => h tag (Node.tags_subset hn htag)

theorem indentLines {w : Text} (hw : ∀ c ∈ w, isBlank c = true) :
    (Text.indentLines w s).Among names := by
  intro tag htag
  have hmem : tag.outline ∈ s.tags.map Tag.outline := by
    rw [← map_outline_tags_indentLines hw]
    exact List.mem_map.mpr ⟨tag, htag, rfl⟩
  obtain ⟨other, hother, houtline⟩ := List.mem_map.mp hmem
  exact (h other hother).of_outline houtline.symm

theorem embedded {v : View} (hw : ∀ c ∈ v.lineIndent, isBlank c = true) :
    (embedded v s).Among names := by
  unfold Inlay.embedded
  split
  · exact h
  · exact h.indentLines hw

end Text.Among

namespace Node.Among

variable {names : Text → Prop} {n : Node} (h : n.Among names)

include h

theorem dispatches {name : Text} (hname : n.dispatches? = some name) : names name := by
  obtain ⟨tag, htag, hrefers⟩ := List.mem_filterMap.mp (Node.mem_references_of_dispatches? hname)
  exact (h tag htag).refers name hrefers

end Node.Among

theorem Node.Among.body {names : Text → Prop} {name body : Text} {closed : Bool}
    (h : (Node.block name body closed).Among names) : body.Among names :=
  fun tag htag => h tag (List.mem_cons_of_mem _ (List.mem_append_left _ htag))

theorem Node.not_among_inlinePartial {names : Text → Prop} {name body : Text} {closed : Bool} :
    ¬ (Node.inlinePartial name body closed).Among names :=
  fun h => (h _ List.mem_cons_self).undefining name rfl

/-- Descending changes no call in a source. -/
theorem Text.dispatched_embedded {v : View} (h : ∀ c ∈ v.lineIndent, isBlank c = true)
    (source : Text) : (embedded v source).dispatched = source.dispatched := by
  unfold embedded
  split
  · rfl
  · exact dispatched_indentLines h source

namespace Handlebars

open Compilation

/-! ## States of a compilation that embeds -/

/-- A state on the way of a hook-free compilation that embeds, in which nothing was defined and
only these names are referred to. What is cached are escaped sources. -/
structure Descending (fs : FileSystem) (c : Context) (names : Text → Prop) (s : Compilation) :
    Prop where
  hook : s.context.hook = none
  embeds : s.view.flags.runtime = false
  raw : ∀ name, s.context.rawSource? fs name = c.rawSource? fs name
  aliases : s.view.aliases = ∅
  cached : ∀ name source, s.view.cached.get? name = some source →
    escapedSource? fs c name = some source
  nodup : s.view.chain.Nodup
  known : ∀ name ∈ s.view.chain, names name ∧ escapedSource? fs c name ≠ none
  blocks : ∀ body ∈ s.view.blocks, body.Among names
  indent : ∀ d ∈ s.view.lineIndent, isBlank d = true

namespace Descending

variable {fs : FileSystem} {c : Context} {names : Text → Prop} {s t : Compilation}
  (h : Descending fs c names s)

include h

theorem hookFree : s.HookFree :=
  ⟨h.hook, h.aliases⟩

theorem emit (e : Event) : Descending fs c names (s.emit e) :=
  ⟨h.hook, h.embeds, h.raw, h.aliases, h.cached, h.nodup, h.known, h.blocks, h.indent⟩

theorem report (d : Diagnostic) : Descending fs c names (s.mapView (·.report d)) :=
  ⟨h.hook, h.embeds, h.raw, h.aliases, h.cached, h.nodup, h.known, h.blocks, h.indent⟩

theorem counted (counter : Text) : Descending fs c names (s.counted counter) :=
  ⟨h.hook, h.embeds, h.raw, h.aliases, h.cached, h.nodup, h.known, h.blocks, h.indent⟩

theorem closeChecked (name : Text) (closed : Bool) :
    Descending fs c names (closeChecked name closed s) := by
  cases closed with
  | true => exact h
  | false => exact h.report _

theorem dynamicNoted (expr : Text) : Descending fs c names (dynamicNoted expr s) := by
  unfold Handlebars.dynamicNoted
  split
  · exact h.report _
  · exact h

theorem missed (name : Text) : Descending fs c names (s.missed name) := by
  unfold Compilation.missed
  split
  · exact h
  · exact h.report _

theorem missedOnce (name : Text) : Descending fs c names (s.missedOnce name) := by
  unfold Compilation.missedOnce
  split
  · exact h.report _
  · exact h

theorem atIndent {w : Text} (hw : ∀ d ∈ w, isBlank d = true) :
    Descending fs c names (atIndent w s) :=
  ⟨h.hook, h.embeds, h.raw, h.aliases, h.cached, h.nodup, h.known, h.blocks, hw⟩

theorem inBlocks {blocks : List Text} (hblocks : ∀ body ∈ blocks, body.Among names) :
    Descending fs c names (inBlocks blocks s) :=
  ⟨h.hook, h.embeds, h.raw, h.aliases, h.cached, h.nodup, h.known, hblocks, h.indent⟩

theorem cache {name raw : Text} (hraw : c.rawSource? fs name = some raw) :
    Descending fs c names (s.cache name name raw) := by
  have hnew : escapedSource? fs c name = some raw.escape := by
    rw [escapedSource?, hraw, Option.map_some]
  exact ⟨h.hook, h.embeds, h.raw, (h.hookFree.cache name raw).aliases,
    OrderedMap.forall_insertIfNew h.cached hnew, h.nodup, h.known, h.blocks, h.indent⟩

theorem enter {name : Text} (hname : names name) (hfound : escapedSource? fs c name ≠ none)
    (hnew : name ∉ s.view.chain) : Descending fs c names (s.enter name) :=
  ⟨h.hook, h.embeds, h.raw, h.aliases, h.cached, List.nodup_cons.mpr ⟨hnew, h.nodup⟩,
    List.forall_mem_cons.mpr ⟨⟨hname, hfound⟩, h.known⟩, h.blocks, h.indent⟩

/-- A state in the same scope embeds too, if only escaped sources were cached. -/
theorem of_scope (hscope : t.scope = s.scope) (haliases : t.view.aliases = ∅)
    (hcached : ∀ name source, t.view.cached.get? name = some source →
      escapedSource? fs c name = some source) : Descending fs c names t := by
  have hchain : t.view.chain = s.view.chain := congrArg (fun c => c.chain) hscope
  have hblocks : t.view.blocks = s.view.blocks := congrArg (fun c => c.blocks) hscope
  have hindent : t.view.lineIndent = s.view.lineIndent := congrArg (fun c => c.lineIndent) hscope
  have hraw : ∀ name, t.context.rawSource? fs name = s.context.rawSource? fs name := by
    intro name
    show t.scope.rawSource? fs name = s.scope.rawSource? fs name
    rw [hscope]
  exact ⟨(congrArg (fun c => c.hook) hscope).trans h.hook,
    (congrArg (fun c => c.flags.runtime) hscope).trans h.embeds,
    fun name => (hraw name).trans (h.raw name), haliases, hcached, hchain ▸ h.nodup,
    hchain ▸ h.known, hblocks ▸ h.blocks, hindent ▸ h.indent⟩

/-- The state after a run, if only escaped sources were cached. -/
theorem of_run {task : Task} {code : Text} (hrun : Runs fs task s code t)
    (hcached : ∀ name source, t.view.cached.get? name = some source →
      escapedSource? fs c name = some source) : Descending fs c names t :=
  h.of_scope hrun.scope_eq (hrun.hookFree h.hookFree).aliases hcached

end Descending

/-- The task defines nothing and refers to one of the names. Nothing is compiled apart. -/
def Task.Among (names : Text → Prop) : Task → Prop
  | .text source => source.Among names
  | .nodes ns => ∀ n ∈ ns, n.Among names ∧ n.BlankIndent
  | .node n => n.Among names ∧ n.BlankIndent
  | .read name => names name
  | .unit _ => True
  | .apart _ => False
  | .embed name => names name

section Descending

variable {fs : FileSystem} {c : Context} {names : Text → Prop}
  (hsources : ∀ name source, names name → escapedSource? fs c name = some source →
    source.Among names)

theorem among_nodes {source : Text} (h : source.Among names) :
    (Task.nodes source.nodes).Among names :=
  fun _ hn => ⟨h.node hn, Node.blankIndent_of_mem hn⟩

theorem isBlank_of_blankIndent {target : Reference} {indent : Option Text}
    (h : (Node.reference target indent).BlankIndent) : ∀ d ∈ indent.getD [], isBlank d = true :=
  h.isBlank

include hsources in
/-- In a run that embeds, only escaped sources are cached. -/
theorem Runs.cached_exact {task : Task} {s t : Compilation} {code : Text}
    (h : Runs fs task s code t) (hs : Descending fs c names s) (htask : task.Among names) :
    ∀ name source, t.view.cached.get? name = some source →
      escapedSource? fs c name = some source := by
  induction h with
  | text _ ih => exact ih (hs.emit _) (among_nodes htask)
  | nil => exact hs.cached
  | cons h₁ h₂ ih₁ ih₂ =>
      obtain ⟨hn, hns⟩ := List.forall_mem_cons.mp htask
      exact ih₂ (hs.of_run h₁ (ih₁ hs hn)) hns
  | literal => exact hs.cached
  | «variable» => exact hs.cached
  | dispatched h₁ _ ih =>
      exact ih (hs.atIndent (isBlank_of_blankIndent htask.2)) (htask.1.dispatches rfl)
  | @embedded name indent s u s₁ code t h₁ _ h₂ ih₁ ih₂ =>
      have hs₁ := hs.atIndent (isBlank_of_blankIndent htask.2)
      have hname : names name := htask.1.dispatches rfl
      have hread := hs₁.of_run h₁ (ih₁ hs₁ hname)
      rw [hread.hookFree.resolvedName_eq, hread.hookFree.resolvedName_eq] at ih₂
      exact ih₂ hread hname
  | @dynamic expr indent s =>
      have hs₁ := hs.atIndent (isBlank_of_blankIndent htask.2)
      exact ((hs₁.counted Counter.dynamicReferences).dynamicNoted expr).cached
  | @enclosed body outer indent s code t hblocks h ih =>
      have hindent := isBlank_of_blankIndent htask.2
      have hbodies : ∀ b ∈ body :: outer, b.Among names := hblocks ▸ hs.blocks
      obtain ⟨hbody, houter⟩ := List.forall_mem_cons.mp hbodies
      exact ih ((hs.atIndent hindent).inBlocks houter) (hbody.indentLines hindent)
  | enclosedCall => exact hs.cached
  | notEnclosed => exact hs.cached
  | @blockDispatched name body closed s u s₁ unit t h₁ hruntime _ ih₁ _ =>
      have hs₁ := (hs.closeChecked name closed).atIndent (w := []) (by simp)
      have hread := hs₁.of_run h₁ (ih₁ hs₁ (htask.1.dispatches rfl))
      exact absurd hruntime (Bool.eq_false_iff.mp hread.embeds)
  | @blockEmbedded name body closed s u s₁ code t h₁ _ h₂ ih₁ ih₂ =>
      have hs₁ := (hs.closeChecked name closed).atIndent (w := []) (by simp)
      have hname : names name := htask.1.dispatches rfl
      have hread := hs₁.of_run h₁ (ih₁ hs₁ hname)
      have hbodies := hread.inBlocks (List.forall_mem_cons.mpr ⟨htask.1.body, hread.blocks⟩)
      rw [hread.hookFree.resolvedName_eq, hread.hookFree.resolvedName_eq] at ih₂
      exact ih₂ hbodies hname
  | inlineKnown => exact absurd htask.1 Node.not_among_inlinePartial
  | inlineNew => exact absurd htask.1 Node.not_among_inlinePartial
  | strayClose => exact hs.cached
  | readKnown => exact hs.cached
  | @readMissing name s _ _ => exact ((hs.counted Counter.references).missed name).cached
  | @readFound name s raw source target u t _ hraw hparts h ih =>
      have hcounted := hs.counted Counter.references
      obtain ⟨rfl, rfl⟩ := hcounted.hookFree.parts_eq hparts
      refine ih ?_ trivial
      -- without preprocessing the source is cached under its own name
      rw [hcounted.hookFree.preprocessed_eq]
      exact hcounted.cache ((hs.raw name).symm.trans hraw)
  | unitIdle => exact hs.cached
  | unitNew hruntime => exact absurd hruntime (Bool.eq_false_iff.mp hs.embeds)
  | apart => exact htask.elim
  | @embedMissing name s _ => exact (hs.missedOnce name).cached
  | embedOpen _ hruntime => exact absurd hruntime (Bool.eq_false_iff.mp hs.embeds)
  | @embedGuarded name s source code t hsource _ hnodup h ih =>
      have hfound := hs.cached name source hsource
      have henter := hs.enter htask (by rw [hfound]; exact Option.some_ne_none _)
        (List.nodup_cons.mp hnodup).1
      exact ih henter ((hsources name source htask hfound).embedded henter.indent)
  | embedRepeated => exact hs.cached

include hsources in
theorem Runs.descending {task : Task} {s t : Compilation} {code : Text}
    (h : Runs fs task s code t) (hs : Descending fs c names s) (htask : task.Among names) :
    Descending fs c names t :=
  hs.of_run h (h.cached_exact hsources hs htask)

/-- A name that was read has its own source, if it has one. -/
theorem Runs.get?_read {name : Text} {s t : Compilation} {code : Text}
    (h : Runs fs (.read name) s code t) (hs : Descending fs c names s) :
    t.view.cached.get? name = escapedSource? fs c name := by
  cases h with
  | readKnown hknown =>
      rw [hs.hookFree.resolvedName_eq] at hknown
      obtain ⟨source, hsource⟩ := OrderedMap.mem_iff_exists_get?.mp hknown
      exact hsource.trans (hs.cached name source hsource).symm
  | readMissing hunknown hnone =>
      rw [hs.hookFree.resolvedName_eq] at hunknown
      rw [cached_missed, escapedSource?, ← hs.raw, hnone]
      exact OrderedMap.get?_eq_none_iff.mpr hunknown
  | readFound hunknown hraw hparts h =>
      have hcounted := hs.counted Counter.references
      obtain ⟨rfl, rfl⟩ := hcounted.hookFree.parts_eq hparts
      rw [hs.hookFree.resolvedName_eq] at hunknown
      rw [hcounted.hookFree.preprocessed_eq] at h
      have hnew := h.grows.cached name _ (OrderedMap.get?_insertIfNew_self hunknown _)
      rw [hnew, escapedSource?, ← hs.raw, hraw]
      rfl

include hsources in
theorem Starts.descending {task task' : Task} {s s' : Compilation}
    (h : Starts fs task s task' s') (hs : Descending fs c names s) (htask : task.Among names) :
    Descending fs c names s' ∧ task'.Among names := by
  cases h with
  | text => exact ⟨hs.emit _, among_nodes htask⟩
  | head => exact ⟨hs, (List.forall_mem_cons.mp htask).1⟩
  | tail hnode =>
      obtain ⟨hn, hns⟩ := List.forall_mem_cons.mp htask
      exact ⟨hnode.descending hsources hs hn, hns⟩
  | referenceRead => exact ⟨hs.atIndent (isBlank_of_blankIndent htask.2), htask.1.dispatches rfl⟩
  | @referenceEmbed name indent s u s₁ hread hruntime =>
      have hname : names name := htask.1.dispatches rfl
      have hs₁ := hread.descending hsources (hs.atIndent (isBlank_of_blankIndent htask.2)) hname
      rw [hs₁.hookFree.resolvedName_eq, hs₁.hookFree.resolvedName_eq]
      exact ⟨hs₁, hname⟩
  | @enclosed body outer indent s hblocks =>
      have hindent := isBlank_of_blankIndent htask.2
      have hbodies : ∀ b ∈ body :: outer, b.Among names := hblocks ▸ hs.blocks
      obtain ⟨hbody, houter⟩ := List.forall_mem_cons.mp hbodies
      exact ⟨(hs.atIndent hindent).inBlocks houter, hbody.indentLines hindent⟩
  | @blockRead name body closed s =>
      exact ⟨(hs.closeChecked name closed).atIndent (w := []) (by simp), htask.1.dispatches rfl⟩
  | @blockApart name body closed s u s₁ hread hruntime =>
      rw [hread.flags_eq] at hruntime
      exact absurd hruntime (Bool.eq_false_iff.mp (hs.closeChecked name closed).embeds)
  | @blockEmbed name body closed s u s₁ hread hruntime =>
      have hname : names name := htask.1.dispatches rfl
      have hs₁ := hread.descending hsources
        ((hs.closeChecked name closed).atIndent (w := []) (by simp)) hname
      rw [hs₁.hookFree.resolvedName_eq, hs₁.hookFree.resolvedName_eq]
      exact ⟨hs₁.inBlocks (List.forall_mem_cons.mpr ⟨htask.1.body, hs₁.blocks⟩), hname⟩
  | inline => exact absurd htask.1 Node.not_among_inlinePartial
  | @found name s raw source target _ hraw hparts =>
      have hcounted := hs.counted Counter.references
      obtain ⟨rfl, rfl⟩ := hcounted.hookFree.parts_eq hparts
      rw [hcounted.hookFree.preprocessed_eq]
      exact ⟨hcounted.cache ((hs.raw name).symm.trans hraw), trivial⟩
  | unit hruntime => exact absurd hruntime (Bool.eq_false_iff.mp hs.embeds)
  | apart => exact htask.elim
  | embedOpen _ hruntime => exact absurd hruntime (Bool.eq_false_iff.mp hs.embeds)
  | @embedGuarded name s source hsource _ hnodup =>
      have hfound := hs.cached name source hsource
      have henter := hs.enter htask (by rw [hfound]; exact Option.some_ne_none _)
        (List.nodup_cons.mp hnodup).1
      exact ⟨henter, (hsources name source htask hfound).embedded henter.indent⟩

include hsources in
theorem Meets.descending {task task' : Task} {s s' : Compilation}
    (h : Meets fs task s task' s') (hs : Descending fs c names s) (htask : task.Among names) :
    Descending fs c names s' ∧ task'.Among names := by
  induction h with
  | here => exact ⟨hs, htask⟩
  | step _ hstarts ih => exact hstarts.descending hsources ih.1 ih.2

end Descending

/-! ## Where a recursion is reported -/

/-- On its way the task comes to a name that is being embedded already, and this is the path. -/
def Repeats (fs : FileSystem) (path : List Text) (task : Task) (s : Compilation) : Prop :=
  ∃ name s' source, Meets fs task s (.embed name) s' ∧ s'.view.cached.get? name = some source ∧
    ¬ (name :: s'.view.chain).Nodup ∧ path = (name :: s'.view.chain).reverse

section Repeating

variable {fs : FileSystem} {path : List Text}

theorem Repeats.of_starts {task task' : Task} {s s' : Compilation}
    (h : Repeats fs path task' s') (hstarts : Starts fs task s task' s') :
    Repeats fs path task s := by
  obtain ⟨name, s'', source, hmeets, hsource, hrepeated, hpath⟩ := h
  exact ⟨name, s'', source, hstarts.meets hmeets, hsource, hrepeated, hpath⟩

theorem recursive_of_report {d : Diagnostic} {s : Compilation}
    (h : .recursivePartial path ∈ (s.mapView (·.report d)).view.diagnostics)
    (hd : d ≠ .recursivePartial path) : .recursivePartial path ∈ s.view.diagnostics := by
  rcases List.mem_append.mp h with h | h
  · exact h
  · exact absurd (List.mem_singleton.mp h).symm hd

theorem recursive_of_missed {name : Text} {s : Compilation}
    (h : .recursivePartial path ∈ (s.missed name).view.diagnostics) :
    .recursivePartial path ∈ s.view.diagnostics := by
  unfold missed at h
  split at h
  · exact h
  · exact recursive_of_report h nofun

theorem recursive_of_missedOnce {name : Text} {s : Compilation}
    (h : .recursivePartial path ∈ (s.missedOnce name).view.diagnostics) :
    .recursivePartial path ∈ s.view.diagnostics := by
  unfold missedOnce at h
  split at h
  · exact recursive_of_report h nofun
  · exact h

theorem recursive_of_dynamicNoted {expr : Text} {s : Compilation}
    (h : .recursivePartial path ∈ (dynamicNoted expr s).view.diagnostics) :
    .recursivePartial path ∈ s.view.diagnostics := by
  unfold dynamicNoted at h
  split at h
  · exact recursive_of_report h nofun
  · exact h

theorem recursive_of_closeChecked {name : Text} {closed : Bool} {s : Compilation}
    (h : .recursivePartial path ∈ (closeChecked name closed s).view.diagnostics) :
    .recursivePartial path ∈ s.view.diagnostics := by
  cases closed with
  | true => exact h
  | false => exact recursive_of_report h nofun

/-- A reported recursion was reported before, or is one that the task comes to. -/
theorem Runs.repeats {task : Task} {s t : Compilation} {code : Text} (h : Runs fs task s code t)
    (hpath : .recursivePartial path ∈ t.view.diagnostics) :
    .recursivePartial path ∈ s.view.diagnostics ∨ Repeats fs path task s := by
  induction h with
  | text _ ih => exact (ih hpath).imp_right (·.of_starts .text)
  | nil => exact .inl hpath
  | cons h₁ _ ih₁ ih₂ =>
      rcases ih₂ hpath with h | h
      · exact (ih₁ h).imp_right (·.of_starts .head)
      · exact .inr (h.of_starts (.tail h₁))
  | literal => exact .inl hpath
  | «variable» => exact .inl hpath
  | dispatched _ _ ih => exact (ih hpath).imp_right (·.of_starts .referenceRead)
  | embedded h₁ hruntime _ ih₁ ih₂ =>
      rcases ih₂ hpath with h | h
      · exact (ih₁ h).imp_right (·.of_starts .referenceRead)
      · exact .inr (h.of_starts (.referenceEmbed h₁ hruntime))
  | @dynamic expr indent s =>
      have h : .recursivePartial path ∈
          ((atIndent (indent.getD []) s).counted Counter.dynamicReferences).view.diagnostics :=
        recursive_of_dynamicNoted hpath
      exact .inl h
  | enclosed hblocks _ ih => exact (ih hpath).imp_right (·.of_starts (.enclosed hblocks))
  | enclosedCall => exact .inl hpath
  | notEnclosed => exact .inl (recursive_of_report hpath nofun)
  | blockDispatched h₁ hruntime _ ih₁ ih₂ =>
      rcases ih₂ hpath with h | h
      · rcases ih₁ h with h | h
        · exact .inl (recursive_of_closeChecked h)
        · exact .inr (h.of_starts .blockRead)
      · exact .inr (h.of_starts (.blockApart h₁ hruntime))
  | blockEmbedded h₁ hruntime _ ih₁ ih₂ =>
      rcases ih₂ hpath with h | h
      · rcases ih₁ h with h | h
        · exact .inl (recursive_of_closeChecked h)
        · exact .inr (h.of_starts .blockRead)
      · exact .inr (h.of_starts (.blockEmbed h₁ hruntime))
  | inlineKnown => exact .inl (recursive_of_closeChecked hpath)
  | inlineNew hnew _ ih =>
      exact (ih hpath).imp recursive_of_closeChecked (·.of_starts (.inline hnew))
  | strayClose => exact .inl (recursive_of_report hpath nofun)
  | readKnown => exact .inl hpath
  | @readMissing name s _ _ =>
      have h := recursive_of_missed (s := s.counted Counter.references) hpath
      exact .inl h
  | @readFound name s raw source target u t hnew hraw hparts _ ih =>
      have hsame : ((s.counted Counter.references).preprocessed raw name).view.diagnostics =
          s.view.diagnostics := by
        unfold preprocessed
        split <;> rfl
      exact (ih hpath).imp (hsame ▸ ·) (·.of_starts (.found hnew hraw hparts))
  | unitIdle => exact .inl hpath
  | unitNew hruntime hnew hsource _ ih =>
      exact (ih hpath).imp_right (·.of_starts (.unit hruntime hnew hsource))
  | apart _ ih =>
      rcases List.mem_append.mp hpath with h | h
      · exact .inl h
      · exact (ih (List.mem_of_mem_drop h)).imp_right (·.of_starts .apart)
  | embedMissing => exact .inl (recursive_of_missedOnce hpath)
  | embedOpen hsource hruntime _ ih =>
      exact (ih hpath).imp_right (·.of_starts (.embedOpen hsource hruntime))
  | embedGuarded hsource hruntime hnodup _ ih =>
      exact (ih hpath).imp_right (·.of_starts (.embedGuarded hsource hruntime hnodup))
  | @embedRepeated name s source hsource _ hrepeated =>
      rcases List.mem_append.mp hpath with h | h
      · exact .inl h
      · -- nowhere else is a path reported
        obtain rfl := Diagnostic.recursivePartial.inj (List.mem_singleton.mp h)
        exact .inr ⟨name, s, source, .here, hsource, hrepeated, rfl⟩

/-- Reading partials reports no recursion where they are embedded. -/
theorem ReadsAll.recursive {names : List Text} {s t : Compilation} (h : ReadsAll fs names s t)
    (hembeds : s.view.flags.runtime = false)
    (hpath : .recursivePartial path ∈ t.view.diagnostics) :
    .recursivePartial path ∈ s.view.diagnostics := by
  induction h with
  | nil => exact hpath
  | cons hread _ ih =>
      rcases hread.repeats (ih ((congrArg Flags.runtime hread.flags_eq).trans hembeds) hpath) with
        h | ⟨_, _, _, hmeets, _⟩
      · exact h
      · rcases hmeets.of_read hembeds with ⟨h, -⟩ | ⟨_, h⟩ <;> cases h

end Repeating

/-! ## Bodies in the place of references -/

/-- Starting with the task, a body with these calls is put in the place of an enclosing-block
reference while the chain is embedded. -/
def Placed (fs : FileSystem) (task : Task) (start : Compilation) (chain calls : List Text) :
    Prop :=
  ∃ indent s body outer, Meets fs task start (.node (.reference .block indent)) s ∧
    s.view.blocks = body :: outer ∧ s.view.chain = chain ∧ body.dispatched = calls

section Placing

variable {fs : FileSystem} {c : Context} {names : Text → Prop}
  (hsources : ∀ name source, names name → escapedSource? fs c name = some source →
    source.Among names)
  {template : Text} {start : Compilation}

/-- How the texts that the task compiles itself were come to. -/
def Task.Opened (fs : FileSystem) (c : Context) (template : Text) (start s : Compilation) :
    Task → Prop
  | .text source => Inlay.Opened (escapedSource? fs c) template.dispatched
      (Placed fs (.text template) start) s.view.chain source.dispatched
  | .nodes ns => ∃ calls, Inlay.Opened (escapedSource? fs c) template.dispatched
      (Placed fs (.text template) start) s.view.chain calls ∧
        ∀ n ∈ ns, ∀ name, n.dispatches? = some name → name ∈ calls
  | .node n => ∃ calls, Inlay.Opened (escapedSource? fs c) template.dispatched
      (Placed fs (.text template) start) s.view.chain calls ∧
        ∀ name, n.dispatches? = some name → name ∈ calls
  | .embed name => ∃ calls, Inlay.Opened (escapedSource? fs c) template.dispatched
      (Placed fs (.text template) start) s.view.chain calls ∧ name ∈ calls
  | _ => True

include hsources in
theorem Meets.opened {task : Task} {s : Compilation} (h : Meets fs (.text template) start task s)
    (hstart : Descending fs c names start) (htemplate : template.Among names)
    (hchain : start.view.chain = []) : task.Opened fs c template start s := by
  induction h with
  | here =>
      show Inlay.Opened _ _ _ start.view.chain _
      rw [hchain]
      exact .template
  | @step task₁ s₁ task₂ s₂ hmeets hstarts ih =>
      obtain ⟨hs₁, htask₁⟩ := hmeets.descending hsources hstart htemplate
      cases hstarts with
      | @text source =>
          exact ⟨_, ih, fun n hn name hname => List.mem_filterMap.mpr ⟨n, hn, hname⟩⟩
      | head =>
          obtain ⟨calls, hopened, hcalls⟩ := ih
          exact ⟨calls, hopened, hcalls _ List.mem_cons_self⟩
      | tail hnode =>
          obtain ⟨calls, hopened, hcalls⟩ := ih
          refine ⟨calls, ?_, fun n hn => hcalls n (List.mem_cons_of_mem _ hn)⟩
          rw [hnode.chain_eq]
          exact hopened
      | referenceRead => trivial
      | @referenceEmbed name indent _ u _ hread hruntime =>
          obtain ⟨calls, hopened, hcalls⟩ := ih
          have hs₂ := hread.descending hsources (hs₁.atIndent (isBlank_of_blankIndent htask₁.2))
            (htask₁.1.dispatches rfl)
          rw [hs₂.hookFree.resolvedName_eq, hs₂.hookFree.resolvedName_eq]
          refine ⟨calls, ?_, hcalls name rfl⟩
          rw [hread.chain_eq]
          exact hopened
      | @enclosed body outer indent _ hblocks =>
          -- the body is no source of the last name on the chain, so a way starts with its calls
          have hcalls := Text.dispatched_indentLines (isBlank_of_blankIndent htask₁.2) body
          exact .placed ⟨indent, s₁, body, outer, hmeets, hblocks, rfl, hcalls.symm⟩
      | blockRead => trivial
      | blockApart => trivial
      | @blockEmbed name body closed _ u s₂ hread hruntime =>
          obtain ⟨calls, hopened, hcalls⟩ := ih
          have hclosed := (hs₁.closeChecked name closed).atIndent (w := []) (by simp)
          have hs₂ := hread.descending hsources hclosed (htask₁.1.dispatches rfl)
          rw [hs₂.hookFree.resolvedName_eq, hs₂.hookFree.resolvedName_eq]
          refine ⟨calls, ?_, hcalls name rfl⟩
          have hsame : (closeChecked name closed s₁).view.chain = s₁.view.chain := by
            cases closed <;> rfl
          show Inlay.Opened _ _ _ s₂.view.chain calls
          rw [hread.chain_eq.trans hsame]
          exact hopened
      | inline => trivial
      | found => trivial
      | unit => trivial
      | apart => exact htask₁.elim
      | embedOpen _ hruntime => exact absurd hruntime (Bool.eq_false_iff.mp hs₁.embeds)
      | @embedGuarded name _ source hsource _ hnodup =>
          obtain ⟨calls, hopened, hname⟩ := ih
          have hfound := hs₁.cached name source hsource
          show Inlay.Opened _ _ _ (name :: s₁.view.chain) _
          rw [Text.dispatched_embedded hs₁.indent]
          exact .source hopened hname hfound (List.nodup_cons.mp hnodup).1

include hsources in
/-- A recursion that is reported is a way back from a body that was put in the place of a
reference, if no name refers back to itself. -/
theorem Repeats.placed {path : List Text} (h : Repeats fs path (.text template) start)
    (hstart : Descending fs c names start) (htemplate : template.Among names)
    (hchain : start.view.chain = [])
    (hacyclic : ∀ name, names name → ¬ Relation.TransGen (Cites (escapedSource? fs c)) name name) :
    ∃ chain calls way again, Placed fs (.text template) start chain calls ∧ again ∈ chain ∧
      LeadsBack (escapedSource? fs c) chain calls way again ∧
      path = chain.reverse ++ (way ++ [again]) := by
  obtain ⟨name, s, source, hmeets, -, hrepeated, rfl⟩ := h
  obtain ⟨hs, -⟩ := hmeets.descending hsources hstart htemplate
  obtain ⟨calls, hopened, hname⟩ := hmeets.opened hsources hstart htemplate hchain
  have hmem : name ∈ s.view.chain := by
    by_contra hnew
    exact hrepeated (List.nodup_cons.mpr ⟨hnew, hs.nodup⟩)
  obtain ⟨chain, calls', way, hplaced, hmem', hback, hway⟩ :=
    hopened.leadsBack (fun other hother => hacyclic other (hs.known other hother).1)
      (.back hname hmem) hmem
  refine ⟨chain, calls', way, name, hplaced, hmem', hback, ?_⟩
  rw [List.reverse_cons, ← List.append_assoc, ← hway, List.append_nil]

/-! ## Ways back are reported -/

theorem Descending.sourced {s : Compilation} (h : Descending fs c names s) : s.names.Sourced := by
  intro name target halias
  have hempty : s.view.aliases.get? name = some target := halias
  rw [h.aliases, OrderedMap.get?_empty] at hempty
  cases hempty

/-- Every node is compiled. -/
theorem Runs.exists_meets_node {ns : List Node} {s t : Compilation} {code : Text}
    (h : Runs fs (.nodes ns) s code t) {n : Node} (hn : n ∈ ns) :
    ∃ s', Meets fs (.nodes ns) s (.node n) s' ∧ s'.scope = s.scope := by
  induction ns generalizing s code with
  | nil => cases hn
  | cons first ns ih =>
      cases h with
      | cons hfirst hrest =>
          rcases List.mem_cons.mp hn with rfl | hn
          · exact ⟨s, .step .here .head, rfl⟩
          · obtain ⟨s', hmeets, hscope⟩ := ih hrest hn
            exact ⟨s', (Starts.tail hfirst).meets hmeets, hscope.trans hfirst.scope_eq⟩

include hsources in
/-- Every call of a text comes to embed the source of its name. -/
theorem Runs.exists_meets_embed {text name : Text} {s t : Compilation} {code : Text}
    (h : Runs fs (.text text) s code t) (hs : Descending fs c names s) (htext : text.Among names)
    (hname : name ∈ text.dispatched) :
    ∃ s', Meets fs (.text text) s (.embed name) s' ∧ s'.view.chain = s.view.chain ∧
      s'.view.cached.get? name = escapedSource? fs c name := by
  obtain ⟨n, hn, hcall⟩ := List.mem_filterMap.mp hname
  cases h with
  | text hnodes =>
      obtain ⟨s₁, hmeets, hscope⟩ := hnodes.exists_meets_node hn
      have hmeets := Starts.text.meets hmeets
      obtain ⟨hs₁, hamong, hblank⟩ := hmeets.descending hsources hs htext
      have hchain : s₁.view.chain = s.view.chain := congrArg (fun c => c.chain) hscope
      cases n with
      | reference target indent =>
          cases target with
          | named other =>
              obtain rfl := Option.some.inj hcall
              have hs₂ := hs₁.atIndent (isBlank_of_blankIndent hblank)
              obtain ⟨s₂, hread⟩ := exists_read_embedding fs hs₂.embeds other
              have hs₃ := hread.descending hsources hs₂ (hamong.dispatches rfl)
              have hembed := hmeets.step (.referenceEmbed hread hs₃.embeds)
              rw [hs₃.hookFree.resolvedName_eq, hs₃.hookFree.resolvedName_eq] at hembed
              exact ⟨s₂, hembed, hread.chain_eq.trans hchain, hread.get?_read hs₂⟩
          | _ => cases hcall
      | block other body closed =>
          obtain rfl := Option.some.inj hcall
          have hs₂ := (hs₁.closeChecked other closed).atIndent (w := []) (by simp)
          obtain ⟨s₂, hread⟩ := exists_read_embedding fs hs₂.embeds other
          have hs₃ := hread.descending hsources hs₂ (hamong.dispatches rfl)
          have hembed := hmeets.step (.blockEmbed hread hs₃.embeds)
          rw [hs₃.hookFree.resolvedName_eq, hs₃.hookFree.resolvedName_eq] at hembed
          have hsame : (atIndent [] (closeChecked other closed s₁)).view.chain = s₁.view.chain := by
            cases closed <;> rfl
          exact ⟨_, hembed, hread.chain_eq.trans (hsame.trans hchain), hread.get?_read hs₂⟩
      | _ => cases hcall

include hsources in
/-- In the run of a text, every way back from its calls is reported. -/
theorem reported_of_leadsBack {chain calls way : List Text} {again : Text}
    (h : LeadsBack (escapedSource? fs c) chain calls way again) :
    ∀ {text : Text} {s t : Compilation} {code : Text}, Runs fs (.text text) s code t →
      Descending fs c names s → text.Among names → s.view.chain = chain →
      text.dispatched = calls →
      .recursivePartial (chain.reverse ++ (way ++ [again])) ∈ t.view.diagnostics := by
  induction h with
  | @back chain calls name hname hmem =>
      rintro text s t code hrun hs htext rfl rfl
      obtain ⟨s', hmeets, hchain, hcached⟩ := hrun.exists_meets_embed hsources hs htext hname
      obtain ⟨hs', -⟩ := hmeets.descending hsources hs htext
      obtain ⟨_, t', hembed, -, hgrows⟩ := hmeets.exists_run hrun hs.sourced
      refine hgrows.diagnostics.subset ?_
      -- the name has a source and is on the chain, so the guard does not let it in
      cases hembed with
      | embedMissing hnone => exact absurd (hcached.symm.trans hnone) (hs.known name hmem).2
      | embedOpen _ hruntime => exact absurd hruntime (Bool.eq_false_iff.mp hs'.embeds)
      | embedGuarded _ _ hnodup => exact absurd (hchain ▸ hmem) (List.nodup_cons.mp hnodup).1
      | embedRepeated =>
          refine List.mem_append_right _ (List.mem_singleton.mpr ?_)
          rw [hchain, List.reverse_cons]
          rfl
  | @through chain calls name source way again hname hfound hnew _ ih =>
      rintro text s t code hrun hs htext rfl rfl
      obtain ⟨s', hmeets, hchain, hcached⟩ := hrun.exists_meets_embed hsources hs htext hname
      obtain ⟨hs', hembed'⟩ := hmeets.descending hsources hs htext
      obtain ⟨_, t', hembed, -, hgrows⟩ := hmeets.exists_run hrun hs.sourced
      refine hgrows.diagnostics.subset ?_
      rw [hfound] at hcached
      cases hembed with
      | embedMissing hnone => simp [hcached] at hnone
      | embedOpen _ hruntime => exact absurd hruntime (Bool.eq_false_iff.mp hs'.embeds)
      | embedGuarded hsource _ hnodup hinner =>
          obtain rfl := Option.some.inj (hcached.symm.trans hsource)
          have henter := hs'.enter hembed' (by rw [hfound]; exact Option.some_ne_none _)
            (List.nodup_cons.mp hnodup).1
          have hamong := (hsources name _ hembed' hfound).embedded henter.indent
          have hreported := ih hinner henter hamong (congrArg (name :: ·) hchain)
            (Text.dispatched_embedded hs'.indent _)
          rw [List.reverse_cons, List.append_assoc] at hreported
          exact hreported
      | embedRepeated _ _ hrepeated =>
          exact absurd (List.nodup_cons.mpr ⟨hchain ▸ hnew, hs'.nodup⟩) hrepeated

include hsources in
/-- In the run of a text, every way back from a body that is put in the place of a reference is
reported. -/
theorem Placed.reported {chain calls way : List Text} {again : Text} {t : Compilation} {code : Text}
    (h : Placed fs (.text template) start chain calls)
    (hback : LeadsBack (escapedSource? fs c) chain calls way again)
    (hrun : Runs fs (.text template) start code t) (hstart : Descending fs c names start)
    (htemplate : template.Among names) :
    .recursivePartial (chain.reverse ++ (way ++ [again])) ∈ t.view.diagnostics := by
  obtain ⟨indent, s, body, outer, hmeets, hblocks, rfl, rfl⟩ := h
  have hbody := hmeets.step (.enclosed hblocks)
  obtain ⟨-, -, hblank⟩ := hmeets.descending hsources hstart htemplate
  obtain ⟨hs, hamong⟩ := hbody.descending hsources hstart htemplate
  obtain ⟨_, t', hrun', -, hgrows⟩ := hbody.exists_run hrun hstart.sourced
  have hcalls := Text.dispatched_indentLines (isBlank_of_blankIndent hblank) body
  exact hgrows.diagnostics.subset
    (reported_of_leadsBack hsources hback hrun' hs hamong rfl hcalls)

end Placing

/-! ## Compilations -/

/-- A partial of this name can be reached along references from one of the names. -/
def Reached (found? : Text → Option Text) (starts : List Text) (name : Text) : Prop :=
  ∃ start ∈ starts, Relation.ReflTransGen (Cites found?) start name

/-- What the guard against recursion reports where partials are embedded and nothing is
defined, if no partial that the template reaches refers back to itself. A path is reported
exactly if a block body is put in the place of an enclosing-block reference while the partials
on the chain are embedded, and its calls lead back to one of them. -/
theorem recursion_reported_iff (fs : FileSystem) (options : Options) (template : Text)
    (hembeds : options.flags.runtime = false) (htemplate : template.escape.Undefining)
    (hsources : ∀ name source,
      Reached (escapedSource? fs (Context.start options none fs)) template.escape.references name →
      escapedSource? fs (Context.start options none fs) name = some source → source.Undefining)
    (hacyclic : ∀ name,
      Reached (escapedSource? fs (Context.start options none fs)) template.escape.references name →
      ¬ Relation.TransGen (Cites (escapedSource? fs (Context.start options none fs))) name name) :
    ∃ outcome, compile fs options none template = some outcome ∧
      ∀ path, .recursivePartial path ∈ outcome.diagnostics ↔ ∃ chain calls way again,
        Placed fs (.text template.escape) (initial options none fs) chain calls ∧ again ∈ chain ∧
          LeadsBack (escapedSource? fs (Context.start options none fs)) chain calls way again ∧
          path = chain.reverse ++ (way ++ [again]) := by
  obtain ⟨code, middle, final, hrun, hcompiles⟩ := exists_compiles fs options template
  have hstart : Descending fs (Context.start options none fs)
      (Reached (escapedSource? fs (Context.start options none fs)) template.escape.references)
      (initial options none fs) :=
    ⟨rfl, hembeds, fun _ => rfl, rfl, fun _ _ h => (nomatch h), List.nodup_nil,
      fun _ h => (nomatch h), fun _ h => (nomatch h), fun _ h => (nomatch h)⟩
  have hamong : template.escape.Among
      (Reached (escapedSource? fs (Context.start options none fs)) template.escape.references) :=
    htemplate.among fun name hname => ⟨name, hname, .refl⟩
  have hclosed : ∀ name source, Reached (escapedSource? fs (Context.start options none fs))
      template.escape.references name →
      escapedSource? fs (Context.start options none fs) name = some source → source.Among
        (Reached (escapedSource? fs (Context.start options none fs))
          template.escape.references) := by
    rintro name source ⟨start, hmem, hreach⟩ hsource
    refine (hsources name source ⟨start, hmem, hreach⟩ hsource).among fun other hother => ?_
    exact ⟨start, hmem, hreach.tail ⟨source, hsource, hother⟩⟩
  have hmiddle : middle.view.flags.runtime = false :=
    (congrArg Flags.runtime hcompiles.runs.flags_eq).trans hembeds
  refine ⟨Outcome.ofRun (code, final), by unfold compile; rw [hrun]; rfl, fun path => ⟨?_, ?_⟩⟩
  · intro hpath
    rcases hcompiles.runs.repeats (hcompiles.reads.recursive hmiddle hpath) with h | hrepeats
    · cases h
    · exact hrepeats.placed hclosed hstart hamong rfl hacyclic
  · rintro ⟨chain, calls, way, again, hplaced, -, hback, rfl⟩
    have hreported := hplaced.reported hclosed hback hcompiles.runs hstart hamong
    exact hcompiles.reads.grows.diagnostics.subset hreported

/-- Puts the body of its block between brackets. -/
def layoutSource : Text :=
  "<\x7b\x7b> @partial-block\x7d\x7d>".toList

def layoutOptions : Options :=
  { Options.standard with partials := .ofList [("layout".toList, layoutSource)] }

/-- A block of the layout, with the layout itself in its body. -/
def layoutTemplate : Text :=
  "\x7b\x7b#> layout\x7d\x7d\x7b\x7b> layout\x7d\x7d\x7b\x7b/layout\x7d\x7d".toList

theorem layout_source {name source : Text}
    (h : escapedSource? (.emptyAt ['/']) (Context.start layoutOptions none (.emptyAt ['/'])) name =
      some source) : source.Undefining ∧ source.references = [] := by
  have hall : ∀ raw ∈ rawTexts (.emptyAt ['/'])
      (Context.start layoutOptions none (.emptyAt ['/'])).toView layoutSource,
      raw.escape.Undefining ∧ raw.escape.references = [] := by
    decide +kernel
  obtain ⟨raw, hraw, rfl⟩ := Option.map_eq_some_iff.mp h
  exact hall raw (mem_rawTexts_of_rawSource? hraw layoutSource)

theorem recursion_reported_iff_layout :
    layoutOptions.flags.runtime = false ∧ layoutTemplate.escape.Undefining ∧
    (∀ name, ¬ Relation.TransGen (Cites (escapedSource? (.emptyAt ['/'])
      (Context.start layoutOptions none (.emptyAt ['/'])))) name name) ∧
    ∃ outcome, compile (.emptyAt ['/']) layoutOptions none layoutTemplate = some outcome ∧
      .recursivePartial ["layout".toList, "layout".toList] ∈ outcome.diagnostics ∧
      ∃ chain calls way again, Placed (.emptyAt ['/']) (.text layoutTemplate.escape)
          (initial layoutOptions none (.emptyAt ['/'])) chain calls ∧ again ∈ chain ∧
        LeadsBack (escapedSource? (.emptyAt ['/'])
          (Context.start layoutOptions none (.emptyAt ['/']))) chain calls way again ∧
        ["layout".toList, "layout".toList] = chain.reverse ++ (way ++ [again]) := by
  have hundefining : layoutTemplate.escape.Undefining := by decide +kernel
  have hacyclic : ∀ name, ¬ Relation.TransGen (Cites (escapedSource? (.emptyAt ['/'])
      (Context.start layoutOptions none (.emptyAt ['/'])))) name name := by
    intro name hcycle
    obtain ⟨next, ⟨source, hsource, hnext⟩, -⟩ := Relation.TransGen.head'_iff.mp hcycle
    rw [(layout_source hsource).2] at hnext
    cases hnext
  obtain ⟨outcome, hcompile, hreported⟩ := recursion_reported_iff (.emptyAt ['/']) layoutOptions
    layoutTemplate rfl hundefining (fun _ _ _ h => (layout_source h).1) fun name _ => hacyclic name
  have hdiagnostics : (compile (.emptyAt ['/']) layoutOptions none layoutTemplate).map
      (fun o => o.diagnostics) =
        some [.recursivePartial ["layout".toList, "layout".toList]] := by
    decide +kernel
  rw [hcompile] at hdiagnostics
  have hdiagnostics : outcome.diagnostics =
      [.recursivePartial ["layout".toList, "layout".toList]] := Option.some.inj hdiagnostics
  have hmem : .recursivePartial ["layout".toList, "layout".toList] ∈ outcome.diagnostics := by
    rw [hdiagnostics]
    exact List.mem_singleton.mpr rfl
  exact ⟨rfl, hundefining, hacyclic, outcome, hcompile, hmem, (hreported _).mp hmem⟩

end Handlebars

end Inlay
