import Inlay.Proofs.Frame
import Inlay.Proofs.Masking
import Inlay.Proofs.References
import Mathlib.Data.List.Perm.Subperm

/-!
# Embedding comes to an end

Where partials are embedded, a name is not embedded inside itself, and a
block is gone while its body is compiled. So each call of the host has fewer
names left that are not on the chain, or as many names and fewer blocks.
-/

namespace Inlay.Handlebars

open Compilation

variable {fs : FileSystem} {names : List Text}

/-! ## Texts over a list of names -/

/-- The text refers to listed names only, also after it is unmasked. -/
def Within (names : List Text) (source : Text) : Prop :=
  ∀ name ∈ source.references, name ∈ names ∧ Keyword.unmask name ∈ names

theorem Within.unmask {source : Text} (h : Within names source) :
    Within names (Keyword.unmask source) := by
  intro name hname
  rw [Text.references_unmask] at hname
  obtain ⟨old, hold, rfl⟩ := List.mem_map.mp hname
  rw [Keyword.unmask_unmask]
  exact ⟨(h old hold).2, (h old hold).2⟩

theorem Within.indentLines {w source : Text} (hw : ∀ c ∈ w, isBlank c = true)
    (h : Within names source) : Within names (Text.indentLines w source) := by
  unfold Within
  rw [Text.references_indentLines hw]
  exact h

/-- The node refers to listed names only and is indented by blanks. -/
structure NodeWithin (names : List Text) (n : Node) : Prop where
  references : ∀ name ∈ n.references, name ∈ names ∧ Keyword.unmask name ∈ names
  indent : ∀ c ∈ n.indent?.getD [], isBlank c = true

theorem Within.nodes {source : Text} (h : Within names source) :
    ∀ n ∈ source.nodes, NodeWithin names n := by
  intro n hn
  exact ⟨fun name hname => h name (Node.references_subset hn hname),
    (Node.blankIndent_of_mem hn).isBlank⟩

theorem NodeWithin.body {n : Node} {body : Text} (h : NodeWithin names n)
    (hb : n.body? = some body) : Within names body :=
  fun name hname => h.references name (Node.references_body_subset hb hname)

/-! ## The states of an embedding compilation -/

/-- A scope in which partials are embedded and texts refer to listed names. -/
structure EmbeddingScope (fs : FileSystem) (names : List Text) (c : Context) : Prop where
  embeds : c.flags.runtime = false
  hook : c.hook = none
  lineIndent : ∀ d ∈ c.lineIndent, isBlank d = true
  chain : c.chain ⊆ names
  nodup : c.chain.Nodup
  blocks : ∀ body ∈ c.blocks, Within names body
  raw : ∀ name raw, c.rawSource? fs name = some raw → Within names raw.escape

/-- A state in which partials are embedded and texts refer to listed names. -/
structure Embedding (fs : FileSystem) (names : List Text) (s : Compilation) : Prop where
  scope : EmbeddingScope fs names s.scope
  aliases : s.view.aliases = ∅
  cached : ∀ name source, s.view.cached.get? name = some source → Within names source

namespace EmbeddingScope

variable {c : Context} (h : EmbeddingScope fs names c)

include h

theorem atIndent {w : Text} (hw : ∀ d ∈ w, isBlank d = true) :
    EmbeddingScope fs names { c with lineIndent := w } :=
  ⟨h.embeds, h.hook, hw, h.chain, h.nodup, h.blocks, h.raw⟩

theorem inBlocks {blocks : List Text} (hblocks : ∀ body ∈ blocks, Within names body) :
    EmbeddingScope fs names { c with blocks := blocks } :=
  ⟨h.embeds, h.hook, h.lineIndent, h.chain, h.nodup, hblocks, h.raw⟩

theorem enter {name : Text} (hname : name ∈ names) (hnodup : (name :: c.chain).Nodup) :
    EmbeddingScope fs names { c with chain := name :: c.chain } :=
  ⟨h.embeds, h.hook, h.lineIndent, List.cons_subset.mpr ⟨hname, h.chain⟩, hnodup, h.blocks, h.raw⟩

end EmbeddingScope

namespace Embedding

variable {s : Compilation} (h : Embedding fs names s)

include h

theorem hookFree : s.HookFree :=
  ⟨h.scope.hook, h.aliases⟩

theorem atIndent {w : Text} (hw : ∀ d ∈ w, isBlank d = true) :
    Embedding fs names (atIndent w s) :=
  ⟨h.scope.atIndent hw, h.aliases, h.cached⟩

theorem inBlocks {blocks : List Text} (hblocks : ∀ body ∈ blocks, Within names body) :
    Embedding fs names (inBlocks blocks s) :=
  ⟨h.scope.inBlocks hblocks, h.aliases, h.cached⟩

theorem enter {name : Text} (hname : name ∈ names) (hnodup : (name :: s.view.chain).Nodup) :
    Embedding fs names (s.enter name) :=
  ⟨h.scope.enter hname hnodup, h.aliases, h.cached⟩

theorem emit (e : Event) : Embedding fs names (s.emit e) :=
  ⟨h.scope, h.aliases, h.cached⟩

theorem report (d : Diagnostic) : Embedding fs names (s.mapView (·.report d)) :=
  ⟨h.scope, h.aliases, h.cached⟩

theorem counted (name : Text) : Embedding fs names (s.counted name) :=
  ⟨h.scope, h.aliases, h.cached⟩

theorem missed (name : Text) : Embedding fs names (s.missed name) := by
  unfold Compilation.missed
  split
  · exact h
  · exact h.report _

theorem missedOnce (name : Text) : Embedding fs names (s.missedOnce name) := by
  unfold Compilation.missedOnce
  split
  · exact h.report _
  · exact h

theorem dynamicNoted (expr : Text) : Embedding fs names (dynamicNoted expr s) := by
  unfold Handlebars.dynamicNoted
  split
  · exact h.report _
  · exact h

theorem closeChecked (name : Text) (closed : Bool) :
    Embedding fs names (closeChecked name closed s) := by
  cases closed with
  | true => exact h
  | false => exact h.report _

theorem inlineNoted (name source : Text) : Embedding fs names (inlineNoted name source s) :=
  ⟨h.scope, h.aliases, h.cached⟩

theorem inlineCached (name : Text) {source : Text} (hsource : Within names source) :
    Embedding fs names (inlineCached name source s) := by
  refine ⟨h.scope, h.aliases, fun other old hold => ?_⟩
  have hget : (s.view.cached.insert name source).get? other = some old := hold
  rw [OrderedMap.get?_insert] at hget
  split at hget
  · obtain rfl := Option.some.inj hget
    exact hsource
  · exact h.cached other old hget

/-- A source that was found is cached. -/
theorem cache {name raw : Text} (hraw : s.context.rawSource? fs name = some raw) :
    Embedding fs names (s.cache name name raw) := by
  refine ⟨h.scope, (h.hookFree.cache name raw).aliases, fun other old hold => ?_⟩
  have hget : (s.view.cached.insertIfNew name raw.escape).get? other = some old := hold
  rw [OrderedMap.get?_insertIfNew] at hget
  cases hother : s.view.cached.get? other with
  | some source =>
      rw [hother, Option.some_or, Option.some.injEq] at hget
      exact hget ▸ h.cached other source hother
  | none =>
      rw [hother, Option.none_or] at hget
      split at hget
      · obtain rfl := Option.some.inj hget
        exact h.scope.raw name raw hraw
      · cases hget

theorem embedded {source : Text} (hsource : Within names source) :
    Within names (embedded s.view source) := by
  unfold Inlay.embedded
  split
  · exact hsource
  · exact hsource.indentLines h.scope.lineIndent

/-- The state after a run, if what was cached refers to listed names. -/
theorem of_run {task : Task} {code : Text} {t : Compilation} (hrun : Runs fs task s code t)
    (hcached : ∀ name source, t.view.cached.get? name = some source → Within names source) :
    Embedding fs names t :=
  ⟨hrun.scope_eq ▸ h.scope, (hrun.hookFree h.hookFree).aliases, hcached⟩

end Embedding

/-- The task refers to listed names only. Nothing is compiled apart. -/
def Task.Within (names : List Text) : Task → Prop
  | .text source => Handlebars.Within names source
  | .nodes ns => ∀ n ∈ ns, NodeWithin names n
  | .node n => NodeWithin names n
  | .read _ => True
  | .unit _ => True
  | .apart _ => False
  | .embed name => name ∈ names

/-- What is cached in a run refers to listed names only. -/
theorem Runs.cached_within {task : Task} {s t : Compilation} {code : Text}
    (h : Runs fs task s code t) (hs : Embedding fs names s) (htask : task.Within names) :
    ∀ name source, t.view.cached.get? name = some source → Within names source := by
  induction h with
  | text _ ih => exact ih (hs.emit _) (Within.nodes htask)
  | nil => exact hs.cached
  | cons h₁ h₂ ih₁ ih₂ =>
      obtain ⟨hn, hns⟩ := List.forall_mem_cons.mp htask
      exact ih₂ (hs.of_run h₁ (ih₁ hs hn)) hns
  | literal => exact hs.cached
  | «variable» => exact hs.cached
  | dispatched h₁ hruntime ih => exact ih (hs.atIndent htask.indent) trivial
  | @embedded name indent s u s₁ code t h₁ _ h₂ ih₁ ih₂ =>
      have hs₁ := hs.atIndent htask.indent
      have hread := hs₁.of_run h₁ (ih₁ hs₁ trivial)
      refine ih₂ hread ?_
      show _ ∈ names
      rw [hread.hookFree.resolvedName_eq, hread.hookFree.resolvedName_eq]
      exact (htask.references name List.mem_cons_self).1
  | @dynamic expr indent s =>
      exact (((hs.atIndent htask.indent).counted Counter.dynamicReferences).dynamicNoted expr).cached
  | @enclosed body outer indent s code t hblocks h ih =>
      have hbody : ∀ b ∈ body :: outer, Within names b := hblocks ▸ hs.scope.blocks
      obtain ⟨hbody, houter⟩ := List.forall_mem_cons.mp hbody
      exact ih ((hs.atIndent htask.indent).inBlocks houter) (hbody.indentLines htask.indent)
  | enclosedCall => exact hs.cached
  | notEnclosed => exact hs.cached
  | @blockDispatched name body closed s u s₁ unit t h₁ hruntime _ ih₁ ih₂ =>
      have hs₁ := (hs.closeChecked name closed).atIndent (w := []) (by simp)
      have hread := hs₁.of_run h₁ (ih₁ hs₁ trivial)
      exact absurd hruntime (Bool.eq_false_iff.mp hread.scope.embeds)
  | @blockEmbedded name body closed s u s₁ code t h₁ _ h₂ ih₁ ih₂ =>
      have hs₁ := (hs.closeChecked name closed).atIndent (w := []) (by simp)
      have hread := hs₁.of_run h₁ (ih₁ hs₁ trivial)
      have hbody : Within names body := htask.body rfl
      refine ih₂ (hread.inBlocks (List.forall_mem_cons.mpr ⟨hbody, hread.scope.blocks⟩)) ?_
      show _ ∈ names
      rw [hread.hookFree.resolvedName_eq, hread.hookFree.resolvedName_eq]
      exact (htask.references name List.mem_cons_self).1
  | @inlineKnown name body closed s _ => exact (hs.closeChecked "inline".toList closed).cached
  | @inlineNew name body closed s u t hnew h ih =>
      have hbody : Within names body := htask.body rfl
      refine ih (Embedding.inlineCached ?_ name hbody.unmask) trivial
      exact (hs.closeChecked "inline".toList closed).inlineNoted name (Keyword.unmask body)
  | strayClose => exact hs.cached
  | readKnown => exact hs.cached
  | @readMissing name s _ _ => exact ((hs.counted Counter.references).missed name).cached
  | @readFound name s raw source target u t _ hraw hparts h ih =>
      have hcounted := hs.counted Counter.references
      obtain ⟨rfl, rfl⟩ := hcounted.hookFree.parts_eq hparts
      refine ih ?_ trivial
      rw [hcounted.hookFree.preprocessed_eq]
      exact hcounted.cache hraw
  | unitIdle => exact hs.cached
  | unitNew hruntime => exact absurd hruntime (Bool.eq_false_iff.mp hs.scope.embeds)
  | apart => exact htask.elim
  | @embedMissing name s _ => exact (hs.missedOnce name).cached
  | embedOpen _ hruntime => exact absurd hruntime (Bool.eq_false_iff.mp hs.scope.embeds)
  | @embedGuarded name s source code t hsource _ hnodup h ih =>
      have henter := hs.enter htask hnodup
      exact ih henter (henter.embedded (hs.cached name source hsource))
  | embedRepeated => exact hs.cached

theorem Embedding.after {task : Task} {s t : Compilation} {code : Text} (hs : Embedding fs names s)
    (h : Runs fs task s code t) (htask : task.Within names) : Embedding fs names t :=
  hs.of_run h (h.cached_within hs htask)

/-! ## Enough calls -/

/-- How deep calls may still nest: twice the names that are not on the chain, and the
blocks. -/
def potential (names : List Text) (s : Compilation) : Nat :=
  2 * (names.length - s.view.chain.length) + s.view.blocks.length

/-- The host gives a result in states of a potential below the bound. -/
def EmbedsBelow (fs : FileSystem) (names : List Text) (bound : Nat) (self : Host) : Prop :=
  ∀ ⦃source s⦄, Embedding fs names s → Within names source → potential names s < bound →
    ∃ code t, self source fs s = some (code, t)

section Step

variable {self : Host} {bound : Nat} {s : Compilation}

theorem unit_of_embedding (hs : Embedding fs names s) (name : Text) :
    compileUnit self name fs s = some (none, s) := by
  have hembeds : s.view.flags.runtime = false := hs.scope.embeds
  rw [compileUnit_apply, hembeds]
  rfl

theorem exists_read_of_embedding (self : Host) (hs : Embedding fs names s) (name : Text) :
    ∃ t, readPartial self name fs s = some (none, t) := by
  have hcounted := hs.counted Counter.references
  rw [readPartial_apply, readCounted]
  split
  · exact ⟨_, rfl⟩
  · split
    · exact ⟨_, rfl⟩
    · rename_i raw hraw
      rw [hcounted.hookFree.preprocess_eq, hcounted.hookFree.preprocessed_eq]
      exact ⟨_, unit_of_embedding (hcounted.cache hraw) name⟩

theorem exists_reads_of_embedding (hsound : Sound fs self) (registered : List Text)
    (hs : Embedding fs names s) : ∃ t, readAll self registered fs s = some ((), t) := by
  induction registered generalizing s with
  | nil => exact ⟨_, rfl⟩
  | cons name registered ih =>
      obtain ⟨s₁, hread⟩ := exists_read_of_embedding self hs name
      obtain ⟨t, hrest⟩ := ih (hs.after (hsound.runs_read hread) trivial)
      rw [readAll_cons_apply, hread, Option.bind_some, hrest]
      exact ⟨_, rfl⟩

variable (hself : EmbedsBelow fs names bound self)

include hself

theorem exists_compile_of_embedding {source : Text} (hs : Embedding fs names s)
    (hsource : Within names source) (hbound : potential names s < bound) :
    ∃ code t, self.compile source fs s = some (code, t) :=
  hself (hs.emit _) hsource hbound

/-- A name that is embedded is new on the chain, so two units of the potential are
gone. -/
theorem exists_embed {name : Text} (hs : Embedding fs names s) (hname : name ∈ names)
    (hbound : potential names s ≤ bound + 1) :
    ∃ code t, embed self name fs s = some (code, t) := by
  have hembeds : ¬ s.view.flags.runtime = true := Bool.eq_false_iff.mp hs.scope.embeds
  rw [embed_apply, hs.hookFree.resolvedName_eq, embedResolved]
  split
  · exact ⟨_, _, rfl⟩
  · rename_i source hsource
    rw [if_neg hembeds]
    split
    · rename_i hnodup
      have henter := hs.enter hname hnodup
      have hchain : (name :: s.view.chain).length ≤ names.length :=
        (List.subperm_of_subset hnodup henter.scope.chain).length_le
      have hless : potential names (s.enter name) < bound := by
        show 2 * (names.length - (name :: s.view.chain).length) + s.view.blocks.length < bound
        unfold potential at hbound
        simp only [List.length_cons] at hchain ⊢
        omega
      obtain ⟨code, t, h⟩ := exists_compile_of_embedding hself henter
        (henter.embedded (hs.cached name source hsource)) hless
      rw [h]
      exact ⟨_, _, rfl⟩
    · exact ⟨_, _, rfl⟩

theorem exists_namedReference {name : Text} (indent : Option Text) (hsound : Sound fs self)
    (hs : Embedding fs names s) (hname : name ∈ names) (hbound : potential names s ≤ bound) :
    ∃ code t, namedReference self name indent fs s = some (code, t) := by
  obtain ⟨t, hread⟩ := exists_read_of_embedding self hs name
  have hruns := hsound.runs_read hread
  have ht := hs.after hruns trivial
  have hembeds : ¬ t.view.flags.runtime = true := Bool.eq_false_iff.mp ht.scope.embeds
  rw [namedReference_apply, hread, Option.bind_some, if_neg hembeds, ht.hookFree.resolvedName_eq]
  apply exists_embed hself ht hname
  unfold potential
  rw [hruns.chain_eq, hruns.blocks_eq]
  exact Nat.le_succ_of_le hbound

theorem exists_enclosingBlock {indent : Option Text} (hs : Embedding fs names s)
    (hindent : ∀ c ∈ indent.getD [], isBlank c = true) (hbound : potential names s ≤ bound) :
    ∃ code t, enclosingBlock self indent fs s = some (code, t) := by
  rw [enclosingBlock_apply]
  split
  · rename_i body outer hblocks
    have hbodies : ∀ b ∈ body :: outer, Within names b := hblocks ▸ hs.scope.blocks
    obtain ⟨hbody, houter⟩ := List.forall_mem_cons.mp hbodies
    have hless : potential names (inBlocks outer s) < bound := by
      have hlen : s.view.blocks.length = outer.length + 1 := congrArg List.length hblocks
      show 2 * (names.length - s.view.chain.length) + outer.length < bound
      unfold potential at hbound
      omega
    obtain ⟨code, t, h⟩ := exists_compile_of_embedding hself (hs.inBlocks houter)
      (hbody.indentLines hindent) hless
    rw [h]
    exact ⟨_, _, rfl⟩
  · split
    · exact ⟨_, _, rfl⟩
    · exact ⟨_, _, rfl⟩

theorem exists_partialBlock {name body : Text} (hsound : Sound fs self)
    (hs : Embedding fs names s) (hname : name ∈ names) (hbody : Within names body)
    (hbound : potential names s ≤ bound) :
    ∃ code t, partialBlock self name body fs s = some (code, t) := by
  have hs' := hs.atIndent (w := []) (by simp)
  obtain ⟨t, hread⟩ := exists_read_of_embedding self hs' name
  have hruns := hsound.runs_read hread
  have ht := hs'.after hruns trivial
  have hembeds : ¬ t.view.flags.runtime = true := Bool.eq_false_iff.mp ht.scope.embeds
  have hblock : Embedding fs names (inBlocks (body :: t.view.blocks) t) :=
    ht.inBlocks (List.forall_mem_cons.mpr ⟨hbody, ht.scope.blocks⟩)
  have hpotential : potential names (inBlocks (body :: t.view.blocks) t) ≤ bound + 1 := by
    show 2 * (names.length - t.view.chain.length) + (body :: t.view.blocks).length ≤ bound + 1
    rw [hruns.chain_eq, hruns.blocks_eq, List.length_cons]
    exact Nat.succ_le_succ hbound
  obtain ⟨code, r, h⟩ := exists_embed hself hblock hname hpotential
  rw [partialBlock_apply, hread, Option.bind_some, blockRead, if_neg hembeds,
    embedWithBlock_apply, ht.hookFree.resolvedName_eq, h]
  exact ⟨_, _, rfl⟩

theorem exists_node {n : Node} (hsound : Sound fs self) (hs : Embedding fs names s)
    (hn : NodeWithin names n) (hbound : potential names s ≤ bound) :
    ∃ code t, node self n fs s = some (code, t) := by
  cases n with
  | literal text => exact ⟨_, _, rfl⟩
  | «variable» name => exact ⟨_, _, rfl⟩
  | reference target indent =>
      have hs' := hs.atIndent hn.indent
      show ∃ code t, reference self target indent fs s = some (code, t)
      unfold reference
      rw [withLineIndent_apply]
      cases target with
      | named name =>
          have hname := (hn.references name List.mem_cons_self).1
          obtain ⟨code, t, h⟩ := exists_namedReference hself indent hsound hs' hname hbound
          exact ⟨_, _, congrArg (Option.map _) h⟩
      | dynamic expr =>
          exact ⟨_, _, congrArg (Option.map _) (dynamicReference_apply ..)⟩
      | block =>
          obtain ⟨code, t, h⟩ := exists_enclosingBlock hself hs' hn.indent hbound
          exact ⟨_, _, congrArg (Option.map _) h⟩
  | block name body closed =>
      have hname := (hn.references name List.mem_cons_self).1
      have hpotential : potential names (closeChecked name closed s) = potential names s := by
        cases closed <;> rfl
      simp only [node, CompileM.bind_apply, checkClosed_apply, Option.bind_some]
      exact exists_partialBlock hself hsound (hs.closeChecked name closed) hname (hn.body rfl)
        (hpotential ▸ hbound)
  | inlinePartial name body closed =>
      have hbody : Within names body := hn.body rfl
      have hnoted := (hs.closeChecked "inline".toList closed).inlineNoted name (Keyword.unmask body)
      simp only [node, CompileM.bind_apply, checkClosed_apply, Option.bind_some,
        CompileM.pure_apply]
      rw [defineInline_apply, defineNoted]
      split
      · exact ⟨_, _, rfl⟩
      · rw [unit_of_embedding (hnoted.inlineCached name hbody.unmask)]
        exact ⟨_, _, rfl⟩
  | strayClose name => exact ⟨_, _, rfl⟩

theorem exists_nodes {ns : List Node} (hsound : Sound fs self) (hs : Embedding fs names s)
    (hns : ∀ n ∈ ns, NodeWithin names n) (hbound : potential names s ≤ bound) :
    ∃ code t, nodes self ns fs s = some (code, t) := by
  induction ns generalizing s with
  | nil => exact ⟨_, _, rfl⟩
  | cons n ns ih =>
      obtain ⟨hn, hns⟩ := List.forall_mem_cons.mp hns
      obtain ⟨a, s₁, hnode⟩ := exists_node hself hsound hs hn hbound
      have hruns := hsound.runs_node hnode
      have hs₁ := hs.after hruns hn
      have hbound₁ : potential names s₁ ≤ bound := by
        unfold potential
        rw [hruns.chain_eq, hruns.blocks_eq]
        exact hbound
      obtain ⟨b, t, hrest⟩ := ih hs₁ hns hbound₁
      rw [nodes_cons_apply, hnode, Option.bind_some, hrest]
      exact ⟨_, _, rfl⟩

end Step

/-- A host that may nest deeper than the potential gives a result. -/
theorem embedsBelow_host (depth : Nat) : EmbedsBelow fs names depth (host depth) := by
  induction depth with
  | zero =>
      intro source s _ _ hbound
      exact absurd hbound (Nat.not_lt_zero _)
  | succ depth ih =>
      intro source s hs hsource hbound
      exact exists_nodes ih (sound_host fs depth) hs hsource.nodes (Nat.le_of_lt_succ hbound)

end Inlay.Handlebars
