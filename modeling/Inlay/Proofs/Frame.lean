import Inlay.Proofs.Lookup
import Inlay.Proofs.Updates

/-!
# What a run leaves alone

A run finds, counts, reports and defines. All the rest of the context is as
it was when the run is over: blocks and chain are put back, and what a
nested compilation changes stays in its copy.
-/

namespace Inlay

namespace Compilation

/-- All of the context but what is found, counted, reported and defined. -/
def scope (s : Compilation) : Context :=
  { s.context with
    cached := ∅, aliases := ∅, counters := ∅, table := ∅, diagnostics := [], inlines := ∅ }

@[simp] theorem scope_emit (e : Event) (s : Compilation) : (s.emit e).scope = s.scope := rfl

@[simp] theorem scope_report (d : Diagnostic) (s : Compilation) :
    (s.mapView (·.report d)).scope = s.scope := rfl

@[simp] theorem scope_counted (name : Text) (s : Compilation) :
    (s.counted name).scope = s.scope := rfl

@[simp] theorem scope_missed (name : Text) (s : Compilation) :
    (s.missed name).scope = s.scope := by
  unfold missed
  split <;> rfl

@[simp] theorem scope_missedOnce (name : Text) (s : Compilation) :
    (s.missedOnce name).scope = s.scope := by
  unfold missedOnce
  split <;> rfl

@[simp] theorem scope_preprocessed (source name : Text) (s : Compilation) :
    (s.preprocessed source name).scope = s.scope := by
  unfold preprocessed
  split <;> rfl

@[simp] theorem scope_cache (name target source : Text) (s : Compilation) :
    (s.cache name target source).scope = s.scope := rfl

@[simp] theorem scope_enroll (name unit : Text) (s : Compilation) :
    (s.enroll name unit).scope = s.scope := rfl

theorem scope_enter (name : Text) (s : Compilation) :
    (s.enter name).scope = { s.scope with chain := name :: s.view.chain } := rfl

theorem scope_leave (s : Compilation) :
    s.leave.scope = { s.scope with chain := s.scope.chain.tail } := rfl

/-- A copy that was left with its scope gives nothing of it back. -/
theorem scope_merge {s t : Compilation} (h : t.scope = s.isolated.scope) :
    (s.merge t).scope = s.scope := by
  have hpartials : t.view.partials = s.view.partials := congrArg (fun c => c.partials) h
  have habsorb : s.view.partials.absorb t.view.partials = s.view.partials := by
    rw [hpartials, OrderedMap.absorb_self]
  show { s.scope with partials := s.view.partials.absorb t.view.partials } = s.scope
  rw [habsorb]
  rfl

/-! ### Missing partials -/

theorem cached_missed (name : Text) (s : Compilation) :
    (s.missed name).view.cached = s.view.cached := by
  unfold missed
  split <;> rfl

theorem diagnostics_missed (name : Text) (s : Compilation) : (s.missed name).view.diagnostics =
    s.view.diagnostics ++ if s.view.flags.skipMissing then [] else [.missingPartial name] := by
  unfold missed
  split
  · exact (List.append_nil _).symm
  · rfl

/-- A missing partial is reported, unless missing partials are skipped. -/
theorem told_missed (name : Text) (s : Compilation) : s.view.flags.skipMissing = true ∨
    .missingPartial name ∈ (s.missed name).view.diagnostics := by
  rw [diagnostics_missed]
  cases s.view.flags.skipMissing with
  | true => exact .inl rfl
  | false => exact .inr (List.mem_append_right _ List.mem_cons_self)

/-- A missing partial that is skipped, or was reported, is not reported again. -/
theorem missedOnce_eq_self {name : Text} {s : Compilation}
    (htold : s.view.flags.skipMissing = true ∨ .missingPartial name ∈ s.view.diagnostics) :
    s.missedOnce name = s := by
  unfold missedOnce
  rw [if_neg]
  intro hreport
  obtain ⟨hskip, hnew⟩ := Bool.and_eq_true_iff.mp hreport
  rcases htold with hskips | hmem
  · rw [hskips] at hskip
    cases hskip
  · exact of_decide_eq_true hnew hmem

end Compilation

namespace Handlebars

theorem scope_atIndent (indent : Text) (s : Compilation) :
    (atIndent indent s).scope = { s.scope with lineIndent := indent } := rfl

theorem scope_inBlocks (blocks : List Text) (s : Compilation) :
    (inBlocks blocks s).scope = { s.scope with blocks := blocks } := rfl

@[simp] theorem scope_dynamicNoted (expr : Text) (s : Compilation) :
    (dynamicNoted expr s).scope = s.scope := by
  unfold dynamicNoted
  split <;> rfl

@[simp] theorem scope_closeChecked (name : Text) (closed : Bool) (s : Compilation) :
    (closeChecked name closed s).scope = s.scope := by
  cases closed <;> rfl

@[simp] theorem scope_inlineNoted (name source : Text) (s : Compilation) :
    (inlineNoted name source s).scope = s.scope := rfl

@[simp] theorem scope_inlineCached (name source : Text) (s : Compilation) :
    (inlineCached name source s).scope = s.scope := rfl

/-- The former indentation of the line is put back. -/
theorem scope_atIndent_of_eq {w : Text} {s t : Compilation}
    (h : t.scope = { s.scope with lineIndent := w }) :
    (atIndent s.view.lineIndent t).scope = s.scope := by
  rw [scope_atIndent, h]
  rfl

namespace Runs

variable {fs : FileSystem} {task : Task} {s t : Compilation} {code : Text}

theorem scope_eq (h : Runs fs task s code t) : t.scope = s.scope := by
  induction h with
  | text _ ih => exact ih
  | nil => rfl
  | cons _ _ ih₁ ih₂ => exact ih₂.trans ih₁
  | literal => rfl
  | «variable» => rfl
  | dispatched _ _ ih => exact scope_atIndent_of_eq ih
  | embedded _ _ _ ih₁ ih₂ => exact scope_atIndent_of_eq (ih₂.trans ih₁)
  | @dynamic expr indent s =>
      refine scope_atIndent_of_eq (w := indent.getD []) ?_
      rw [scope_dynamicNoted, Compilation.scope_counted, scope_atIndent]
  | @enclosed body outer indent s code t hblocks _ ih =>
      refine scope_atIndent_of_eq (w := indent.getD []) ?_
      have ht : t.view.blocks = outer := congrArg (fun c => c.blocks) ih
      rw [scope_inBlocks, ih, ht, ← hblocks]
      rfl
  | enclosedCall => rfl
  | notEnclosed => rfl
  | @blockDispatched name body closed s u s₁ unit t _ _ _ ih₁ ih₂ =>
      refine scope_atIndent_of_eq (w := []) ?_
      rw [ih₂, ih₁, scope_atIndent, scope_closeChecked]
  | @blockEmbedded name body closed s u s₁ code t _ _ _ ih₁ ih₂ =>
      refine scope_atIndent_of_eq (w := []) ?_
      have ht : t.view.blocks = body :: s₁.view.blocks := congrArg (fun c => c.blocks) ih₂
      rw [scope_inBlocks, ih₂, ht, scope_inBlocks, List.tail_cons]
      show s₁.scope = _
      rw [ih₁, scope_atIndent, scope_closeChecked]
  | inlineKnown => rw [scope_inlineNoted, scope_closeChecked]
  | inlineNew _ _ ih => rw [ih, scope_inlineCached, scope_inlineNoted, scope_closeChecked]
  | strayClose => rfl
  | readKnown => rfl
  | readMissing => rw [Compilation.scope_missed, Compilation.scope_counted]
  | readFound _ _ _ _ ih =>
      rw [ih, Compilation.scope_cache, Compilation.scope_preprocessed, Compilation.scope_counted]
  | unitIdle => rfl
  | unitNew _ _ _ _ ih => exact (Compilation.scope_enroll ..).trans ih
  | apart _ ih => exact Compilation.scope_merge ih
  | embedMissing => exact Compilation.scope_missedOnce ..
  | embedOpen _ _ _ ih => exact ih
  | embedGuarded _ _ _ _ ih =>
      rw [Compilation.scope_leave, ih]
      rfl
  | embedRepeated => rfl

theorem flags_eq (h : Runs fs task s code t) : t.view.flags = s.view.flags :=
  congrArg (fun c => c.flags) h.scope_eq

theorem fragments_eq (h : Runs fs task s code t) : t.view.fragments = s.view.fragments :=
  congrArg (fun c => c.fragments) h.scope_eq

theorem chain_eq (h : Runs fs task s code t) : t.view.chain = s.view.chain :=
  congrArg (fun c => c.chain) h.scope_eq

theorem blocks_eq (h : Runs fs task s code t) : t.view.blocks = s.view.blocks :=
  congrArg (fun c => c.blocks) h.scope_eq

/-- Sources are looked for in the same places. -/
theorem rawSource?_eq (h : Runs fs task s code t) (name : Text) :
    t.context.rawSource? fs name = s.context.rawSource? fs name := by
  show t.scope.rawSource? fs name = s.scope.rawSource? fs name
  rw [h.scope_eq]

end Runs

theorem ReadsAll.scope_eq {fs : FileSystem} {names : List Text} {s t : Compilation}
    (h : ReadsAll fs names s t) : t.scope = s.scope := by
  induction h with
  | nil => rfl
  | cons hread _ ih => exact ih.trans hread.scope_eq

/-- A compilation ends in the scope it starts in. -/
theorem Compiles.scope_eq {fs : FileSystem} {options : Options} {hook : Option Hook}
    {source code : Text} {middle final : Compilation}
    (h : Compiles fs options hook source code middle final) :
    final.scope = (Compilation.initial options hook fs).scope :=
  h.reads.scope_eq.trans h.runs.scope_eq

end Handlebars

/-! ## Growth -/

/-- The state only has more: cached sources and units stay, diagnostics and
trace go on. -/
structure Compilation.Grows (s t : Compilation) : Prop where
  cached : s.view.cached.Below t.view.cached
  table : s.view.table.Below t.view.table
  diagnostics : s.view.diagnostics <+: t.view.diagnostics
  trace : s.trace <:+ t.trace

namespace Compilation

theorem Grows.refl (s : Compilation) : s.Grows s :=
  ⟨.refl _, .refl _, List.prefix_rfl, List.suffix_rfl⟩

theorem Grows.trans {s t r : Compilation} (h₁ : s.Grows t) (h₂ : t.Grows r) : s.Grows r :=
  ⟨h₁.cached.trans h₂.cached, h₁.table.trans h₂.table, h₁.diagnostics.trans h₂.diagnostics,
    h₁.trace.trans h₂.trace⟩

/-- A state that differs in its scope only has grown as much. -/
theorem grows_of_eq {s t : Compilation} (hcached : t.view.cached = s.view.cached)
    (htable : t.view.table = s.view.table) (hdiagnostics : t.view.diagnostics = s.view.diagnostics)
    (htrace : t.trace = s.trace) : s.Grows t :=
  ⟨hcached ▸ .refl _, htable ▸ .refl _, hdiagnostics ▸ List.prefix_rfl, htrace ▸ List.suffix_rfl⟩

theorem grows_emit (e : Event) (s : Compilation) : s.Grows (s.emit e) :=
  ⟨.refl _, .refl _, List.prefix_rfl, List.suffix_cons e s.trace⟩

theorem grows_counted (name : Text) (s : Compilation) : s.Grows (s.counted name) :=
  ⟨.refl _, .refl _, List.prefix_rfl, List.suffix_rfl⟩

theorem grows_report (d : Diagnostic) (s : Compilation) : s.Grows (s.mapView (·.report d)) :=
  ⟨.refl _, .refl _, List.prefix_append .., List.suffix_rfl⟩

theorem grows_preprocessed (source name : Text) (s : Compilation) :
    s.Grows (s.preprocessed source name) := by
  unfold preprocessed
  split
  · exact grows_emit ..
  · exact .refl s

theorem grows_cache (name target source : Text) (s : Compilation) :
    s.Grows (s.cache name target source) :=
  ⟨OrderedMap.below_insertIfNew _ _ _, .refl _, List.prefix_rfl, List.suffix_rfl⟩

theorem grows_enroll (name unit : Text) (s : Compilation) : s.Grows (s.enroll name unit) :=
  ⟨.refl _, OrderedMap.below_insertIfNew _ _ _, List.prefix_rfl, List.suffix_rfl⟩

/-- What goes on from a copy goes on from the state it was taken from. -/
theorem grows_merge {s t : Compilation} (h : s.isolated.Grows t) : s.Grows (s.merge t) :=
  ⟨OrderedMap.below_absorb _ _, OrderedMap.below_absorb _ _, List.prefix_append .., h.trace⟩

/-- All that a nested compilation added is there when its copy is merged back. -/
theorem grows_merge_of_copy {s t : Compilation} (h : s.isolated.Grows t) : t.Grows (s.merge t) := by
  refine ⟨OrderedMap.below_absorb_of_below h.cached, OrderedMap.below_absorb_of_below h.table, ?_,
    List.suffix_rfl⟩
  obtain ⟨added, hadded⟩ := h.diagnostics
  have hadded : s.view.diagnostics ++ added = t.view.diagnostics := hadded
  show t.view.diagnostics <+:
    s.view.diagnostics ++ t.view.diagnostics.drop s.view.diagnostics.length
  exact ⟨[], by rw [← hadded, List.drop_left, List.append_nil]⟩

end Compilation

namespace Handlebars

open Compilation

/-- A state with another indentation of the line or with other blocks around
has grown as much. -/
theorem grows_atIndent {s t : Compilation} {v w : Text} (h : (atIndent v s).Grows t) :
    s.Grows (atIndent w t) :=
  ⟨h.cached, h.table, h.diagnostics, h.trace⟩

theorem grows_inlineNoted (name source : Text) (s : Compilation) :
    s.Grows (inlineNoted name source s) :=
  ⟨.refl _, .refl _, List.prefix_rfl, List.suffix_rfl⟩

theorem grows_inlineCached {name : Text} {s : Compilation} (h : name ∉ s.view.cached)
    (source : Text) : s.Grows (inlineCached name source s) :=
  ⟨OrderedMap.below_insert h source, .refl _, List.prefix_rfl, List.suffix_rfl⟩

theorem Update.grows {fs : FileSystem} {s t : Compilation} (h : Update fs s t) : s.Grows t := by
  cases h with
  | called => exact grows_emit ..
  | counted name => exact grows_counted ..
  | reported d => exact grows_report ..
  | found => exact (grows_preprocessed ..).trans (grows_cache ..)
  | enrolled name unit => exact grows_enroll ..
  | defined source hnew => exact grows_inlineCached hnew source
  | _ => exact grows_of_eq rfl rfl rfl rfl

theorem Works.grows {fs : FileSystem} {s t : Compilation} (h : Works fs s t) : s.Grows t := by
  induction h with
  | done => exact .refl _
  | update _ hupdate ih => exact ih.trans hupdate.grows
  | merged _ _ ih₁ ih₂ => exact ih₁.trans (grows_merge ih₂)

theorem Runs.grows {fs : FileSystem} {task : Task} {s t : Compilation} {code : Text}
    (h : Runs fs task s code t) : s.Grows t :=
  h.works.grows

end Handlebars

/-! ## Without preprocessing -/

/-- There is no preprocessing, and no name was given another one. -/
structure Compilation.HookFree (s : Compilation) : Prop where
  hook : s.context.hook = none
  aliases : s.view.aliases = ∅

namespace Compilation.HookFree

variable {s : Compilation} (hs : s.HookFree)

include hs

theorem resolvedName_eq (name : Text) : s.view.resolvedName name = name := by
  unfold View.resolvedName
  rw [hs.aliases, OrderedMap.get?_empty, Option.getD_none]

theorem preprocess_eq (source name : Text) : s.context.preprocess source name = (source, name) := by
  unfold Context.preprocess
  rw [hs.hook]

theorem parts_eq {raw name source target : Text}
    (hparts : s.context.preprocess raw name = (source, target)) : raw = source ∧ name = target := by
  rw [hs.preprocess_eq] at hparts
  exact Prod.mk.inj hparts

theorem preprocessed_eq (source name : Text) : s.preprocessed source name = s := by
  unfold preprocessed
  rw [hs.hook]
  rfl

theorem cache (name source : Text) : (s.cache name name source).HookFree := by
  refine ⟨hs.hook, ?_⟩
  show (if name = name then s.view.aliases else _) = ∅
  rw [if_pos rfl, hs.aliases]

theorem merge {t : Compilation} (ht : t.HookFree) : (s.merge t).HookFree := by
  refine ⟨hs.hook, ?_⟩
  show s.view.aliases.absorb t.view.aliases = ∅
  rw [hs.aliases, ht.aliases, OrderedMap.absorb_self]

end Compilation.HookFree

namespace Handlebars

theorem Update.hookFree {fs : FileSystem} {s t : Compilation} (h : Update fs s t)
    (hs : s.HookFree) : t.HookFree := by
  cases h with
  | found _ _ hparts =>
      obtain ⟨rfl, rfl⟩ := hs.parts_eq hparts
      rw [hs.preprocessed_eq]
      exact hs.cache ..
  | _ => exact ⟨hs.hook, hs.aliases⟩

theorem Works.hookFree {fs : FileSystem} {s t : Compilation} (h : Works fs s t)
    (hs : s.HookFree) : t.HookFree := by
  induction h with
  | done => exact hs
  | update _ hupdate ih => exact hupdate.hookFree (ih hs)
  | merged _ _ ih₁ ih₂ =>
      have ht := ih₁ hs
      exact ht.merge (ih₂ ⟨ht.hook, ht.aliases⟩)

theorem Runs.hookFree {fs : FileSystem} {task : Task} {s t : Compilation} {code : Text}
    (h : Runs fs task s code t) (hs : s.HookFree) : t.HookFree :=
  h.works.hookFree hs

/-! ## Dispatching states -/

/-- A state of a hook-free compilation with dispatching that looks for sources as the
context `c` does. No block is ever around. -/
structure Dispatching (fs : FileSystem) (c : Context) (s : Compilation) : Prop where
  dispatches : s.view.flags.runtime = true
  flags : s.view.flags = c.flags
  hookFree : s.HookFree
  blocks : s.view.blocks = []
  raw : ∀ name, s.context.rawSource? fs name = c.rawSource? fs name

namespace Dispatching

variable {fs : FileSystem} {c : Context} {s : Compilation} (h : Dispatching fs c s)

include h

theorem emit (e : Event) : Dispatching fs c (s.emit e) :=
  ⟨h.dispatches, h.flags, ⟨h.hookFree.hook, h.hookFree.aliases⟩, h.blocks, h.raw⟩

theorem counted (name : Text) : Dispatching fs c (s.counted name) :=
  ⟨h.dispatches, h.flags, ⟨h.hookFree.hook, h.hookFree.aliases⟩, h.blocks, h.raw⟩

theorem atIndent (w : Text) : Dispatching fs c (atIndent w s) :=
  ⟨h.dispatches, h.flags, ⟨h.hookFree.hook, h.hookFree.aliases⟩, h.blocks, h.raw⟩

theorem isolated : Dispatching fs c s.isolated :=
  ⟨h.dispatches, h.flags, ⟨h.hookFree.hook, h.hookFree.aliases⟩, rfl, h.raw⟩

theorem cache (name raw : Text) : Dispatching fs c (s.cache name name raw) :=
  ⟨h.dispatches, h.flags, h.hookFree.cache name raw, h.blocks, h.raw⟩

theorem closeChecked (name : Text) (closed : Bool) :
    Dispatching fs c (closeChecked name closed s) := by
  cases closed with
  | true => exact h
  | false =>
      exact ⟨h.dispatches, h.flags, ⟨h.hookFree.hook, h.hookFree.aliases⟩, h.blocks, h.raw⟩

theorem inlineNoted (name source : Text) : Dispatching fs c (inlineNoted name source s) :=
  ⟨h.dispatches, h.flags, ⟨h.hookFree.hook, h.hookFree.aliases⟩, h.blocks, h.raw⟩

theorem inlineCached (name source : Text) : Dispatching fs c (inlineCached name source s) :=
  ⟨h.dispatches, h.flags, ⟨h.hookFree.hook, h.hookFree.aliases⟩, h.blocks, h.raw⟩

theorem after {task : Task} {code : Text} {t : Compilation} (hrun : Runs fs task s code t) :
    Dispatching fs c t := by
  refine ⟨?_, ?_, hrun.hookFree h.hookFree, ?_, fun name => ?_⟩
  · rw [hrun.flags_eq]
    exact h.dispatches
  · rw [hrun.flags_eq]
    exact h.flags
  · rw [hrun.blocks_eq]
    exact h.blocks
  · rw [hrun.rawSource?_eq]
    exact h.raw name

end Dispatching

/-- The initial state of a hook-free compilation with dispatching. -/
theorem dispatching_initial (fs : FileSystem) {options : Options}
    (h : options.flags.runtime = true) :
    Dispatching fs (Context.start options none fs) (Compilation.initial options none fs) :=
  ⟨h, rfl, ⟨rfl, rfl⟩, rfl, fun _ => rfl⟩

end Handlebars

end Inlay
