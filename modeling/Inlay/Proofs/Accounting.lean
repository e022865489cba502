import Inlay.Proofs.CanonicalUnits
import Inlay.Proofs.Operations

/-!
# What the counters count

Where partials are dispatched, each tag of the template and of each source
found is met once: the source of a partial when its unit is made, and the
body of a block right after its tag. So the counters can be told from the
texts. What a task adds to a counter beyond the tags of the sources that it
finds is what its own tags add, and merging a copy back keeps all of it,
since the copy goes on from the counts that it was taken with.
-/

namespace Inlay

/-- The counter that a tag counts on. -/
def Tag.counter? : Tag → Option Text
  | .reference (.named _) => some Counter.references
  | .openBlock _ => some Counter.references
  | .reference (.dynamic _) => some Counter.dynamicReferences
  | .openInline _ => some Counter.inlineDefinitions
  | _ => none

theorem Tag.counter?_map (f : Text → Text) (tag : Tag) : (tag.map f).counter? = tag.counter? := by
  cases tag with
  | reference target => cases target <;> rfl
  | _ => rfl

/-- The number of tags that count on a counter. -/
def Tag.tally (counter : Text) (tags : List Tag) : Nat :=
  tags.countP fun tag => tag.counter? = some counter

/-- The number of tags of a text that count on a counter, those in the bodies of blocks
included. -/
def Text.tally (s counter : Text) : Nat :=
  Tag.tally counter s.tags

/-- The number of tags of all sources that count on a counter. -/
def OrderedMap.tally (sources : OrderedMap Text) (counter : Text) : Nat :=
  (sources.entries.map fun entry => entry.2.tally counter).sum

/-- The tags of the template and of the sources found that count on a counter. -/
def Outcome.tally (o : Outcome) (template counter : Text) : Nat :=
  template.escape.tally counter + o.cached.tally counter

/-- The number of registered partials that are read at the end: all of them if a name is known at
render time only. -/
def Outcome.preloaded (o : Outcome) (options : Options) : Nat :=
  if o.counters.count Counter.dynamicReferences = 0 then 0 else options.partials.size

theorem Tag.tally_append (counter : Text) (tags others : List Tag) :
    tally counter (tags ++ others) = tally counter tags + tally counter others :=
  List.countP_append

theorem Tag.tally_cons {tag : Tag} {name : Text} (h : tag.counter? = some name) (counter : Text)
    (tags : List Tag) :
    tally counter (tag :: tags) = (if counter = name then 1 else 0) + tally counter tags := by
  unfold tally
  rw [List.countP_cons, h, Nat.add_comm]
  simp only [Option.some.injEq, decide_eq_true_eq, @eq_comm Text counter]

theorem Text.tally_mask (s counter : Text) : (Keyword.mask s).tally counter = s.tally counter := by
  have htags : (Keyword.mask s).tags = s.tags.map (Tag.map Keyword.mask) :=
    tags_replace inert_mask s
  unfold tally Tag.tally
  rw [htags, List.countP_map]
  congr 1
  funext tag
  exact congrArg (fun found => decide (found = some counter)) (Tag.counter?_map Keyword.mask tag)

theorem OrderedMap.tally_le_of_prefix {m n : OrderedMap Text} (h : m.entries <+: n.entries)
    (counter : Text) : m.tally counter ≤ n.tally counter := by
  obtain ⟨added, hadded⟩ := h
  unfold tally
  rw [← hadded, List.map_append, List.sum_append]
  exact Nat.le_add_right _ _

theorem OrderedMap.tally_insertIfNew {m : OrderedMap Text} {name : Text} (h : name ∉ m)
    (counter source : Text) :
    (m.insertIfNew name source).tally counter = m.tally counter + source.tally counter := by
  unfold tally
  rw [entries_insertIfNew_of_not_mem h, List.map_append, List.sum_append]
  rfl

theorem OrderedMap.tally_le_of_get? {m : OrderedMap Text} {name source : Text}
    (h : m.get? name = some source) (counter : Text) : source.tally counter ≤ m.tally counter := by
  exact List.le_sum_of_mem (List.mem_map_of_mem (mem_entries_of_get? h))

namespace Handlebars

open Compilation

variable {fs : FileSystem} {flags : Flags} {fragments : Fragments} {counter : Text}

/-! ## Accounts -/

/-- What a counter says in a state. -/
def total (s : Compilation) (counter : Text) : Nat :=
  (s.view.counters.count counter).toNat

/-- As long as the counter does not run over, it goes up by `n` and by the tags of the sources
that are found in the meantime. -/
def Accounts (counter : Text) (n : Nat) (s t : Compilation) : Prop :=
  total s counter + n + t.view.cached.tally counter < 2 ^ 32 + s.view.cached.tally counter →
    total t counter + s.view.cached.tally counter =
      total s counter + n + t.view.cached.tally counter

namespace Accounts

variable {s s₁ t : Compilation} {m n : Nat}

theorem of_eq (hcounters : t.view.counters = s.view.counters)
    (hcached : t.view.cached = s.view.cached) : Accounts counter 0 s t := by
  intro _
  unfold total
  rw [hcounters, hcached]
  omega

theorem trans (h₁ : Accounts counter m s s₁) (h₂ : Accounts counter n s₁ t)
    (hmore : s₁.view.cached.tally counter ≤ t.view.cached.tally counter) :
    Accounts counter (m + n) s t := by
  intro hbound
  have hfirst := h₁ (by omega)
  have hsecond := h₂ (by omega)
  omega

theorem missed (name : Text) (s : Compilation) : Accounts counter 0 s (s.missed name) := by
  unfold Compilation.missed
  split <;> exact .of_eq rfl rfl

theorem closeChecked (name : Text) (closed : Bool) (s : Compilation) :
    Accounts counter 0 s (closeChecked name closed s) := by
  cases closed <;> exact .of_eq rfl rfl

theorem dynamicNoted (expr : Text) (s : Compilation) :
    Accounts counter 0 s (dynamicNoted expr s) := by
  unfold Handlebars.dynamicNoted
  split <;> exact .of_eq rfl rfl

/-- Counting goes up by one, on the counter that is counted on. -/
theorem counted (name : Text) (s : Compilation) :
    Accounts counter (if counter = name then 1 else 0) s (s.counted name) := by
  intro hbound
  have hcount : (s.counted name).view.counters.count counter =
      if counter = name then s.view.counters.count name + 1 else s.view.counters.count counter :=
    OrderedMap.count_insert s.view.counters name counter (s.view.counters.count name + 1)
  unfold total at hbound ⊢
  rw [hcount]
  show _ + s.view.cached.tally counter = _ + _ + s.view.cached.tally counter
  have hbound : (s.view.counters.count counter).toNat + (if counter = name then 1 else 0) +
    s.view.cached.tally counter < 2 ^ 32 + s.view.cached.tally counter := hbound
  split
  · rename_i heq
    rw [if_pos heq, heq] at hbound
    rw [heq, UInt32.toNat_add]
    simp only [UInt32.reduceToNat]
    omega
  · omega

/-- The tags of a source that is cached are counted when its unit is made. -/
theorem of_cached {name raw : Text} (hnew : name ∉ s.view.cached)
    (h : Accounts counter (raw.escape.tally counter) (s.cache name name raw) t) :
    Accounts counter 0 s t := by
  have htally : (s.cache name name raw).view.cached.tally counter =
      s.view.cached.tally counter + raw.escape.tally counter :=
    OrderedMap.tally_insertIfNew hnew counter raw.escape
  have htotal : total (s.cache name name raw) counter =
      total s counter := rfl
  unfold Accounts at h
  rw [htally, htotal] at h
  intro hbound
  have hspent := h (by omega)
  omega

/-- Merging a copy back loses no count: the copy has at least the counts that it was taken
with. -/
theorem merge (h : Accounts counter n s.isolated t)
    (hbelow : s.view.cached.entries <+: t.view.cached.entries) :
    Accounts counter n s (s.merge t) := by
  have hcached : (s.merge t).view.cached = t.view.cached := OrderedMap.absorb_of_prefix hbelow
  have hmore := OrderedMap.tally_le_of_prefix hbelow counter
  intro hbound
  rw [hcached] at hbound ⊢
  have hcopy : total t counter + s.view.cached.tally counter =
      total s counter + n + t.view.cached.tally counter := h hbound
  have hle : s.view.counters.count counter ≤ t.view.counters.count counter := by
    rw [UInt32.le_iff_toNat_le]
    show total s counter ≤ total t counter
    omega
  have hmerged : (s.merge t).view.counters.count counter = t.view.counters.count counter := by
    show (s.view.counters.raiseAll t.view.counters).count counter = _
    rw [OrderedMap.count_raiseAll]
    exact if_pos hle
  have hfinal : total (s.merge t) counter = total t counter :=
    congrArg UInt32.toNat hmerged
  omega

end Accounts

/-! ## Runs -/

/-- A state of a hook-free compilation with dispatching, in which each unit is the one of its
cached source. -/
structure Steady (flags : Flags) (fragments : Fragments) (s : Compilation) : Prop where
  calling : Calling flags fragments s
  hookFree : s.HookFree
  canonical : Canonical id flags fragments s

namespace Steady

variable {s : Compilation} (h : Steady flags fragments s)

include h

theorem emit (e : Event) : Steady flags fragments (s.emit e) :=
  ⟨h.calling.emit e, ⟨h.hookFree.hook, h.hookFree.aliases⟩, h.canonical⟩

theorem counted (name : Text) : Steady flags fragments (s.counted name) :=
  ⟨h.calling.counted name, ⟨h.hookFree.hook, h.hookFree.aliases⟩, h.canonical⟩

theorem atIndent (w : Text) : Steady flags fragments (atIndent w s) :=
  ⟨h.calling.atIndent w, ⟨h.hookFree.hook, h.hookFree.aliases⟩, h.canonical⟩

theorem isolated : Steady flags fragments s.isolated :=
  ⟨h.calling.isolated, ⟨h.hookFree.hook, h.hookFree.aliases⟩, h.canonical⟩

theorem closeChecked (name : Text) (closed : Bool) :
    Steady flags fragments (closeChecked name closed s) := by
  cases closed with
  | true => exact h
  | false =>
      exact ⟨h.calling.closeChecked name false, ⟨h.hookFree.hook, h.hookFree.aliases⟩, h.canonical⟩

theorem cache (name raw : Text) : Steady flags fragments (s.cache name name raw) := by
  refine ⟨h.calling.cache name name raw, h.hookFree.cache name raw, fun key entry hentry => ?_⟩
  obtain ⟨source, hsource, hunit⟩ := h.canonical key entry hentry
  exact ⟨source, (grows_cache name name raw s).cached _ _ hsource, hunit⟩

theorem inlineCached {name : Text} (hnew : name ∉ s.view.cached) (source : Text) :
    Steady flags fragments (inlineCached name source (inlineNoted name source s)) := by
  refine ⟨h.calling.inlineCached hnew source, ⟨h.hookFree.hook, h.hookFree.aliases⟩,
    fun key entry hentry => ?_⟩
  obtain ⟨cached, hcached, hunit⟩ := h.canonical key entry hentry
  exact ⟨cached, OrderedMap.below_insert hnew source _ _ hcached, hunit⟩

theorem after {task : Task} {code : Text} {t : Compilation} (hrun : Runs fs task s code t) :
    Steady flags fragments t := by
  have ht := hrun.hookFree h.hookFree
  have hfills := hrun.fills h.calling (renames_of_hookFree ht)
  exact ⟨h.calling.after hrun, ht, hfills.canonical h.canonical⟩

/-- What is not cached has no unit. -/
theorem not_mem_table {name : Text} (hname : name ∉ s.view.cached) : name ∉ s.view.table := by
  intro htable
  obtain ⟨entry, hentry⟩ := OrderedMap.mem_iff_exists_get?.mp htable
  obtain ⟨source, hsource, -⟩ := h.canonical name entry hentry
  exact hname (OrderedMap.mem_of_get? hsource)

end Steady

theorem steady_initial (fs : FileSystem) {options : Options} (h : options.flags.runtime = true) :
    Steady options.flags options.fragments (initial options none fs) :=
  ⟨calling_initial fs none h, ⟨rfl, rfl⟩, fun _ _ hentry => by cases hentry⟩

/-- The number of the tags of a task that count on a counter. -/
def Task.tally (counter : Text) : Task → Nat
  | .text source => source.tally counter
  | .nodes ns => Tag.tally counter (ns.flatMap Node.tags)
  | .node n => Tag.tally counter n.tags
  | .read _ => if counter = Counter.references then 1 else 0
  | .apart template => template.tally counter
  | _ => 0

theorem tally_named (name : Text) (indent : Option Text) :
    (Task.node (.reference (.named name) indent)).tally counter =
      if counter = Counter.references then 1 else 0 :=
  Tag.tally_cons rfl counter []

theorem tally_dynamic (expr : Text) (indent : Option Text) :
    (Task.node (.reference (.dynamic expr) indent)).tally counter =
      if counter = Counter.dynamicReferences then 1 else 0 :=
  Tag.tally_cons rfl counter []

/-- The closing tag of a block counts on nothing. -/
theorem tally_block (name body : Text) (closed : Bool) :
    (Task.node (.block name body closed)).tally counter =
      (if counter = Counter.references then 1 else 0) + body.tally counter := by
  have hend : Tag.tally counter (if closed then [.close name] else []) = 0 := by
    split <;> rfl
  show Tag.tally counter (.openBlock name :: (body.tags ++ if closed then [.close name] else [])) = _
  rw [Tag.tally_cons rfl, Tag.tally_append, hend]
  rfl

theorem tally_inlinePartial_ne (name body : Text) (closed : Bool) :
    (Task.node (.inlinePartial name body closed)).tally Counter.inlineDefinitions ≠ 0 := by
  show Tag.tally Counter.inlineDefinitions (.openInline name :: (body.tags ++ _)) ≠ 0
  rw [Tag.tally_cons rfl, if_pos rfl]
  omega

/-- What a task adds to a counter are its own tags. Making a unit has no tags of its own, and
counts those of the source. -/
def Task.Accounts (counter : Text) (s t : Compilation) : Task → Prop
  | .unit name => ∀ source, name ∉ s.view.table → s.view.cached.get? name = some source →
      Handlebars.Accounts counter (source.tally counter) s t
  | .embed _ => True
  | task => Handlebars.Accounts counter (task.tally counter) s t

theorem Runs.tally_le {task : Task} {s t : Compilation} {code : Text} (h : Runs fs task s code t)
    (counter : Text) : s.view.cached.tally counter ≤ t.view.cached.tally counter :=
  OrderedMap.tally_le_of_prefix h.works.appends.cached counter

theorem tally_dynamicNoted (expr : Text) (s : Compilation) (counter : Text) :
    s.view.cached.tally counter ≤ (dynamicNoted expr s).view.cached.tally counter := by
  unfold dynamicNoted
  split <;> exact Nat.le_refl _

theorem tally_missed (name : Text) (s : Compilation) (counter : Text) :
    s.view.cached.tally counter ≤ (s.missed name).view.cached.tally counter := by
  rw [cached_missed]

theorem ReadsAll.tally_le {names : List Text} {s t : Compilation} (h : ReadsAll fs names s t)
    (counter : Text) : s.view.cached.tally counter ≤ t.view.cached.tally counter := by
  induction h with
  | nil => exact Nat.le_refl _
  | cons hread _ ih => exact (hread.tally_le counter).trans ih

theorem Runs.accounts {task : Task} {s t : Compilation} {code : Text} (h : Runs fs task s code t)
    (hs : Steady flags fragments s)
    (hsources : t.view.cached.tally Counter.inlineDefinitions = 0)
    (htask : task.tally Counter.inlineDefinitions = 0) : task.Accounts counter s t := by
  induction h with
  | @text source s code t h ih =>
      have htags : ∀ counter, (Task.nodes source.nodes).tally counter = source.tally counter :=
        fun counter => congrArg (Tag.tally counter) source.tags_nodes
      have hnodes : Accounts counter ((Task.nodes source.nodes).tally counter) s t :=
        ih (hs.emit _) hsources ((htags _).trans htask)
      rw [htags] at hnodes
      exact hnodes
  | nil => exact .of_eq rfl rfl
  | @cons n ns s a s₁ b t h₁ h₂ ih₁ ih₂ =>
      have htags : ∀ counter, (Task.nodes (n :: ns)).tally counter =
          (Task.node n).tally counter + (Task.nodes ns).tally counter :=
        fun counter => Tag.tally_append counter n.tags _
      rw [htags] at htask
      -- sources stay cached, so there are no definitions in those of the first node either
      have hbefore := h₂.tally_le Counter.inlineDefinitions
      have hnode : Accounts counter ((Task.node n).tally counter) s s₁ :=
        ih₁ hs (by omega) (by omega)
      have hnodes : Accounts counter ((Task.nodes ns).tally counter) s₁ t :=
        ih₂ (hs.after h₁) hsources (by omega)
      show Accounts counter ((Task.nodes (n :: ns)).tally counter) s t
      rw [htags]
      exact hnode.trans hnodes (h₂.tally_le counter)
  | literal => exact .of_eq rfl rfl
  | «variable» => exact .of_eq rfl rfl
  | @dispatched name indent s u s₁ h₁ _ ih =>
      have hread : Accounts counter (if counter = Counter.references then 1 else 0) s s₁ :=
        ih (hs.atIndent _) hsources rfl
      rw [← tally_named name indent] at hread
      exact hread
  | embedded h₁ hruntime =>
      have hread := ((hs.atIndent _).after h₁).calling
      simp [hread.dispatches] at hruntime
  | @dynamic expr indent s =>
      have hcounted : Accounts counter (if counter = Counter.dynamicReferences then 1 else 0)
        (atIndent (indent.getD []) s) _ := .counted Counter.dynamicReferences _
      rw [← tally_dynamic expr indent] at hcounted
      exact hcounted.trans (.dynamicNoted expr _) (tally_dynamicNoted ..)
  | enclosed hblocks => simp [hs.calling.blocks] at hblocks
  | enclosedCall => exact .of_eq rfl rfl
  | notEnclosed => exact .of_eq rfl rfl
  | @blockDispatched name body closed s u s₁ unit t h₁ _ h₂ ih₁ ih₂ =>
      have hs₀ := (hs.closeChecked name closed).atIndent []
      have hbefore := h₂.tally_le Counter.inlineDefinitions
      have hdefined : t.view.cached.tally Counter.inlineDefinitions = 0 := hsources
      rw [tally_block] at htask
      have hread : Accounts counter (if counter = Counter.references then 1 else 0)
        (closeChecked name closed s) s₁ := ih₁ hs₀ (by omega) rfl
      have hbody : Accounts counter (body.tally counter) s₁ t :=
        ih₂ (hs₀.after h₁) hdefined (Nat.eq_zero_of_add_eq_zero_left htask)
      have hclosed := (Accounts.closeChecked name closed s).trans hread (h₁.tally_le counter)
      rw [Nat.zero_add] at hclosed
      have hblock := hclosed.trans hbody (h₂.tally_le counter)
      rw [← tally_block name body closed] at hblock
      exact hblock
  | blockEmbedded h₁ hruntime =>
      have hread := (((hs.closeChecked _ _).atIndent []).after h₁).calling
      simp [hread.dispatches] at hruntime
  | inlineKnown => exact absurd htask (tally_inlinePartial_ne _ _ _)
  | inlineNew => exact absurd htask (tally_inlinePartial_ne _ _ _)
  | strayClose => exact .of_eq rfl rfl
  | readKnown => exact .counted Counter.references _
  | readMissing =>
      exact (Accounts.counted Counter.references _).trans (.missed _ _) (tally_missed ..)
  | @readFound name s raw source target u t hnew _ hparts h ih =>
      have hcounted := hs.counted Counter.references
      obtain ⟨rfl, rfl⟩ := hcounted.hookFree.parts_eq hparts
      rw [hs.hookFree.resolvedName_eq] at hnew
      rw [hcounted.hookFree.preprocessed_eq] at h ih
      have hsource : (s.view.cached.insertIfNew name raw.escape).get? name = some raw.escape :=
        OrderedMap.get?_insertIfNew_self hnew raw.escape
      have hunit := ih (hcounted.cache _ _) hsources rfl raw.escape (hs.not_mem_table hnew) hsource
      have hmore : s.view.cached.tally counter ≤ _ := OrderedMap.tally_le_of_prefix
        (OrderedMap.prefix_insertIfNew s.view.cached name raw.escape) counter
      exact (Accounts.counted Counter.references s).trans (.of_cached hnew hunit)
        (hmore.trans (h.tally_le counter))
  | @unitIdle name s hidle =>
      intro source htable hsource
      rcases hidle with hruntime | hmem | hnone
      · simp [hs.calling.dispatches] at hruntime
      · exact absurd hmem htable
      · simp [hsource] at hnone
  | @unitNew name s source unit t _ _ hsource h ih =>
      intro other _ hother
      obtain rfl := Option.some.inj (hsource.symm.trans hother)
      have hdefined : t.view.cached.tally Counter.inlineDefinitions = 0 := hsources
      have hsource := OrderedMap.tally_le_of_get? (h.grows.cached _ _ hsource)
        Counter.inlineDefinitions
      exact ih hs hdefined (Nat.le_zero.mp (hdefined ▸ hsource))
  | @apart template s code t h ih =>
      have hbelow : s.isolated.view.cached.entries <+: t.view.cached.entries :=
        h.works.appends.cached
      have hcached : (s.merge t).view.cached = t.view.cached := OrderedMap.absorb_of_prefix hbelow
      have hcopy : Accounts counter ((Keyword.mask template).tally counter) s.isolated t :=
        ih hs.isolated (hcached ▸ hsources) ((template.tally_mask _).trans htask)
      rw [Text.tally_mask] at hcopy
      exact hcopy.merge hbelow
  | embedMissing => trivial
  | embedOpen => trivial
  | embedGuarded => trivial
  | embedRepeated => trivial

theorem ReadsAll.accounts {names : List Text} {s t : Compilation} (h : ReadsAll fs names s t)
    (hs : Steady flags fragments s)
    (hsources : t.view.cached.tally Counter.inlineDefinitions = 0) :
    Accounts counter (names.length * if counter = Counter.references then 1 else 0) s t := by
  induction h with
  | nil =>
      rw [List.length_nil, Nat.zero_mul]
      exact .of_eq rfl rfl
  | @cons name names s u s₁ t hread hreads ih =>
      have hfirst : Accounts counter (if counter = Counter.references then 1 else 0) s s₁ :=
        hread.accounts hs (Nat.le_zero.mp (hsources ▸ hreads.tally_le Counter.inlineDefinitions)) rfl
      rw [List.length_cons, Nat.add_mul, Nat.one_mul, Nat.add_comm]
      exact hfirst.trans (ih (hs.after hread) hsources) (hreads.tally_le counter)

/-! ## Whole compilations -/

namespace Compiles

variable {options : Options} {template code : Text} {middle final : Compilation}
  (h : Compiles fs options none template code middle final)

include h

/-- A counter that nothing was counted on before ends with the tags of the template and of the
sources, and the registered partials if these were read. -/
theorem total_final (counter : Text) (hruntime : options.flags.runtime = true)
    (hdefined : (Outcome.ofRun (code, final)).tally template Counter.inlineDefinitions = 0)
    (hstart : total (initial options none fs) counter = 0)
    (hbound : template.escape.tally counter + final.view.cached.tally counter +
      (preloaded middle.view).length * (if counter = Counter.references then 1 else 0) < 2 ^ 32) :
    total middle counter = template.escape.tally counter + middle.view.cached.tally counter ∧
    total final counter = template.escape.tally counter + final.view.cached.tally counter +
      (preloaded middle.view).length * if counter = Counter.references then 1 else 0 := by
  have hs := steady_initial fs hruntime
  obtain ⟨htemplate, hsources⟩ := Nat.add_eq_zero_iff.mp hdefined
  have hbefore := Nat.le_zero.mp (hsources ▸ h.reads.tally_le Counter.inlineDefinitions)
  have hmore := h.reads.tally_le counter
  have hempty : (initial options none fs).view.cached.tally counter = 0 := rfl
  have hruns : Accounts counter (template.escape.tally counter) (initial options none fs) middle :=
    h.runs.accounts hs hbefore htemplate
  have hreads : Accounts counter _ middle final := h.reads.accounts (hs.after h.runs) hsources
  unfold Accounts at hruns hreads
  rw [hstart, hempty] at hruns
  have hmiddle := hruns (by omega)
  have hfinal := hreads (by omega)
  omega

end Compiles

/-- Whether a name is known at render time only can be told from the last state. -/
theorem preloaded_length {options : Options} {template code : Text} {middle final : Compilation}
    (h : Compiles fs options none template code middle final)
    (hdynamic : total middle Counter.dynamicReferences ≤ total final Counter.dynamicReferences) :
    (preloaded middle.view).length = (Outcome.ofRun (code, final)).preloaded options := by
  have hpartials : middle.view.partials = options.partials :=
    congrArg (fun c => c.partials) h.runs.scope_eq
  have hreads := h.reads
  unfold Outcome.preloaded
  show _ = if final.view.counters.count Counter.dynamicReferences = 0 then _ else _
  unfold preloaded at hreads ⊢
  by_cases hmiddle : middle.view.counters.count Counter.dynamicReferences = 0
  · rw [if_neg (not_not_intro hmiddle)] at hreads ⊢
    cases hreads
    rw [if_pos hmiddle]
    rfl
  · have hfinal : final.view.counters.count Counter.dynamicReferences ≠ 0 := by
      intro hzero
      unfold total at hdynamic
      rw [hzero] at hdynamic
      exact hmiddle (UInt32.toNat_inj.mp (Nat.le_zero.mp hdynamic))
    rw [if_pos hmiddle, if_neg hfinal, hpartials]
    exact List.length_map ..

/-- If nothing is defined inline and the totals are within range, then the counters tell exactly
the tags that name a partial or open a block, in the template and in each source found, and the
tags that name one by an expression. Each registered partial counts once more if there are such. -/
theorem counters_exact (fs : FileSystem) (options : Options) (template : Text)
    (hruntime : options.flags.runtime = true) :
    ∃ outcome, compile fs options none template = some outcome ∧
      (outcome.tally template Counter.inlineDefinitions = 0 →
        outcome.tally template Counter.references + outcome.preloaded options < 2 ^ 32 →
        outcome.tally template Counter.dynamicReferences < 2 ^ 32 →
        (outcome.counters.count Counter.references).toNat =
          outcome.tally template Counter.references + outcome.preloaded options ∧
        (outcome.counters.count Counter.dynamicReferences).toNat =
          outcome.tally template Counter.dynamicReferences) := by
  obtain ⟨code, middle, final, hrun, h⟩ := exists_compiles fs options template
  have hcompile : compile fs options none template = some (Outcome.ofRun (code, final)) := by
    unfold compile
    rw [hrun]
    rfl
  refine ⟨_, hcompile, fun hdefined hreferences hdynamic => ?_⟩
  have hno : Counter.dynamicReferences ≠ Counter.references := by decide
  have hdynamics := h.total_final Counter.dynamicReferences hruntime hdefined
    rfl (by rw [if_neg hno]; exact hdynamic)
  have hlength := preloaded_length h (by
    have := h.reads.tally_le Counter.dynamicReferences
    omega)
  have hnamed := h.total_final Counter.references hruntime hdefined rfl
    (by rw [if_pos rfl, Nat.mul_one, hlength]; exact hreferences)
  rw [if_neg hno, Nat.mul_zero] at hdynamics
  rw [if_pos rfl, Nat.mul_one, hlength] at hnamed
  exact ⟨hnamed.2, hdynamics.2⟩

/-- A partial that refers to itself and to one that is not there, and another registered one. -/
def countedOptions : Options :=
  { Options.standard with
    flags := ⟨true, true, false, false⟩
    partials := .ofList
      [("a".toList, "\x7b\x7b> a\x7d\x7d\x7b\x7b> gone\x7d\x7d".toList), ("b".toList, "B".toList)] }

/-- A name that is known at render time only, in the body of a block. -/
def countedTemplate : Text :=
  "\x7b\x7b#> a\x7d\x7d\x7b\x7b> (x)\x7d\x7d\x7b\x7b/a\x7d\x7d".toList

/-- One block, two references in the partial, and the two partials that are registered. -/
theorem counters_exact_dynamic : countedOptions.flags.runtime = true ∧
    ∃ outcome, compile (.emptyAt ['/']) countedOptions none countedTemplate = some outcome ∧
      (outcome.counters.count Counter.references).toNat = 1 + 2 + 2 ∧
      (outcome.counters.count Counter.dynamicReferences).toNat = 1 := by
  have htallies : (compile (.emptyAt ['/']) countedOptions none countedTemplate).map
      (fun outcome => (outcome.tally countedTemplate Counter.references,
        outcome.tally countedTemplate Counter.dynamicReferences,
        outcome.tally countedTemplate Counter.inlineDefinitions,
        outcome.preloaded countedOptions)) = some (3, 1, 0, 2) := by
    decide +kernel
  obtain ⟨outcome, hcompile, hexact⟩ :=
    counters_exact (.emptyAt ['/']) countedOptions countedTemplate rfl
  rw [hcompile] at htallies
  simp only [Option.map_some, Option.some.injEq, Prod.mk.injEq] at htallies
  obtain ⟨hreferences, hdynamic, hdefined, hpreloaded⟩ := htallies
  have htotals := hexact hdefined (by omega) (by omega)
  rw [hreferences, hdynamic, hpreloaded] at htotals
  exact ⟨rfl, outcome, hcompile, htotals⟩

end Handlebars

end Inlay
