import Inlay.Proofs.Enrollment
import Inlay.Proofs.Subtasks

/-!
# Copies that are merged back

What is done on a copy of a context extends it: sources, names and units are
put behind those that are there, diagnostics are appended, and counters go
up as long as they do not run over. Where a copy extends a context, merging
it back gives the context all of it, in the same order, and nothing else.
The copies that a compilation makes by itself are such copies too, so the
two are proved together.
-/

namespace Inlay

namespace OrderedMap

variable {α : Type} {m n : OrderedMap α}

/-! ## Maps that are extended -/

/-- Maps with the same names in the same order and the same values are equal. -/
theorem ext_keys_get? (hkeys : m.keys = n.keys) (hvalues : ∀ name, m.get? name = n.get? name) :
    m = n := by
  have hentry : ∀ (m : OrderedMap α), m.entries.map some =
      m.keys.map fun name => (m.get? name).map fun value => (name, value) := by
    intro m
    rw [keys, List.map_map]
    refine List.map_congr_left fun entry hentry => ?_
    show some entry = (m.entries.lookup entry.1).map _
    rw [lookup_of_mem m.nodup hentry, Option.map_some]
  refine ext_entries (List.map_injective_iff.mpr (Option.some_injective _) ?_)
  rw [hentry, hentry, hkeys]
  exact List.map_congr_left fun name _ => by rw [hvalues]

/-- A map takes from one that goes on from it all that it has. -/
theorem absorb_of_prefix (h : m.entries <+: n.entries) : m.absorb n = n := by
  obtain ⟨added, hadded⟩ := h
  refine ext_entries ?_
  have hnodup := n.nodup
  rw [absorb_eq_absorbEntries, ← hadded, absorbEntries_append,
    absorbEntries_of_subset fun name hname => hname]
  rw [← hadded, List.map_append, List.nodup_append] at hnodup
  exact entries_absorbEntries_of_disjoint hnodup.2.1 fun name hname hm =>
    hnodup.2.2 name hm name hname rfl

theorem keys_absorb_of_prefix (h : m.keys <+: n.keys) : (m.absorb n).keys = n.keys := by
  obtain ⟨added, hadded⟩ := h
  unfold absorb
  rw [dif_pos (List.isPrefixOf_iff_prefix.mpr ⟨added, hadded⟩)]
  show (m.entries ++ n.entries.drop m.size).map Prod.fst = _
  have hsize : m.size = m.keys.length := by simp [size, keys]
  rw [List.map_append, List.map_drop, hsize]
  show m.keys ++ n.keys.drop m.keys.length = _
  rw [← hadded, List.drop_left]

theorem prefix_insertIfNew (m : OrderedMap α) (name : Text) (value : α) :
    m.entries <+: (m.insertIfNew name value).entries := by
  obtain ⟨added, hadded⟩ := entries_insertIfNew_append m name value
  exact ⟨added, hadded.symm⟩

theorem prefix_insert {name : Text} (h : name ∉ m) (value : α) :
    m.entries <+: (m.insert name value).entries := by
  unfold insert
  rw [if_neg h]
  exact prefix_insertIfNew m name value

theorem keys_insert (h : m.keys = n.keys) (name : Text) (value other : α) :
    (m.insert name value).keys = (n.insertIfNew name other).keys := by
  have hmem : name ∈ m ↔ name ∈ n := by rw [mem_iff_mem_keys, h, mem_iff_mem_keys]
  unfold insert
  by_cases hname : name ∈ m
  · have hfst : Prod.fst ∘ setEntry name value = (Prod.fst : Text × α → Text) :=
      funext (fst_setEntry name value)
    rw [if_pos hname, insertIfNew_of_mem (hmem.mp hname), ← h]
    show (m.entries.map (setEntry name value)).map Prod.fst = _
    rw [List.map_map, hfst]
    rfl
  · rw [if_neg hname, keys, keys, entries_insertIfNew_of_not_mem hname,
      entries_insertIfNew_of_not_mem (mt hmem.mpr hname), List.map_append, List.map_append]
    exact congrArg (· ++ [name]) h

theorem prefix_keys_insert (m : OrderedMap α) (name : Text) (value : α) :
    m.keys <+: (m.insert name value).keys := by
  rw [keys_insert rfl name value value]
  exact (prefix_insertIfNew m name value).map _

/-! ## Counters that go up -/

/-- The counters are all there, in their order, and none of them went down. -/
structure Rises (m n : OrderedMap UInt32) : Prop where
  keys : m.keys <+: n.keys
  count : ∀ name, m.count name ≤ n.count name

theorem Rises.refl (m : OrderedMap UInt32) : m.Rises m :=
  ⟨List.prefix_rfl, fun _ => UInt32.le_refl _⟩

theorem Rises.trans {m n p : OrderedMap UInt32} (h₁ : m.Rises n) (h₂ : n.Rises p) : m.Rises p :=
  ⟨h₁.keys.trans h₂.keys, fun name => UInt32.le_trans (h₁.count name) (h₂.count name)⟩

def greatestCount : UInt32 :=
  4294967295

/-- A counter goes up by one unless it runs over. -/
theorem rises_increment {m : OrderedMap UInt32} {name : Text} (h : m.count name ≠ greatestCount) :
    m.Rises (m.increment name) := by
  refine ⟨prefix_keys_insert m name _, fun other => ?_⟩
  rw [increment, count_insert]
  split
  · rename_i heq
    rw [heq]
    have hlt : (m.count name).toNat ≠ 4294967295 := fun hmax =>
      h (UInt32.toNat_inj.mp hmax)
    have hbound := (m.count name).toNat_lt
    rw [UInt32.le_iff_toNat_le, UInt32.toNat_add]
    simp only [UInt32.reduceToNat]
    omega
  · exact UInt32.le_refl _

theorem keys_raiseAll (m n : OrderedMap UInt32) : (m.raiseAll n).keys = (m.absorb n).keys := by
  have hkeys : ∀ (entries : List (Text × UInt32)) (m p : OrderedMap UInt32), m.keys = p.keys →
      (entries.foldl (fun acc entry => acc.raise entry.1 entry.2) m).keys =
        (p.absorbEntries entries).keys := by
    intro entries
    induction entries with
    | nil => exact fun _ _ h => h
    | cons entry entries ih => exact fun m p h => ih _ _ (keys_insert h entry.1 _ entry.2)
  rw [absorb_eq_absorbEntries]
  exact hkeys n.entries m m rfl

theorem count_of_not_mem {m : OrderedMap UInt32} {name : Text} (h : name ∉ m) :
    m.count name = 0 := by
  rw [count, get?_eq_none_iff.mpr h, Option.getD_none]

/-- Each count is the greater one of the two. -/
theorem count_raiseAll (m n : OrderedMap UInt32) (name : Text) :
    (m.raiseAll n).count name = max (m.count name) (n.count name) := by
  have hentries : ∀ (entries : List (Text × UInt32)) (m : OrderedMap UInt32),
      (entries.map Prod.fst).Nodup →
      (entries.foldl (fun acc entry => acc.raise entry.1 entry.2) m).count name =
        match entries.lookup name with
        | some value => max (m.count name) value
        | none => m.count name := by
    intro entries
    induction entries with
    | nil => exact fun _ _ => rfl
    | cons entry entries ih =>
        intro m hnodup
        obtain ⟨key, value⟩ := entry
        obtain ⟨hnew, hnodup⟩ := List.nodup_cons.mp hnodup
        rw [List.foldl_cons, ih _ hnodup, raise, count_insert]
        by_cases hname : name = key
        · have hnone : entries.lookup name = none := by
            rw [List.lookup_eq_none_iff]
            intro entry hentry
            rw [bne_iff_ne, hname]
            rintro rfl
            exact hnew (List.mem_map.mpr ⟨entry, hentry, rfl⟩)
          rw [hnone, if_pos hname, hname, lookup_cons_self]
        · rw [if_neg hname, lookup_cons_of_ne hname]
  unfold raiseAll
  rw [hentries n.entries m n.nodup]
  show (match n.get? name with | some value => _ | none => _) = _
  cases hvalue : n.get? name with
  | none =>
      rw [count_of_not_mem (get?_eq_none_iff.mp hvalue), ← UInt32.toNat_inj, UInt32.toNat_max]
      exact (Nat.max_zero _).symm
  | some value =>
      have hcount : n.count name = value := by rw [count, hvalue, Option.getD_some]
      rw [hcount]

/-- Counters with the same names in the same order and the same counts are equal. -/
theorem ext_keys_count {m n : OrderedMap UInt32} (hkeys : m.keys = n.keys)
    (hcounts : ∀ name, m.count name = n.count name) : m = n := by
  refine ext_keys_get? hkeys fun name => ?_
  have hmem : name ∈ m ↔ name ∈ n := by rw [mem_iff_mem_keys, hkeys, mem_iff_mem_keys]
  by_cases hname : name ∈ n
  · obtain ⟨value, hvalue⟩ := mem_iff_exists_get?.mp hname
    obtain ⟨other, hother⟩ := mem_iff_exists_get?.mp (hmem.mpr hname)
    have hcount := hcounts name
    unfold count at hcount
    rw [hother, hvalue, Option.getD_some, Option.getD_some] at hcount
    rw [hother, hvalue, hcount]
  · rw [get?_eq_none_iff.mpr hname, get?_eq_none_iff.mpr (mt hmem.mp hname)]

theorem Rises.raiseAll {m n : OrderedMap UInt32} (h : m.Rises n) : m.raiseAll n = n := by
  refine ext_keys_count ?_ fun name => ?_
  · rw [keys_raiseAll, keys_absorb_of_prefix h.keys]
  · rw [count_raiseAll]
    exact if_pos (h.count name)

end OrderedMap

/-! ## States that are extended -/

/-- All that a copy hands back when it is merged. -/
structure Findings where
  diagnostics : List Diagnostic
  cached : OrderedMap Text
  aliases : OrderedMap Text
  partials : OrderedMap Text
  table : OrderedMap Text
  counters : OrderedMap UInt32

def View.findings (v : View) : Findings :=
  ⟨v.diagnostics, v.cached, v.aliases, v.partials, v.table, v.counters⟩

/-- The context with other findings. -/
def Context.withFindings (c : Context) (found : Findings) : Context :=
  { c with
    diagnostics := found.diagnostics
    cached := found.cached
    aliases := found.aliases
    partials := found.partials
    table := found.table
    counters := found.counters }

/-- The findings go on: nothing is lost, moved or changed, and no partial is registered. -/
structure Findings.Extend (f g : Findings) : Prop where
  diagnostics : f.diagnostics <+: g.diagnostics
  cached : f.cached.entries <+: g.cached.entries
  aliases : f.aliases.entries <+: g.aliases.entries
  partials : g.partials = f.partials
  table : f.table.entries <+: g.table.entries
  counters : f.counters.Rises g.counters

namespace Findings

theorem Extend.refl (f : Findings) : f.Extend f :=
  ⟨List.prefix_rfl, List.prefix_rfl, List.prefix_rfl, rfl, List.prefix_rfl, .refl _⟩

theorem Extend.trans {f g h : Findings} (h₁ : f.Extend g) (h₂ : g.Extend h) : f.Extend h :=
  ⟨h₁.diagnostics.trans h₂.diagnostics, h₁.cached.trans h₂.cached, h₁.aliases.trans h₂.aliases,
    h₂.partials.trans h₁.partials, h₁.table.trans h₂.table, h₁.counters.trans h₂.counters⟩

end Findings

/-- Merging back a copy whose findings go on leaves these findings, and the rest as it was. -/
theorem Context.merge_of_extend {c copy : Context} (h : c.findings.Extend copy.findings) :
    c.merge copy = c.withFindings copy.findings := by
  obtain ⟨added, hadded⟩ := h.diagnostics
  have hdiagnostics : c.diagnostics ++ copy.diagnostics.drop c.diagnostics.length =
      copy.diagnostics := by
    show c.findings.diagnostics ++ copy.findings.diagnostics.drop c.findings.diagnostics.length =
      copy.findings.diagnostics
    rw [← hadded, List.drop_left]
  have hcached : c.cached.absorb copy.cached = copy.cached := OrderedMap.absorb_of_prefix h.cached
  have haliases : c.aliases.absorb copy.aliases = copy.aliases :=
    OrderedMap.absorb_of_prefix h.aliases
  have htable : c.table.absorb copy.table = copy.table := OrderedMap.absorb_of_prefix h.table
  have hpartials : copy.partials = c.partials := h.partials
  have hcounters : c.counters.raiseAll copy.counters = copy.counters := h.counters.raiseAll
  unfold merge View.merge withFindings View.findings
  rw [hdiagnostics, hcached, haliases, htable, hcounters, hpartials, OrderedMap.absorb_self]

namespace Compilation

/-- The findings of the second state go on from those of the first. -/
def Extends (s t : Compilation) : Prop :=
  s.view.findings.Extend t.view.findings

theorem Extends.refl (s : Compilation) : s.Extends s :=
  Findings.Extend.refl _

theorem Extends.trans {s t r : Compilation} (h₁ : s.Extends t) (h₂ : t.Extends r) : s.Extends r :=
  Findings.Extend.trans h₁ h₂

theorem extends_report (d : Diagnostic) (s : Compilation) : s.Extends (s.mapView (·.report d)) :=
  ⟨List.prefix_append .., List.prefix_rfl, List.prefix_rfl, rfl, List.prefix_rfl, .refl _⟩

theorem extends_missed (name : Text) (s : Compilation) : s.Extends (s.missed name) := by
  unfold missed
  split
  · exact .refl s
  · exact extends_report ..

theorem extends_missedOnce (name : Text) (s : Compilation) : s.Extends (s.missedOnce name) := by
  unfold missedOnce
  split
  · exact extends_report ..
  · exact .refl s

theorem extends_counted {name : Text} {s : Compilation}
    (h : s.view.counters.count name ≠ OrderedMap.greatestCount) : s.Extends (s.counted name) :=
  ⟨List.prefix_rfl, List.prefix_rfl, List.prefix_rfl, rfl, List.prefix_rfl,
    OrderedMap.rises_increment h⟩

theorem extends_preprocessed (source name : Text) (s : Compilation) :
    s.Extends (s.preprocessed source name) := by
  unfold preprocessed
  split
  · exact ⟨List.prefix_rfl, List.prefix_rfl, List.prefix_rfl, rfl, List.prefix_rfl, .refl _⟩
  · exact .refl s

theorem extends_cache (name target source : Text) (s : Compilation) :
    s.Extends (s.cache name target source) := by
  have haliases : s.view.aliases.entries <+:
      (if target = name then s.view.aliases else s.view.aliases.insertIfNew name target).entries := by
    split
    · exact List.prefix_rfl
    · exact OrderedMap.prefix_insertIfNew ..
  exact ⟨List.prefix_rfl, OrderedMap.prefix_insertIfNew .., haliases, rfl, List.prefix_rfl, .refl _⟩

theorem extends_enroll (name unit : Text) (s : Compilation) : s.Extends (s.enroll name unit) :=
  ⟨List.prefix_rfl, List.prefix_rfl, List.prefix_rfl, rfl, OrderedMap.prefix_insertIfNew ..,
    .refl _⟩

/-- The state that a copy was taken from takes over all of the copy. -/
theorem extends_merge {s t : Compilation} (h : s.Extends t) : s.Extends (s.merge t) := by
  have hmerge : s.context.merge t.context = s.context.withFindings t.context.findings :=
    Context.merge_of_extend h
  have hfindings : (s.merge t).view.findings = t.view.findings :=
    congrArg (fun c => c.findings) hmerge
  unfold Extends
  rw [hfindings]
  exact h

end Compilation

/-! ## Tasks that do not run over a counter -/

namespace Handlebars

open Compilation

/-- The counter that a task counts one more on. -/
def Task.counter? : Task → Option Text
  | .read _ => some Counter.references
  | .node (.reference (.dynamic _) _) => some Counter.dynamicReferences
  | .node (.inlinePartial _ _ _) => some Counter.inlineDefinitions
  | _ => none

/-- No counter is at its greatest when the task, or one that it comes to, counts on it. -/
def Task.Counts (fs : FileSystem) (task : Task) (s : Compilation) : Prop :=
  ∀ ⦃task' s'⦄, Meets fs task s task' s' → ∀ counter ∈ task'.counter?,
    s'.view.counters.count counter ≠ OrderedMap.greatestCount

theorem Task.Counts.of_starts {fs : FileSystem} {task task' : Task} {s s' : Compilation}
    (h : task.Counts fs s) (hstarts : Starts fs task s task' s') : task'.Counts fs s' :=
  fun _ _ hmeets => h (hstarts.meets hmeets)

theorem extends_dynamicNoted (expr : Text) (s : Compilation) : s.Extends (dynamicNoted expr s) := by
  unfold dynamicNoted
  split
  · exact extends_report ..
  · exact .refl s

theorem extends_closeChecked (name : Text) (closed : Bool) (s : Compilation) :
    s.Extends (closeChecked name closed s) := by
  cases closed with
  | true => exact .refl s
  | false => exact extends_report ..

theorem counters_closeChecked (name : Text) (closed : Bool) (s : Compilation) :
    (closeChecked name closed s).view.counters = s.view.counters := by
  cases closed <;> rfl

theorem extends_inlineNoted {name source : Text} {s : Compilation}
    (h : s.view.counters.count Counter.inlineDefinitions ≠ OrderedMap.greatestCount) :
    s.Extends (inlineNoted name source s) :=
  ⟨List.prefix_rfl, List.prefix_rfl, List.prefix_rfl, rfl, List.prefix_rfl,
    OrderedMap.rises_increment h⟩

theorem extends_inlineCached {name : Text} {s : Compilation} (h : name ∉ s.view.cached)
    (source : Text) : s.Extends (inlineCached name source s) :=
  ⟨List.prefix_rfl, OrderedMap.prefix_insert h source, List.prefix_rfl, rfl, List.prefix_rfl,
    .refl _⟩

/-- A task extends the state as long as no counter runs over. -/
theorem Runs.extends {fs : FileSystem} {task : Task} {s t : Compilation} {code : Text}
    (h : Runs fs task s code t) (hcounts : task.Counts fs s) : s.Extends t := by
  induction h with
  | text _ ih =>
      exact ih (hcounts.of_starts .text)
  | nil => exact .refl _
  | cons hnode _ ih₁ ih₂ =>
      exact (ih₁ (hcounts.of_starts .head)).trans (ih₂ (hcounts.of_starts (.tail hnode)))
  | literal => exact .refl _
  | «variable» => exact .refl _
  | dispatched _ _ ih =>
      exact ih (hcounts.of_starts .referenceRead)
  | embedded hread hruntime _ ih₁ ih₂ =>
      exact Extends.trans (ih₁ (hcounts.of_starts .referenceRead))
        (ih₂ (hcounts.of_starts (.referenceEmbed hread hruntime)))
  | @dynamic expr indent s =>
      have hcount : (atIndent (indent.getD []) s).view.counters.count Counter.dynamicReferences ≠
        OrderedMap.greatestCount := hcounts .here _ rfl
      have h := (extends_counted hcount).trans (extends_dynamicNoted expr _)
      exact h
  | enclosed hblocks _ ih =>
      exact ih (hcounts.of_starts (.enclosed hblocks))
  | enclosedCall => exact .refl _
  | notEnclosed => exact extends_report ..
  | blockDispatched hread hruntime _ ih₁ ih₂ =>
      exact (extends_closeChecked ..).trans (Extends.trans (ih₁ (hcounts.of_starts .blockRead))
        (ih₂ (hcounts.of_starts (.blockApart hread hruntime))))
  | blockEmbedded hread hruntime _ ih₁ ih₂ =>
      exact (extends_closeChecked ..).trans (Extends.trans (ih₁ (hcounts.of_starts .blockRead))
        (ih₂ (hcounts.of_starts (.blockEmbed hread hruntime))))
  | @inlineKnown name body closed s _ =>
      refine (extends_closeChecked ..).trans (extends_inlineNoted ?_)
      rw [counters_closeChecked]
      exact hcounts .here _ rfl
  | @inlineNew name body closed s _ _ hnew _ ih =>
      refine (extends_closeChecked "inline".toList closed s).trans
        ((@extends_inlineNoted name (Keyword.unmask body) _ ?_).trans
          ((extends_inlineCached ?_ (Keyword.unmask body)).trans
            (ih (hcounts.of_starts (.inline hnew)))))
      · rw [counters_closeChecked]
        exact hcounts .here _ rfl
      · rwa [cached_inlineNoted]
  | strayClose => exact extends_report ..
  | readKnown => exact extends_counted (hcounts .here _ rfl)
  | readMissing => exact (extends_counted (hcounts .here _ rfl)).trans (extends_missed ..)
  | @readFound name s raw _ _ _ _ hnew hraw hparts _ ih =>
      have h₁ := extends_counted (hcounts .here _ rfl)
      have h₂ := extends_preprocessed raw name (s.counted Counter.references)
      exact (h₁.trans h₂).trans
        ((extends_cache ..).trans (ih (hcounts.of_starts (.found hnew hraw hparts))))
  | unitIdle => exact .refl _
  | unitNew hruntime hnew hsource _ ih =>
      exact (ih (hcounts.of_starts (.unit hruntime hnew hsource))).trans (extends_enroll ..)
  -- the copy was taken from this state, so merging it back loses nothing
  | apart _ ih => exact extends_merge (ih (hcounts.of_starts .apart))
  | embedMissing => exact extends_missedOnce ..
  | embedOpen hsource hruntime _ ih => exact ih (hcounts.of_starts (.embedOpen hsource hruntime))
  | embedGuarded hsource hruntime hnodup _ ih =>
      exact ih (hcounts.of_starts (.embedGuarded hsource hruntime hnodup))
  | embedRepeated => exact extends_report ..

/-! ## Sessions on a copy -/

inductive Operation where
  | read (name : Text)
  | embed (name : Text)
  | unit (name : Text)
  | apart (source : Text)
  | preload
  | template (source : Text)

namespace Operation

/-- With this host, the operation leads from the one state to the other. -/
def Returns (op : Operation) (fs : FileSystem) (self : Host) (s t : Compilation) : Prop :=
  match op with
  | .read name => ∃ unit, readPartial self name fs s = some (unit, t)
  | .embed name => ∃ code, Inlay.embed self name fs s = some (code, t)
  | .unit name => ∃ unit, compileUnit self name fs s = some (unit, t)
  | .apart source => ∃ code, compileLocal self source fs s = some (code, t)
  | .preload => Inlay.preload self fs s = some ((), t)
  | .template source => ∃ code, self source fs s = some (code, t)

/-- No counter runs over when the partials are read in order. -/
def ReadsCount (fs : FileSystem) : List Text → Compilation → Prop
  | [], _ => True
  | name :: names, s =>
      (Task.read name).Counts fs s ∧ ∀ u t, Runs fs (.read name) s u t → ReadsCount fs names t

/-- No counter runs over in the operation. -/
def Counts (op : Operation) (fs : FileSystem) (s : Compilation) : Prop :=
  match op with
  | .read name => (Task.read name).Counts fs s
  | .embed name => (Task.embed (s.view.resolvedName name)).Counts fs s
  | .unit name => (Task.unit name).Counts fs s
  | .apart source => (Task.apart source).Counts fs s
  | .preload => ReadsCount fs (preloaded s.view) s
  | .template source => (Task.nodes source.nodes).Counts fs s

variable {fs : FileSystem} {self : Host} {s t : Compilation}

theorem extends_readsAll {names : List Text} (h : ReadsAll fs names s t)
    (hcounts : ReadsCount fs names s) : s.Extends t := by
  induction h with
  | nil => exact .refl _
  | cons hread _ ih =>
      exact (hread.extends hcounts.1).trans (ih (hcounts.2 _ _ hread))

theorem extends_of_returns {op : Operation} (hself : Sound fs self) (h : op.Returns fs self s t)
    (hcounts : op.Counts fs s) : s.Extends t := by
  cases op with
  | read name =>
      obtain ⟨unit, h⟩ := h
      exact (hself.runs_read h).extends hcounts
  | embed name =>
      obtain ⟨code, h⟩ := h
      exact (hself.runs_embed h).extends hcounts
  | unit name =>
      obtain ⟨unit, h⟩ := h
      exact (hself.runs_unit h).extends hcounts
  | apart source =>
      obtain ⟨code, h⟩ := h
      exact (hself.runs_apart h).extends hcounts
  | preload => exact extends_readsAll (hself.reads_all (preload_apply self fs s ▸ h)) hcounts
  | template source =>
      obtain ⟨code, h⟩ := h
      exact (hself h).extends hcounts

end Operation

/-- Operations one after another, in which no counter runs over. In between, a copy is taken,
another session goes on with the copy, and the copy is merged back. -/
inductive Session (fs : FileSystem) : Compilation → Compilation → Prop
  | done {s} : Session fs s s
  | operation {s s₁ t depth} {op : Operation} :
      op.Returns fs (host depth) s s₁ → op.Counts fs s → Session fs s₁ t → Session fs s t
  | nested {s copy t} : Session fs s copy → Session fs (s.merge copy) t → Session fs s t

theorem Session.extends {fs : FileSystem} {s t : Compilation} (h : Session fs s t) :
    s.Extends t := by
  induction h with
  | done => exact .refl _
  | operation hreturns hcounts _ ih =>
      exact (Operation.extends_of_returns (sound_host fs _) hreturns hcounts).trans ih
  | nested _ _ ih₁ ih₂ => exact (extends_merge ih₁).trans ih₂

/-- After any session on a copy of a context, merging the copy back leaves the findings of the
copy in the place of the context's own, and everything else as it was. -/
theorem merge_lossless {fs : FileSystem} {c : Context} {trace : List Event} {copy : Compilation}
    (h : Session fs ⟨c, trace⟩ copy) :
    c.merge copy.context = c.withFindings copy.view.findings :=
  Context.merge_of_extend h.extends

/-- Where partials are embedded, reading one counts once: no unit is made. -/
theorem counts_read {fs : FileSystem} {name : Text} {s : Compilation}
    (hembeds : s.view.flags.runtime = false)
    (h : s.view.counters.count Counter.references ≠ OrderedMap.greatestCount) :
    (Task.read name).Counts fs s := by
  intro task s' hmeets counter hcounter
  rcases hmeets.of_read hembeds with ⟨rfl, rfl⟩ | ⟨target, rfl⟩
  · obtain rfl := Option.some.inj hcounter
    exact h
  · cases hcounter

def copiedContext : Context :=
  Context.start { Options.standard with partials := .ofList [("a".toList, "A".toList)] } none
    (.emptyAt ['/'])

def firstCopy : Compilation :=
  (Compilation.counted Counter.references ⟨copiedContext, []⟩).cache "a".toList "a".toList
    "A".toList

/-- The copy of the copy after `b`, which is not there, was read too. -/
def secondCopy : Compilation :=
  (firstCopy.counted Counter.references).missed "b".toList

theorem merge_lossless_nested :
    Session (.emptyAt ['/']) ⟨copiedContext, []⟩ (firstCopy.merge secondCopy) ∧
    copiedContext.merge (firstCopy.merge secondCopy).context =
      copiedContext.withFindings (firstCopy.merge secondCopy).view.findings ∧
    (firstCopy.merge secondCopy).view.cached.keys = ["a".toList] ∧
    (firstCopy.merge secondCopy).view.diagnostics = [.missingPartial "b".toList] ∧
    (firstCopy.merge secondCopy).view.counters.count Counter.references = 2 := by
  have hfirst : (Operation.read "a".toList).Returns (.emptyAt ['/']) (host 0) ⟨copiedContext, []⟩
      firstCopy := ⟨none, rfl⟩
  have hsecond : (Operation.read "b".toList).Returns (.emptyAt ['/']) (host 0) firstCopy secondCopy :=
    ⟨none, rfl⟩
  have hsession : Session (.emptyAt ['/']) ⟨copiedContext, []⟩ (firstCopy.merge secondCopy) :=
    .operation hfirst (counts_read rfl (by decide))
      (.nested (.operation hsecond (counts_read rfl (by decide)) .done) .done)
  exact ⟨hsession, merge_lossless hsession, by decide, by decide, by decide⟩

end Handlebars

end Inlay
