import Inlay.Proofs.Operations

/-!
# The laws of merging

A copy is merged by one rule for each kind of data: of a list the part
beyond the own length is appended, a map takes the entries whose names it
does not have, and a counter goes up to the greater count. Each rule is
associative, and merging once more what was merged already changes nothing.
So copies of copies may be merged in any grouping. The rules never damage
what the own context has, whatever was done to the copy.
-/

namespace Inlay

/-! ## The part beyond a length -/

section Lists

variable {α : Type}

theorem append_drop_assoc (a b c : List α) :
    (a ++ b.drop a.length) ++ c.drop (a ++ b.drop a.length).length =
      a ++ (b ++ c.drop b.length).drop a.length := by
  -- the longer one of `a` and `b` says where the part of `c` starts
  have hlength : (a ++ b.drop a.length).length = b.length + (a.length - b.length) := by
    rw [List.length_append, List.length_drop]
    omega
  rw [hlength, List.append_assoc, List.drop_append, List.drop_drop]

/-- Nothing goes beyond a list that is at least as long. -/
theorem append_drop_of_le {a b : List α} (h : b.length ≤ a.length) :
    a ++ b.drop a.length = a := by
  rw [List.drop_eq_nil_of_le h, List.append_nil]

theorem append_drop_left (a b : List α) :
    (a ++ b.drop a.length) ++ a.drop (a ++ b.drop a.length).length = a ++ b.drop a.length := by
  refine append_drop_of_le ?_
  rw [List.length_append]
  omega

theorem append_drop_right (a b : List α) :
    (a ++ b.drop a.length) ++ b.drop (a ++ b.drop a.length).length = a ++ b.drop a.length := by
  refine append_drop_of_le ?_
  rw [List.length_append, List.length_drop]
  omega

end Lists

namespace OrderedMap

/-! ## Entries that are taken over -/

section Entries

variable {α : Type}

/-- Entries may be left out whose names are there already. -/
theorem absorbEntries_filter {m : OrderedMap α} {entries : List (Text × α)}
    {p : Text × α → Bool} (h : ∀ entry ∈ entries, p entry = false → entry.1 ∈ m) :
    m.absorbEntries (entries.filter p) = m.absorbEntries entries := by
  induction entries generalizing m with
  | nil => rfl
  | cons entry entries ih =>
      have hstep : m.absorbEntries (entry :: entries) =
          (m.insertIfNew entry.1 entry.2).absorbEntries entries := rfl
      cases hp : p entry with
      | true =>
          rw [List.filter_cons_of_pos hp, hstep]
          exact ih fun other hother hout =>
            mem_insertIfNew.mpr (.inl (h other (List.mem_cons_of_mem _ hother) hout))
      | false =>
          rw [List.filter_cons_of_neg (Bool.not_eq_true _ ▸ hp), hstep,
            insertIfNew_of_mem (h entry List.mem_cons_self hp)]
          exact ih fun other hother => h other (List.mem_cons_of_mem _ hother)

theorem entries_absorb (m n : OrderedMap α) :
    (m.absorb n).entries = m.entries ++ n.entries.filter (·.1 ∉ m) := by
  have hold : m.absorbEntries (n.entries.filter (·.1 ∉ m)) = m.absorbEntries n.entries :=
    absorbEntries_filter fun entry _ hout => by simpa using hout
  rw [absorb_eq_absorbEntries, ← hold]
  refine entries_absorbEntries_of_disjoint (n.nodup.sublist (List.filter_sublist.map _)) ?_
  intro name hname
  obtain ⟨entry, hentry, rfl⟩ := List.mem_map.mp hname
  simpa using (List.mem_filter.mp hentry).2

theorem keys_absorb (m n : OrderedMap α) :
    (m.absorb n).keys = m.keys ++ n.keys.filter (· ∉ m.keys) := by
  unfold keys
  rw [entries_absorb, List.map_append, List.filter_map]
  rfl

/-- The names that come in depend on names only. -/
theorem keys_absorb_congr {m m' n n' : OrderedMap α} (hm : m.keys = m'.keys)
    (hn : n.keys = n'.keys) : (m.absorb n).keys = (m'.absorb n').keys := by
  rw [keys_absorb, keys_absorb, hm, hn]

theorem absorb_assoc (m n p : OrderedMap α) : (m.absorb n).absorb p = m.absorb (n.absorb p) := by
  -- an entry of `p` that `n` keeps out has a name that `m.absorb n` has too
  have hfilter : (m.absorb n).absorbEntries (p.entries.filter (·.1 ∉ n)) =
      (m.absorb n).absorbEntries p.entries :=
    absorbEntries_filter fun entry _ hout => mem_absorb.mpr (.inr (by simpa using hout))
  rw [absorb_eq_absorbEntries m (n.absorb p), entries_absorb, absorbEntries_append,
    ← absorb_eq_absorbEntries, hfilter, absorb_eq_absorbEntries]

/-- A map takes nothing from one without other names. -/
theorem absorb_of_subset {m n : OrderedMap α} (h : ∀ name ∈ n, name ∈ m) : m.absorb n = m := by
  rw [absorb_eq_absorbEntries]
  exact absorbEntries_of_subset h

theorem absorb_left (m n : OrderedMap α) : (m.absorb n).absorb m = m.absorb n :=
  absorb_of_subset fun _ hname => mem_absorb.mpr (.inl hname)

theorem absorb_right (m n : OrderedMap α) : (m.absorb n).absorb n = m.absorb n :=
  absorb_of_subset fun _ hname => mem_absorb.mpr (.inr hname)

end Entries

/-! ## Counters that are raised -/

section Counters

variable (m n p : OrderedMap UInt32)

theorem toNat_count_raiseAll (name : Text) :
    ((m.raiseAll n).count name).toNat = max (m.count name).toNat (n.count name).toNat := by
  rw [count_raiseAll, UInt32.toNat_max]

theorem raiseAll_assoc : (m.raiseAll n).raiseAll p = m.raiseAll (n.raiseAll p) := by
  refine ext_keys_count ?_ fun name => UInt32.toNat_inj.mp ?_
  · calc ((m.raiseAll n).raiseAll p).keys
        = ((m.raiseAll n).absorb p).keys := keys_raiseAll _ _
      _ = ((m.absorb n).absorb p).keys := keys_absorb_congr (keys_raiseAll m n) rfl
      _ = (m.absorb (n.absorb p)).keys := by rw [absorb_assoc]
      _ = (m.absorb (n.raiseAll p)).keys := keys_absorb_congr rfl (keys_raiseAll n p).symm
      _ = (m.raiseAll (n.raiseAll p)).keys := (keys_raiseAll _ _).symm
  · simp only [toNat_count_raiseAll, Nat.max_assoc]

/-- Counters go up by nothing from counters that are not greater and have no other names. -/
theorem raiseAll_of_le {m n : OrderedMap UInt32} (hkeys : (m.absorb n).keys = m.keys)
    (hcounts : ∀ name, (n.count name).toNat ≤ (m.count name).toNat) : m.raiseAll n = m := by
  refine ext_keys_count ((keys_raiseAll m n).trans hkeys) fun name => UInt32.toNat_inj.mp ?_
  rw [toNat_count_raiseAll]
  exact Nat.max_eq_left (hcounts name)

theorem raiseAll_left : (m.raiseAll n).raiseAll m = m.raiseAll n := by
  refine raiseAll_of_le ?_ fun name => ?_
  · rw [keys_absorb_congr (keys_raiseAll m n) rfl, absorb_left, keys_raiseAll]
  · rw [toNat_count_raiseAll]
    exact Nat.le_max_left ..

theorem raiseAll_right : (m.raiseAll n).raiseAll n = m.raiseAll n := by
  refine raiseAll_of_le ?_ fun name => ?_
  · rw [keys_absorb_congr (keys_raiseAll m n) rfl, absorb_right, keys_raiseAll]
  · rw [toNat_count_raiseAll]
    exact Nat.le_max_right ..

theorem rises_raiseAll : m.Rises (m.raiseAll n) := by
  refine ⟨?_, fun name => ?_⟩
  · rw [keys_raiseAll, keys_absorb]
    exact List.prefix_append ..
  · rw [UInt32.le_iff_toNat_le, toNat_count_raiseAll]
    exact Nat.le_max_left ..

end Counters

end OrderedMap

/-! ## Contexts -/

namespace View

variable (u v w : View)

theorem merge_assoc : (u.merge v).merge w = u.merge (v.merge w) := by
  simp only [merge, append_drop_assoc, OrderedMap.absorb_assoc, OrderedMap.raiseAll_assoc]

theorem merge_left : (u.merge v).merge u = u.merge v := by
  simp only [merge, append_drop_left, OrderedMap.absorb_left, OrderedMap.raiseAll_left]

theorem merge_right : (u.merge v).merge v = u.merge v := by
  simp only [merge, append_drop_right, OrderedMap.absorb_right, OrderedMap.raiseAll_right]

end View

namespace Context

/-- Contexts that have nothing to do with each other may be merged in either grouping. To merge a
context once more that was merged, or the one that it was merged into, changes nothing. The
contexts are equal in all they have, the order of diagnostics and of entries included. -/
theorem merge_band (a b c : Context) :
    (a.merge b).merge c = a.merge (b.merge c) ∧
    (a.merge b).merge b = a.merge b ∧
    (a.merge b).merge a = a.merge b :=
  ⟨congrArg (Context.mk · a.hook) (View.merge_assoc ..),
    congrArg (Context.mk · a.hook) (View.merge_right ..),
    congrArg (Context.mk · a.hook) (View.merge_left ..)⟩

/-! ## A host that does anything -/

/-- The second context has the scope of the first one, and nothing that was found, reported or
counted is lost, moved or changed. -/
structure Survives (c d : Context) : Prop where
  flags : d.flags = c.flags
  fragments : d.fragments = c.fragments
  directories : d.directories = c.directories
  endings : d.endings = c.endings
  hook : d.hook = c.hook
  chain : d.chain = c.chain
  lineIndent : d.lineIndent = c.lineIndent
  indentBound : d.indentBound = c.indentBound
  inlines : d.inlines = c.inlines
  blocks : d.blocks = c.blocks
  diagnostics : c.diagnostics <+: d.diagnostics
  partials : c.partials.entries <+: d.partials.entries
  cached : c.cached.entries <+: d.cached.entries
  aliases : c.aliases.entries <+: d.aliases.entries
  table : c.table.entries <+: d.table.entries
  counters : c.counters.Rises d.counters

/-- No copy does damage, wherever it comes from. -/
theorem survives_merge (c copy : Context) : c.Survives (c.merge copy) where
  flags := rfl
  fragments := rfl
  directories := rfl
  endings := rfl
  hook := rfl
  chain := rfl
  lineIndent := rfl
  indentBound := rfl
  inlines := rfl
  blocks := rfl
  diagnostics := List.prefix_append ..
  partials := OrderedMap.prefix_absorb ..
  cached := OrderedMap.prefix_absorb ..
  aliases := OrderedMap.prefix_absorb ..
  table := OrderedMap.prefix_absorb ..
  counters := OrderedMap.rises_raiseAll ..

end Context

/-- A text is compiled apart by one call of the host, with no inline partials and no blocks in
scope. The host may be any function, with any change of the context it is given. When it has a
result, so has the compilation, and the context it is done in survives. -/
theorem compileLocal_isolates (template : Text) (fs : FileSystem) (s : Compilation) :
    ∃ given : Compilation, given.view.inlines = ∅ ∧ given.view.blocks = [] ∧
      given.context = s.context.isolated ∧
      ∀ host : Host,
        match host (Keyword.mask template) fs given with
        | none => compileLocal host template fs s = none
        | some (code, _) => ∃ t,
            compileLocal host template fs s = some (callable s.view code, t) ∧
            s.context.Survives t.context := by
  refine ⟨s.isolated.emit (.compile s.isolated.view (Keyword.mask template)), rfl, rfl, rfl,
    fun host => ?_⟩
  have hrun : compileLocal host template fs s = (host (Keyword.mask template) fs
      (s.isolated.emit (.compile s.isolated.view (Keyword.mask template)))).map fun r =>
        (callable s.view r.1, s.merge r.2) := by
    rw [compileLocal_apply, compile_apply]
  split
  · rename_i hnone
    rw [hrun, hnone, Option.map_none]
  · rename_i code copy hsome
    refine ⟨s.merge copy, ?_, s.context.survives_merge copy.context⟩
    rw [hrun, hsome, Option.map_some]

end Inlay
