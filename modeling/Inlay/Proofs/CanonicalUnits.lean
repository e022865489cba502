import Inlay.Proofs.Renaming
import Inlay.Proofs.Termination

/-!
# Units are made of their sources alone

The unit of a source can be told from the source, the switches, the
fragments, and what names stand for. So the dispatch table is canonical: in
the end it has a unit for each cached source, and this is the unit of the
source, whatever was cached, registered or in progress when it was made.
Without preprocessing each name stands for itself.
-/

namespace Inlay

/-- The node where the partial that it dispatches to has the other name. -/
def Node.called (rename : Text → Text) : Node → Node
  | .reference (.named name) indent => .reference (.named (rename name)) indent
  | .block name body closed => .block (rename name) body closed
  | n => n

@[simp] theorem Node.called_id (n : Node) : n.called id = n := by
  cases n with
  | reference target indent => cases target <;> rfl
  | _ => rfl

theorem Node.body?_called (rename : Text → Text) (n : Node) : (n.called rename).body? = n.body? := by
  cases n with
  | reference target indent => cases target <;> rfl
  | _ => rfl

theorem Node.indent?_called (rename : Text → Text) (n : Node) :
    (n.called rename).indent? = n.indent? := by
  cases n with
  | reference target indent => cases target <;> rfl
  | _ => rfl

/-- The nodes of a text where partials have the names that the renaming says. -/
def Text.renamedNodes (rename : Text → Text) (s : Text) : List Node :=
  s.nodes.map (Node.called rename)

theorem Text.renamedNodes_id (s : Text) : s.renamedNodes id = s.nodes := by
  unfold renamedNodes
  rw [List.map_congr_left fun n _ => n.called_id, List.map_id']

theorem Text.exists_of_mem_renamedNodes {rename : Text → Text} {s : Text} {m : Node}
    (hm : m ∈ s.renamedNodes rename) : ∃ n ∈ s.nodes, m.body? = n.body? ∧ m.indent? = n.indent? := by
  obtain ⟨n, hn, rfl⟩ := List.mem_map.mp hm
  exact ⟨n, hn, n.body?_called rename, n.indent?_called rename⟩

namespace Handlebars

open Compilation Keyword

/-! ## The code of a unit -/

/-- The code of a node where partials are dispatched and no block is around, with the callables
of block bodies given. -/
def nodeCode (v : View) (unit : Text → Text) : Node → Text
  | .literal text => text.quote
  | .variable name => v.fragments.splice (lookup name)
  | .reference (.named name) indent => dispatch v (nameLiteral name) indent none
  | .reference (.dynamic expr) indent => dispatch v (lookup expr) indent none
  | .reference .block _ => v.fragments.splice "LR::pb($cx, $in)".toList
  | .block name body _ => dispatch v (nameLiteral name) none (some (unit body))
  | .inlinePartial _ _ _ => []
  | .strayClose _ => []

/-- The view that a unit is compiled in, with nothing found yet. -/
def unitView (flags : Flags) (fragments : Fragments) : View :=
  (Context.start { Options.standard with flags, fragments } none ⟨[], []⟩).isolated.toView

/-- The unit of a text. -/
def unitCode (flags : Flags) (fragments : Fragments) (text : Text) : Text :=
  callable (unitView flags fragments) <|
    (mask text).nodes.flatMap <| nodeCode (unitView flags fragments) fun body =>
      if (mask body).length < (mask text).length then unitCode flags fragments body else []
termination_by (mask text).length

theorem nodeCode_congr_unit (v : View) {unit unit' : Text → Text} {n : Node}
    (h : ∀ name body closed, n = .block name body closed → unit body = unit' body) :
    nodeCode v unit n = nodeCode v unit' n := by
  cases n with
  | block name body closed =>
      simp only [nodeCode]
      rw [h name body closed rfl]
  | reference target indent => cases target <;> rfl
  | _ => rfl

/-- The body of a node of a masked text is shorter than the text, also when it is masked. -/
theorem length_mask_body_lt {text body : Text} {n : Node} (hn : n ∈ (mask text).nodes)
    (hbody : n.body? = some body) : (mask body).length < (mask text).length := by
  obtain ⟨hinside, hless⟩ := Node.body?_isInfix hn hbody
  rwa [mask_of_not_isInfix fun hword => not_word_infix_mask text (hword.trans hinside)]

theorem unitCode_eq (flags : Flags) (fragments : Fragments) (text : Text) :
    unitCode flags fragments text =
      callable (unitView flags fragments)
        ((mask text).nodes.flatMap (nodeCode (unitView flags fragments) (unitCode flags fragments))) := by
  rw [unitCode]
  congr 1
  refine List.flatMap_congr fun n hn => nodeCode_congr_unit _ fun name body closed hblock => ?_
  subst hblock
  exact if_pos (length_mask_body_lt hn rfl)

/-- The unit of a text where partials have the names that the renaming says. -/
def renamedUnit (rename : Text → Text) (flags : Flags) (fragments : Fragments) (text : Text) : Text :=
  callable (unitView flags fragments) <|
    ((mask text).renamedNodes rename).flatMap <|
      nodeCode (unitView flags fragments) fun body =>
        if (mask body).length < (mask text).length then renamedUnit rename flags fragments body
        else []
termination_by (mask text).length

theorem renamedUnit_eq (rename : Text → Text) (flags : Flags) (fragments : Fragments) (text : Text) :
    renamedUnit rename flags fragments text = callable (unitView flags fragments)
      (((mask text).renamedNodes rename).flatMap
        (nodeCode (unitView flags fragments) (renamedUnit rename flags fragments))) := by
  rw [renamedUnit]
  congr 1
  refine List.flatMap_congr fun m hm => nodeCode_congr_unit _ fun name body closed hblock => ?_
  obtain ⟨n, hn, hbody, -⟩ := Text.exists_of_mem_renamedNodes hm
  rw [hblock] at hbody
  exact if_pos (length_mask_body_lt hn hbody.symm)

theorem renamedUnit_id (flags : Flags) (fragments : Fragments) (text : Text) :
    renamedUnit id flags fragments text = unitCode flags fragments text := by
  rw [renamedUnit_eq, unitCode_eq, Text.renamedNodes_id]
  congr 1
  refine List.flatMap_congr fun n hn => nodeCode_congr_unit _ fun name body closed hblock => ?_
  subst hblock
  have hless := length_mask_body_lt hn rfl
  exact renamedUnit_id flags fragments body
termination_by (mask text).length

/-! ## Runs have this code -/

/-- The views give the same code: they have the same switches and fragments, and bind the
indentation parameter alike. -/
structure SameDialect (v w : View) : Prop where
  flags : v.flags = w.flags
  fragments : v.fragments = w.fragments
  indentBound : v.indentBound = w.indentBound

theorem sameDialect_of_scope {s t : Compilation} (h : t.scope = s.scope) :
    SameDialect t.view s.view :=
  ⟨congrArg (fun c => c.flags) h, congrArg (fun c => c.fragments) h,
    congrArg (fun c => c.indentBound) h⟩

theorem SameDialect.trans {u v w : View} (h₁ : SameDialect u v) (h₂ : SameDialect v w) :
    SameDialect u w :=
  ⟨h₁.flags.trans h₂.flags, h₁.fragments.trans h₂.fragments, h₁.indentBound.trans h₂.indentBound⟩

theorem sameDialect_atIndent (w : Text) (s : Compilation) : SameDialect (atIndent w s).view s.view :=
  ⟨rfl, rfl, rfl⟩

theorem SameDialect.dispatch_eq {v w : View} (h : SameDialect v w) (name : Text)
    (indent block : Option Text) : dispatch v name indent block = dispatch w name indent block := by
  unfold dispatch indentArgument
  rw [h.flags, h.fragments, h.indentBound]

theorem SameDialect.nodeCode_eq {v w : View} (h : SameDialect v w) (unit : Text → Text) :
    nodeCode v unit = nodeCode w unit := by
  funext n
  unfold nodeCode
  simp only [h.dispatch_eq, h.fragments]

variable {fs : FileSystem} {rename : Text → Text} {flags : Flags} {fragments : Fragments}

theorem Calling.sameDialect_isolated {s : Compilation} (h : Calling flags fragments s) :
    SameDialect s.isolated.view (unitView flags fragments) := by
  obtain ⟨-, rfl, rfl, -, -⟩ := h
  exact ⟨rfl, rfl, rfl⟩

/-- The code is the one that the nodes of the task have in the view. -/
def Task.HasCode (rename : Text → Text) (flags : Flags) (fragments : Fragments) (v : View)
    (code : Text) : Task → Prop
  | .text source => code = (source.renamedNodes rename).flatMap
      (nodeCode v (renamedUnit rename flags fragments))
  | .nodes ns => code = (ns.map (Node.called rename)).flatMap
      (nodeCode v (renamedUnit rename flags fragments))
  | .node n => code = nodeCode v (renamedUnit rename flags fragments) (n.called rename)
  | .apart template => code = renamedUnit rename flags fragments template
  | _ => True

theorem Runs.hasCode {task : Task} {s t : Compilation} {code : Text} (h : Runs fs task s code t)
    (hs : Calling flags fragments s) (hrename : Renames fs rename t) :
    task.HasCode rename flags fragments s.view code := by
  induction h with
  | text _ ih => exact ih (hs.emit _) hrename
  | nil => rfl
  | @cons n ns s a s₁ b t h₁ h₂ ih₁ ih₂ =>
      have hs₁ := hs.after h₁
      have hb : b = (ns.map (Node.called rename)).flatMap
          (nodeCode s₁.view (renamedUnit rename flags fragments)) := ih₂ hs₁ hrename
      -- what the names of the first node stand for is not changed by the others
      have ha : a = nodeCode s.view (renamedUnit rename flags fragments) (n.called rename) :=
        ih₁ hs (hrename.before h₂ hs₁.sourced)
      rw [(sameDialect_of_scope h₁.scope_eq).nodeCode_eq] at hb
      show a ++ b = _
      rw [ha, hb, List.map_cons, List.flatMap_cons]
  | literal => rfl
  | «variable» => rfl
  | @dispatched name indent s u s₁ h₁ _ _ =>
      have hview := (sameDialect_of_scope h₁.scope_eq).trans (sameDialect_atIndent _ s)
      have hread : Renames fs rename s₁ := hrename
      rw [hread.resolvedName_eq h₁ (hs.atIndent _).sourced, hview.dispatch_eq]
      rfl
  | embedded h₁ hruntime =>
      have hread := (hs.atIndent _).after h₁
      simp [hread.dispatches] at hruntime
  | dynamic => rfl
  | enclosed hblocks => simp [hs.blocks] at hblocks
  | enclosedCall => rfl
  | notEnclosed _ hruntime => simp [hs.dispatches] at hruntime
  | @blockDispatched name body closed s u s₁ unit t h₁ _ h₂ _ ih₂ =>
      have hs₀ := (hs.closeChecked name closed).atIndent []
      have hs₁ := hs₀.after h₁
      have hclosed := sameDialect_of_scope (scope_closeChecked name closed s)
      have hread := (sameDialect_of_scope h₁.scope_eq).trans
        ((sameDialect_atIndent [] (closeChecked name closed s)).trans hclosed)
      have hview := sameDialect_of_scope h₂.scope_eq
      have hbody : Renames fs rename t := hrename
      have hunit : unit = renamedUnit rename flags fragments body := ih₂ hs₁ hbody
      rw [(hbody.before h₂ hs₁.sourced).resolvedName_eq h₁ hs₀.sourced, hview.dispatch_eq,
        hread.dispatch_eq, hunit]
      rfl
  | blockEmbedded h₁ hruntime =>
      have hread := ((hs.closeChecked _ _).atIndent []).after h₁
      simp [hread.dispatches] at hruntime
  | inlineKnown => rfl
  | inlineNew => rfl
  | strayClose => rfl
  | @apart template s code t h ih =>
      have hcode := ih hs.isolated (hrename.copy h hs.sourced)
      have hview := hs.sameDialect_isolated
      show callable s.view code = renamedUnit rename flags fragments template
      rw [renamedUnit_eq, ← hview.nodeCode_eq]
      have hcallable : callable s.view = callable (unitView flags fragments) := by
        funext code
        unfold callable
        rw [← hview.flags, ← hview.fragments]
        rfl
      rw [hcallable]
      exact congrArg (callable (unitView flags fragments)) hcode
  | _ => trivial

/-! ## The dispatch table -/

/-- The units in the table are those of the cached sources. -/
def Canonical (rename : Text → Text) (flags : Flags) (fragments : Fragments) (s : Compilation) :
    Prop :=
  ∀ name entry, s.view.table.get? name = some entry → ∃ source,
    s.view.cached.get? name = some source ∧
      entry = tableEntry name (renamedUnit rename flags fragments source)

/-- The table stays canonical, and what is cached in the meantime gets its unit. -/
structure Fills (rename : Text → Text) (flags : Flags) (fragments : Fragments)
    (s t : Compilation) : Prop where
  canonical : Canonical rename flags fragments s → Canonical rename flags fragments t
  enrolled : ∀ name ∈ t.view.cached, name ∈ s.view.cached ∨ name ∈ t.view.table

namespace Fills

variable {s s₁ t : Compilation}

theorem of_eq (htable : t.view.table = s.view.table) (hcached : t.view.cached = s.view.cached) :
    Fills rename flags fragments s t := by
  constructor
  · intro h name entry hentry
    rw [htable] at hentry
    rw [hcached]
    exact h name entry hentry
  · intro name hname
    rw [hcached] at hname
    exact .inl hname

theorem refl (s : Compilation) : Fills rename flags fragments s s :=
  .of_eq rfl rfl

theorem trans (h₁ : Fills rename flags fragments s s₁) (h₂ : Fills rename flags fragments s₁ t)
    (hgrows : s₁.Grows t) : Fills rename flags fragments s t := by
  refine ⟨h₂.canonical ∘ h₁.canonical, fun name hname => ?_⟩
  rcases h₂.enrolled name hname with hname | hname
  · exact (h₁.enrolled name hname).imp_right hgrows.table.mem
  · exact .inr hname

theorem missed (name : Text) (s : Compilation) :
    Fills rename flags fragments s (s.missed name) := by
  unfold Compilation.missed
  split
  · exact .refl s
  · exact .of_eq rfl rfl

theorem missedOnce (name : Text) (s : Compilation) :
    Fills rename flags fragments s (s.missedOnce name) := by
  unfold Compilation.missedOnce
  split
  · exact .of_eq rfl rfl
  · exact .refl s

theorem dynamicNoted (expr : Text) (s : Compilation) :
    Fills rename flags fragments s (dynamicNoted expr s) := by
  unfold Handlebars.dynamicNoted
  split
  · exact .of_eq rfl rfl
  · exact .refl s

theorem closeChecked (name : Text) (closed : Bool) (s : Compilation) :
    Fills rename flags fragments s (closeChecked name closed s) := by
  cases closed <;> exact .of_eq rfl rfl

/-- A unit for a name makes up for caching its source. -/
theorem of_cached {name : Text} (h : Fills rename flags fragments s₁ t)
    (htable : s₁.view.table = s.view.table) (hbelow : s.view.cached.Below s₁.view.cached)
    (hcached : ∀ other ∈ s₁.view.cached, other ∈ s.view.cached ∨ other = name)
    (hunit : name ∈ t.view.table) : Fills rename flags fragments s t := by
  constructor
  · intro hs
    refine h.canonical fun other entry hentry => ?_
    rw [htable] at hentry
    obtain ⟨source, hsource, hentry⟩ := hs other entry hentry
    exact ⟨source, hbelow _ _ hsource, hentry⟩
  · intro other hother
    rcases h.enrolled other hother with hother | hother
    · rcases hcached other hother with hother | rfl
      · exact .inl hother
      · exact .inr hunit
    · exact .inr hother

theorem enroll {name source : Text} (h : Fills rename flags fragments s t)
    (hsource : t.view.cached.get? name = some source) :
    Fills rename flags fragments s (t.enroll name (renamedUnit rename flags fragments source)) := by
  constructor
  · intro hs
    refine OrderedMap.forall_insertIfNew (h.canonical hs) ?_
    exact ⟨source, hsource, rfl⟩
  · intro other hother
    exact (h.enrolled other hother).imp_right fun hmem => OrderedMap.mem_insertIfNew.mpr (.inl hmem)

theorem merge (h : Fills rename flags fragments s.isolated t) (hgrows : s.isolated.Grows t) :
    Fills rename flags fragments s (s.merge t) := by
  have hgrows' := grows_merge hgrows
  have hback := grows_merge_of_copy hgrows
  constructor
  · intro hs
    refine OrderedMap.forall_absorb (fun name entry hentry => ?_) fun name entry hentry => ?_
    · obtain ⟨source, hsource, hunit⟩ := hs name entry hentry
      exact ⟨source, hgrows'.cached _ _ hsource, hunit⟩
    · obtain ⟨source, hsource, hunit⟩ := h.canonical hs name entry hentry
      exact ⟨source, hback.cached _ _ hsource, hunit⟩
  · intro name hname
    rcases OrderedMap.mem_absorb.mp hname with hname | hname
    · exact .inl hname
    · exact (h.enrolled name hname).imp_right hback.table.mem

end Fills

/-- A source that is cached has its unit after the unit was asked for. -/
theorem Runs.mem_table_of_unit {name code : Text} {s t : Compilation}
    (h : Runs fs (.unit name) s code t) (hs : Calling flags fragments s)
    (hname : name ∈ s.view.cached) : name ∈ t.view.table := by
  cases h with
  | unitIdle hidle =>
      rcases hidle with hruntime | htable | hnone
      · simp [hs.dispatches] at hruntime
      · exact htable
      · exact absurd hname (OrderedMap.get?_eq_none_iff.mp hnone)
  | unitNew => exact OrderedMap.mem_insertIfNew.mpr (.inr rfl)

theorem Runs.fills {task : Task} {s t : Compilation} {code : Text} (h : Runs fs task s code t)
    (hs : Calling flags fragments s) (hrename : Renames fs rename t) :
    Fills rename flags fragments s t := by
  induction h with
  | text _ ih =>
      have hfills := ih (hs.emit _) hrename
      exact ⟨hfills.canonical, hfills.enrolled⟩
  | nil => exact .refl _
  | cons h₁ h₂ ih₁ ih₂ =>
      have hs₁ := hs.after h₁
      exact (ih₁ hs (hrename.before h₂ hs₁.sourced)).trans (ih₂ hs₁ hrename) h₂.grows
  | literal => exact .refl _
  | «variable» => exact .refl _
  | dispatched _ _ ih =>
      have hread := ih (hs.atIndent _) hrename
      exact ⟨hread.canonical, hread.enrolled⟩
  | embedded h₁ hruntime =>
      have hread := (hs.atIndent _).after h₁
      simp [hread.dispatches] at hruntime
  | @dynamic expr indent s =>
      let noted := (atIndent (indent.getD []) s).counted Counter.dynamicReferences
      have hnoted : Fills rename flags fragments noted (dynamicNoted expr noted) := .dynamicNoted ..
      exact ⟨hnoted.canonical, hnoted.enrolled⟩
  | enclosed hblocks => simp [hs.blocks] at hblocks
  | enclosedCall => exact .refl _
  | notEnclosed => exact .of_eq rfl rfl
  | @blockDispatched name body closed s u s₁ unit t h₁ _ h₂ ih₁ ih₂ =>
      have hs₀ := (hs.closeChecked name closed).atIndent []
      have hs₁ := hs₀.after h₁
      have hbody : Renames fs rename t := hrename
      have hread := ih₁ hs₀ (hbody.before h₂ hs₁.sourced)
      have hfrom : Fills rename flags fragments (closeChecked name closed s) s₁ :=
        ⟨hread.canonical, hread.enrolled⟩
      have hgrows : (closeChecked name closed s).Grows s₁ :=
        grows_atIndent (w := s₁.view.lineIndent) h₁.grows
      have hclosed : Fills rename flags fragments s (closeChecked name closed s) := .closeChecked ..
      have hfills := (hclosed.trans hfrom hgrows).trans (ih₂ hs₁ hbody) h₂.grows
      exact ⟨hfills.canonical, hfills.enrolled⟩
  | blockEmbedded h₁ hruntime =>
      have hread := ((hs.closeChecked _ _).atIndent []).after h₁
      simp [hread.dispatches] at hruntime
  | @inlineKnown name body closed s =>
      have hclosed : Fills rename flags fragments s (closeChecked "inline".toList closed s) :=
        .closeChecked ..
      exact ⟨hclosed.canonical, hclosed.enrolled⟩
  | @inlineNew name body closed s u t hnew h ih =>
      have hclosed := hs.closeChecked "inline".toList closed
      rw [← cached_inlineNoted name (unmask body) "inline".toList closed] at hnew
      have hs' := hclosed.inlineCached hnew (unmask body)
      -- the source is cached first, and its unit is made at once
      have hunit := h.mem_table_of_unit hs' (OrderedMap.mem_insert.mpr (.inr rfl))
      have hrest : Fills rename flags fragments (closeChecked "inline".toList closed s) t :=
        (ih hs' hrename).of_cached rfl (grows_inlineCached hnew (unmask body)).cached
          (fun other hother => OrderedMap.mem_insert.mp hother) hunit
      have hcached := (grows_inlineCached hnew (unmask body)).trans h.grows
      have hgrows := (grows_inlineNoted name (unmask body) _).trans hcached
      exact (Fills.closeChecked _ _ s).trans hrest hgrows
  | strayClose => exact .of_eq rfl rfl
  | readKnown => exact .of_eq rfl rfl
  | @readMissing name s =>
      have hmissed : Fills rename flags fragments (s.counted Counter.references)
        ((s.counted Counter.references).missed name) := .missed ..
      exact ⟨hmissed.canonical, hmissed.enrolled⟩
  | @readFound name s raw source target u t _ _ _ h ih =>
      have hs' := ((hs.counted Counter.references).preprocessed raw name).cache name target source
      have hunit := h.mem_table_of_unit hs' (OrderedMap.mem_insertIfNew.mpr (.inr rfl))
      have hcached : ((s.counted Counter.references).preprocessed raw name).view.cached =
          s.view.cached :=
        congrArg Names.cached (names_preprocessed raw name (s.counted Counter.references))
      have htable : ((s.counted Counter.references).preprocessed raw name).view.table =
          s.view.table := by
        unfold Compilation.preprocessed
        split <;> rfl
      have hbelow := (grows_cache name target source
        ((s.counted Counter.references).preprocessed raw name)).cached
      rw [hcached] at hbelow
      refine (ih hs' hrename).of_cached htable hbelow (fun other hother => ?_) hunit
      rw [← hcached]
      exact OrderedMap.mem_insertIfNew.mp hother
  | unitIdle => exact .refl _
  | @unitNew name s source unit t _ _ hsource h ih =>
      have hunit : unit = renamedUnit rename flags fragments source := h.hasCode hs hrename
      rw [hunit]
      exact (ih hs hrename).enroll (h.grows.cached _ _ hsource)
  | apart h ih =>
      exact (ih hs.isolated (hrename.copy h hs.sourced)).merge h.grows
  | embedMissing => exact .missedOnce _ _
  | embedOpen _ _ _ ih => exact ih hs hrename
  | embedGuarded _ hruntime => simp [hs.dispatches] at hruntime
  | embedRepeated => exact .of_eq rfl rfl

theorem ReadsAll.fills {names : List Text} {s t : Compilation} (h : ReadsAll fs names s t)
    (hs : Calling flags fragments s) (hrename : Renames fs rename t) :
    Fills rename flags fragments s t := by
  induction h with
  | nil => exact .refl _
  | cons hread hreads ih =>
      have hs₁ := hs.after hread
      have hfirst := hread.fills hs (hrename.before_all hreads hs₁.sourced)
      exact hfirst.trans (ih hs₁ hrename) hreads.grows

/-! ## Fresh contexts -/

/-- A host that nests deep enough compiles a text apart from a fresh context, and its callable is
the unit of the text. -/
theorem exists_compileLocal (fs : FileSystem) {options : Options}
    (hruntime : options.flags.runtime = true) (text : Text) :
    ∃ least, ∀ depth ≥ least, ∃ t,
      compileLocal (host depth) text fs (initial options none fs) =
        some (unitCode options.flags options.fragments text, t) := by
  have hs := dispatching_initial fs hruntime
  obtain ⟨least, hleast⟩ := exists_apart_of_hookFree fs hs.dispatches hs.hookFree text
  refine ⟨least, fun depth hdepth => ?_⟩
  obtain ⟨unit, t, hunit⟩ := hleast depth hdepth
  have hrun := (sound_host fs depth).runs_apart hunit
  have hcode : unit = renamedUnit id options.flags options.fragments text :=
    hrun.hasCode (calling_initial fs none hruntime) (renames_of_hookFree (hs.after hrun).hookFree)
  rw [renamedUnit_id] at hcode
  exact ⟨t, hcode ▸ hunit⟩

/-- Each cached source has its unit in the end, with the names that it dispatches to as they are
resolved in the end. -/
theorem Compiles.canonical {fs : FileSystem} {options : Options} {hook : Option Hook}
    {template code : Text} {middle final : Compilation}
    (h : Compiles fs options hook template code middle final)
    (hruntime : options.flags.runtime = true) :
    (∀ name, name ∈ final.view.table ↔ name ∈ final.view.cached) ∧
      ∀ name source, final.view.cached.get? name = some source → final.view.table.get? name =
        some (tableEntry name
          (renamedUnit final.names.resolve options.flags options.fragments source)) := by
  have hs := calling_initial fs hook hruntime
  have hmiddle := hs.after h.runs
  have hrename : Renames fs final.names.resolve final := fun _ _ => rfl
  have hfills := (h.runs.fills hs (hrename.before_all h.reads hmiddle.sourced)).trans
    (h.reads.fills hmiddle hrename) h.reads.grows
  have hfinal := hfills.canonical fun _ _ h => by cases h
  have hunit : ∀ name ∈ final.view.cached, name ∈ final.view.table := fun name hname =>
    (hfills.enrolled name hname).resolve_left (OrderedMap.not_mem_empty name)
  refine ⟨fun name => ⟨fun hname => ?_, hunit name⟩, fun name source hsource => ?_⟩
  · obtain ⟨entry, hentry⟩ := OrderedMap.mem_iff_exists_get?.mp hname
    obtain ⟨source, hsource, -⟩ := hfinal name entry hentry
    exact OrderedMap.mem_of_get? hsource
  · obtain ⟨entry, hentry⟩ :=
      OrderedMap.mem_iff_exists_get?.mp (hunit name (OrderedMap.mem_of_get? hsource))
    obtain ⟨other, hother, rfl⟩ := hfinal name entry hentry
    obtain rfl := Option.some.inj (hsource.symm.trans hother)
    exact hentry

/-- The dispatch table has a unit for each cached source, and nothing else. The unit is what a
text compiled apart from any fresh context gives, so it depends on the source, the switches and
the fragments only. -/
theorem table_canonical (fs : FileSystem) (options : Options) (template : Text)
    (hruntime : options.flags.runtime = true) :
    (∃ outcome, compile fs options none template = some outcome ∧
      (∀ name, name ∈ outcome.table ↔ name ∈ outcome.cached) ∧
      ∀ name source, outcome.cached.get? name = some source → outcome.table.get? name =
        some (tableEntry name (unitCode options.flags options.fragments source))) ∧
    ∀ (fs' : FileSystem) (options' : Options), options'.flags = options.flags →
      options'.fragments = options.fragments → ∀ source, ∃ least, ∀ depth ≥ least, ∃ t,
        compileLocal (host depth) source fs' (initial options' none fs') =
          some (unitCode options.flags options.fragments source, t) := by
  constructor
  · obtain ⟨code, middle, final, hrun, hcompiles⟩ := exists_compiles fs options template
    obtain ⟨htable, hunits⟩ := hcompiles.canonical hruntime
    refine ⟨Outcome.ofRun (code, final), ?_, htable, fun name source hsource => ?_⟩
    · unfold compile
      rw [hrun]
      rfl
    · rw [← renamedUnit_id, ← hcompiles.resolve_eq_id]
      exact hunits name source hsource
  · intro fs' options' hflags hfragments source
    rw [← hflags, ← hfragments]
    exact exists_compileLocal fs' (hflags ▸ hruntime) source

/-- Two partials that refer to each other, one of them in the body of a block. -/
def mutualOptions : Options :=
  { Options.standard with
    flags := ⟨false, true, false, false⟩
    partials := .ofList
      [("a".toList, "\x7b\x7b#> b\x7d\x7d\x7b\x7b> a\x7d\x7d\x7b\x7b/b\x7d\x7d".toList),
        ("b".toList, " \x7b\x7b> a\x7d\x7d\n".toList)] }

theorem table_canonical_mutual : mutualOptions.flags.runtime = true ∧
    ∃ outcome,
      compile (.emptyAt ['/']) mutualOptions none "\x7b\x7b> a\x7d\x7d".toList = some outcome ∧
      (∀ name, name ∈ outcome.table ↔ name ∈ outcome.cached) ∧
      ∀ name source, outcome.cached.get? name = some source → outcome.table.get? name =
        some (tableEntry name (unitCode mutualOptions.flags mutualOptions.fragments source)) :=
  ⟨rfl, (table_canonical (.emptyAt ['/']) mutualOptions "\x7b\x7b> a\x7d\x7d".toList rfl).1⟩

end Handlebars

end Inlay
