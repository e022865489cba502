import Inlay.Proofs.CanonicalUnits
import Inlay.Proofs.DispatchClosure

/-!
# Names that are known at render time only

If a template names a partial by an expression, then every registered
partial is read when the template is compiled. Where partials are
dispatched, a partial that was read has its unit, so each of them can be
called. Where partials are embedded, the switch that accepts such names
lets the reference pass and does no more: no unit is ever made.
-/

namespace Inlay.Handlebars

open Compilation

variable {fs : FileSystem}

/-! ## Every registered partial is read -/

/-- Without preprocessing a partial that has a source is cached once it was read, and stays
cached. -/
theorem ReadsAll.mem_cached {names : List Text} {s t : Compilation} (h : ReadsAll fs names s t)
    (hs : s.HookFree) (hsourced : s.names.Sourced) {name : Text} (hname : name ∈ names)
    (hsource : s.context.rawSource? fs name ≠ none) : name ∈ t.view.cached := by
  induction h with
  | nil => cases hname
  | @cons first rest s u s₁ t hread hreads ih =>
      have hs₁ := hread.hookFree hs
      rcases List.mem_cons.mp hname with rfl | hname
      · have hcached := hread.mem_cached_of_read hsourced (.inr hsource)
        rw [hs₁.resolvedName_eq] at hcached
        exact hreads.grows.cached.mem hcached
      · exact ih hs₁ (hread.keeps hsourced).2 hname (hread.rawSource?_eq name ▸ hsource)

/-- If a reference is counted whose name is known at render time only, then all registered
partials are cached. -/
theorem Compiles.mem_cached_of_dynamic {options : Options} {template code : Text}
    {middle final : Compilation} (h : Compiles fs options none template code middle final)
    (hdynamic : final.view.counters.count Counter.dynamicReferences ≠ 0) {name : Text}
    (hname : name ∈ options.partials) : name ∈ final.view.cached := by
  have hstart : (initial options none fs).HookFree := ⟨rfl, rfl⟩
  have hsourced : (initial options none fs).names.Sourced := fun _ _ h => by cases h
  have hpartials : middle.view.partials = options.partials :=
    congrArg (fun c => c.partials) h.runs.scope_eq
  have hsource : middle.context.rawSource? fs name ≠ none :=
    hasSource_of_mem_partials (hpartials ▸ hname)
  have hreads := h.reads
  unfold preloaded at hreads
  split at hreads
  · rw [hpartials] at hreads
    exact hreads.mem_cached (h.runs.hookFree hstart) (h.runs.keeps hsourced).2 hname hsource
  · -- nothing was read at the end, so nothing was counted either
    rename_i hzero
    cases hreads
    exact absurd (not_not.mp hzero) hdynamic

/-! ## What references by an expression leave behind -/

/-- A name known at render time only is accepted. -/
def Accepting (flags : Flags) : Prop :=
  flags.runtime = true ∨ flags.allowDynamicNames = true

/-- No unit is made where partials are embedded, and accepted names are not reported. -/
structure Lets (s t : Compilation) : Prop where
  table : s.view.flags.runtime = false → t.view.table = s.view.table
  accepted : Accepting s.view.flags → ∀ expr, .dynamicName expr ∈ t.view.diagnostics →
    .dynamicName expr ∈ s.view.diagnostics

namespace Lets

variable {s s₁ t : Compilation}

theorem of_eq (htable : t.view.table = s.view.table)
    (hdiagnostics : t.view.diagnostics = s.view.diagnostics) : Lets s t :=
  ⟨fun _ => htable, fun _ _ h => hdiagnostics ▸ h⟩

theorem trans (h₁ : Lets s s₁) (h₂ : Lets s₁ t) (hflags : s₁.view.flags = s.view.flags) :
    Lets s t :=
  ⟨fun hembeds => (h₂.table (hflags ▸ hembeds)).trans (h₁.table hembeds),
    fun haccepts expr hexpr => h₁.accepted haccepts expr (h₂.accepted (hflags ▸ haccepts) expr hexpr)⟩

theorem report {d : Diagnostic} (hd : ∀ expr, d ≠ .dynamicName expr) (s : Compilation) :
    Lets s (s.mapView (·.report d)) := by
  refine ⟨fun _ => rfl, fun _ expr hexpr => (List.mem_append.mp hexpr).resolve_right fun h => ?_⟩
  exact hd expr (List.mem_singleton.mp h).symm

theorem missed (name : Text) (s : Compilation) : Lets s (s.missed name) := by
  unfold Compilation.missed
  split
  · exact .of_eq rfl rfl
  · exact .report (fun _ h => by cases h) s

theorem missedOnce (name : Text) (s : Compilation) : Lets s (s.missedOnce name) := by
  unfold Compilation.missedOnce
  split
  · exact .report (fun _ h => by cases h) s
  · exact .of_eq rfl rfl

theorem closeChecked (name : Text) (closed : Bool) (s : Compilation) :
    Lets s (closeChecked name closed s) := by
  cases closed with
  | true => exact .of_eq rfl rfl
  | false => exact .report (fun _ h => by cases h) s

theorem preprocessed (source name : Text) (s : Compilation) :
    Lets s (s.preprocessed source name) := by
  unfold Compilation.preprocessed
  split <;> exact .of_eq rfl rfl

/-- The reference is reported only where such names are not accepted. -/
theorem dynamicNoted (expr : Text) (s : Compilation) : Lets s (dynamicNoted expr s) := by
  unfold Handlebars.dynamicNoted
  split
  · rename_i hrefuses
    simp only [Bool.and_eq_true, Bool.not_eq_true'] at hrefuses
    refine ⟨fun _ => rfl, fun haccepts => ?_⟩
    simp [Accepting, hrefuses] at haccepts
  · exact .of_eq rfl rfl

theorem merge (h : Lets s.isolated t) : Lets s (s.merge t) := by
  constructor
  · intro hembeds
    have htable : t.view.table = s.view.table := h.table hembeds
    show s.view.table.absorb t.view.table = s.view.table
    rw [htable, OrderedMap.absorb_self]
  · intro haccepts expr hexpr
    rcases List.mem_append.mp hexpr with hexpr | hexpr
    · exact hexpr
    · exact h.accepted haccepts expr (List.mem_of_mem_drop hexpr)

end Lets

theorem Runs.lets {task : Task} {s t : Compilation} {code : Text} (h : Runs fs task s code t) :
    Lets s t := by
  induction h with
  | text _ ih => exact ⟨ih.table, ih.accepted⟩
  | nil => exact .of_eq rfl rfl
  | cons h₁ _ ih₁ ih₂ => exact ih₁.trans ih₂ h₁.flags_eq
  | literal => exact .of_eq rfl rfl
  | «variable» => exact .of_eq rfl rfl
  | dispatched _ _ ih => exact ⟨ih.table, ih.accepted⟩
  | embedded h₁ _ _ ih₁ ih₂ =>
      have hread := ih₁.trans ih₂ h₁.flags_eq
      exact ⟨hread.table, hread.accepted⟩
  | @dynamic expr indent s =>
      have hnoted := Lets.dynamicNoted expr
        ((atIndent (indent.getD []) s).counted Counter.dynamicReferences)
      exact ⟨hnoted.table, hnoted.accepted⟩
  | enclosed _ _ ih => exact ⟨ih.table, ih.accepted⟩
  | enclosedCall => exact .of_eq rfl rfl
  | notEnclosed => exact .report (fun _ h => by cases h) _
  | @blockDispatched name body closed s u s₁ unit t h₁ _ h₂ ih₁ ih₂ =>
      have hflags : (closeChecked name closed s).view.flags = s.view.flags := by
        cases closed <;> rfl
      have hread := ih₁.trans ih₂ h₁.flags_eq
      have hclosed := (Lets.closeChecked name closed s).trans (t := t)
        ⟨hread.table, hread.accepted⟩ hflags
      exact ⟨hclosed.table, hclosed.accepted⟩
  | @blockEmbedded name body closed s u s₁ code t h₁ _ h₂ ih₁ ih₂ =>
      have hflags : (closeChecked name closed s).view.flags = s.view.flags := by
        cases closed <;> rfl
      have hread := ih₁.trans (t := t) ⟨ih₂.table, ih₂.accepted⟩ h₁.flags_eq
      have hclosed := (Lets.closeChecked name closed s).trans (t := t)
        ⟨hread.table, hread.accepted⟩ hflags
      exact ⟨hclosed.table, hclosed.accepted⟩
  | @inlineKnown name body closed s =>
      have hclosed := Lets.closeChecked "inline".toList closed s
      exact ⟨hclosed.table, hclosed.accepted⟩
  | @inlineNew name body closed s u t _ _ ih =>
      have hflags : (closeChecked "inline".toList closed s).view.flags = s.view.flags := by
        cases closed <;> rfl
      exact (Lets.closeChecked "inline".toList closed s).trans (t := t)
        ⟨ih.table, ih.accepted⟩ hflags
  | strayClose => exact .report (fun _ h => by cases h) _
  | readKnown => exact .of_eq rfl rfl
  | @readMissing name s =>
      have hmissed := Lets.missed name (s.counted Counter.references)
      exact ⟨hmissed.table, hmissed.accepted⟩
  | @readFound name s raw source target u t _ _ _ _ ih =>
      have hscope := scope_preprocessed raw name (s.counted Counter.references)
      have hpreprocessed := Lets.preprocessed raw name (s.counted Counter.references)
      have hfound := hpreprocessed.trans (t := t) ⟨ih.table, ih.accepted⟩
        (congrArg (fun c => c.flags) hscope)
      exact ⟨hfound.table, hfound.accepted⟩
  | unitIdle => exact .of_eq rfl rfl
  | unitNew hruntime _ _ _ ih =>
      refine ⟨fun hembeds => ?_, ih.accepted⟩
      rw [hembeds] at hruntime
      cases hruntime
  | apart _ ih => exact ih.merge
  | embedMissing => exact .missedOnce _ _
  | embedOpen _ _ _ ih => exact ih
  | embedGuarded _ _ _ _ ih => exact ⟨ih.table, ih.accepted⟩
  | embedRepeated => exact .report (fun _ h => by cases h) _

theorem ReadsAll.lets {names : List Text} {s t : Compilation} (h : ReadsAll fs names s t) :
    Lets s t := by
  induction h with
  | nil => exact .of_eq rfl rfl
  | cons hread _ ih => exact hread.lets.trans ih hread.flags_eq

theorem Compiles.lets {options : Options} {hook : Option Hook} {template code : Text}
    {middle final : Compilation} (h : Compiles fs options hook template code middle final) :
    Lets (initial options hook fs) final :=
  h.runs.lets.trans h.reads.lets h.runs.flags_eq

/-! ## Whole compilations -/

/-- Where names that are known at render time only are accepted, none is reported. If one is
counted, then every registered partial is cached, and has its unit if partials are dispatched.
Where partials are embedded there is no unit at all. -/
theorem dynamic_names_served (fs : FileSystem) (options : Options) (template : Text)
    (haccepts : Accepting options.flags) :
    ∃ outcome, compile fs options none template = some outcome ∧
      (∀ expr, .dynamicName expr ∉ outcome.diagnostics) ∧
      (outcome.counters.count Counter.dynamicReferences ≠ 0 → ∀ name ∈ options.partials,
        ∃ source, outcome.cached.get? name = some source ∧
          (options.flags.runtime = true → outcome.table.get? name =
            some (tableEntry name (unitCode options.flags options.fragments source)))) ∧
      (options.flags.runtime = false → outcome.table = ∅) := by
  obtain ⟨code, middle, final, hrun, h⟩ := exists_compiles fs options template
  have hlets := h.lets
  refine ⟨Outcome.ofRun (code, final), ?_, fun expr hexpr => ?_, fun hdynamic name hname => ?_, ?_⟩
  · unfold compile
    rw [hrun]
    rfl
  · exact absurd (hlets.accepted haccepts expr hexpr) List.not_mem_nil
  · obtain ⟨source, hsource⟩ :=
      OrderedMap.mem_iff_exists_get?.mp (h.mem_cached_of_dynamic hdynamic hname)
    refine ⟨source, hsource, fun hruntime => ?_⟩
    rw [← renamedUnit_id, ← h.resolve_eq_id]
    exact (h.canonical hruntime).2 name source hsource
  · exact hlets.table

/-- One registered partial, which is named at render time only. -/
def servedOptions (runtime : Bool) : Options :=
  { Options.standard with
    flags := ⟨false, runtime, false, true⟩
    partials := .ofList [("a".toList, "A".toList)] }

theorem dynamic_names_served_dispatched : Accepting (servedOptions true).flags ∧
    ∃ outcome,
      compile (.emptyAt ['/']) (servedOptions true) none "\x7b\x7b> (x)\x7d\x7d".toList =
        some outcome ∧
      (∀ expr, .dynamicName expr ∉ outcome.diagnostics) ∧ "a".toList ∈ outcome.table := by
  obtain ⟨outcome, hcompile, hdiagnostics, hserved, -⟩ :=
    dynamic_names_served (.emptyAt ['/']) (servedOptions true) "\x7b\x7b> (x)\x7d\x7d".toList
      (.inl rfl)
  have hcount : (compile (.emptyAt ['/']) (servedOptions true) none
      "\x7b\x7b> (x)\x7d\x7d".toList).map
        (fun outcome => outcome.counters.count Counter.dynamicReferences) = some 1 := by
    decide +kernel
  rw [hcompile, Option.map_some, Option.some.injEq] at hcount
  obtain ⟨source, -, hunit⟩ := hserved (hcount ▸ by decide) "a".toList (by decide +kernel)
  exact ⟨.inl rfl, outcome, hcompile, hdiagnostics, OrderedMap.mem_of_get? (hunit rfl)⟩

/-- Where partials are embedded, an accepted name leaves a call, and no unit to call. -/
theorem accepted_name_without_unit :
    Accepting (servedOptions false).flags ∧ "a".toList ∈ (servedOptions false).partials ∧
    (compile (.emptyAt ['/']) (servedOptions false) none "\x7b\x7b> (x)\x7d\x7d".toList).map
        (fun outcome => (outcome.counters.count Counter.dynamicReferences, outcome.diagnostics,
          outcome.cached.keys, outcome.table.keys)) = some (1, [], ["a".toList], []) :=
  ⟨.inr rfl, by decide +kernel, by decide +kernel⟩

end Inlay.Handlebars
