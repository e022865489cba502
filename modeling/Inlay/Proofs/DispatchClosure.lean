import Inlay.Proofs.Termination

/-!
# Where dispatch calls lead

With dispatching, each partial that a compiled text refers to is looked for.
Whatever is found gets a unit, and what is not found is reported, under the
name that the compiled text has for it. The names with the keyword that get
units or are reported are those of the template itself, as all other texts
are masked.
-/

namespace Inlay

/-! ## Names that nodes dispatch to and define -/

/-- The partial that the call of a node names. -/
def Node.dispatches? : Node → Option Text
  | .reference (.named name) _ => some name
  | .block name _ _ => some name
  | _ => none

theorem Node.mem_references_of_dispatches? {n : Node} {name : Text}
    (h : n.dispatches? = some name) : name ∈ n.references := by
  cases n with
  | reference target indent =>
      cases target with
      | named other =>
          obtain rfl := Option.some.inj h
          exact List.mem_cons_self
      | _ => cases h
  | block other body closed =>
      obtain rfl := Option.some.inj h
      exact List.mem_cons_self
  | _ => cases h

/-- The inline partial that a node defines. -/
def Node.defines? : Node → Option Text
  | .inlinePartial name _ _ => some name
  | _ => none

namespace Text

/-- The names that the calls of a text name, in order. -/
def dispatched (s : Text) : List Text :=
  s.nodes.filterMap Node.dispatches?

/-- The inline partials that a text defines, in order. -/
def defined (s : Text) : List Text :=
  s.nodes.filterMap Node.defines?

theorem dispatched_subset (s : Text) : s.dispatched ⊆ s.references := by
  intro name h
  obtain ⟨n, hn, hname⟩ := List.mem_filterMap.mp h
  exact Node.references_subset hn (Node.mem_references_of_dispatches? hname)

theorem isInfix_of_mem_dispatched {s name : Text} (h : name ∈ s.dispatched) : name <:+: s :=
  isInfix_of_mem_references (s.dispatched_subset h)

theorem isInfix_of_mem_defined {s name : Text} (h : name ∈ s.defined) : name <:+: s := by
  obtain ⟨n, hn, hname⟩ := List.mem_filterMap.mp h
  cases n with
  | inlinePartial m body closed =>
      obtain rfl := Option.some.inj hname
      exact isInfix_of_openInline (Node.tags_subset hn List.mem_cons_self)
  | _ => cases hname

end Text

namespace Handlebars

open Compilation

/-! ## What a dispatching run gains -/

variable {fs : FileSystem} {c : Context} {P Q : Text → Prop}

/-- The name has a source that can be found. -/
def HasSource (fs : FileSystem) (c : Context) (name : Text) : Prop :=
  c.rawSource? fs name ≠ none

/-- The name was looked for: it is cached, or it was not found and reported. -/
def Looked (fs : FileSystem) (c : Context) (t : Compilation) (name : Text) : Prop :=
  name ∈ t.view.cached ∨
    (¬ HasSource fs c name ∧
      (c.flags.skipMissing = true ∨ .missingPartial name ∈ t.view.diagnostics))

/-- The partials that a node names were looked for, and what it defines is cached. -/
def Settled (fs : FileSystem) (c : Context) (t : Compilation) (n : Node) : Prop :=
  (∀ name, n.dispatches? = some name → Looked fs c t name) ∧
    ∀ name, n.defines? = some name → name ∈ t.view.cached

/-- The call compiles a text whose nodes are settled. -/
def SettledCall (fs : FileSystem) (c : Context) (t : Compilation) (e : Event) : Prop :=
  ∃ v text, e = .compile v text ∧ ∀ n ∈ text.nodes, Settled fs c t n

/-- From `s` to `t` only allowed names get units or are reported, whatever is cached gets a
unit, and what the calls in between come to is settled. -/
structure Gains (fs : FileSystem) (c : Context) (P Q : Text → Prop) (s t : Compilation) : Prop where
  grows : s.Grows t
  table : ∀ name ∈ t.view.table, name ∈ s.view.table ∨ P name
  missing : ∀ name, .missingPartial name ∈ t.view.diagnostics →
    .missingPartial name ∈ s.view.diagnostics ∨ Q name
  cached : ∀ name ∈ t.view.cached, name ∈ s.view.cached ∨ name ∈ t.view.table
  calls : ∃ new, t.trace = new ++ s.trace ∧ ∀ e ∈ new, SettledCall fs c t e

theorem Looked.mono {s t : Compilation} {name : Text} (h : Looked fs c s name) (ht : s.Grows t) :
    Looked fs c t name := by
  rcases h with h | ⟨hsource, h⟩
  · exact .inl (ht.cached.mem h)
  · exact .inr ⟨hsource, h.imp_right fun hm => ht.diagnostics.subset hm⟩

theorem Settled.mono {s t : Compilation} {n : Node} (h : Settled fs c s n) (ht : s.Grows t) :
    Settled fs c t n :=
  ⟨fun name hname => (h.1 name hname).mono ht, fun name hname => ht.cached.mem (h.2 name hname)⟩

theorem SettledCall.mono {s t : Compilation} {e : Event} (h : SettledCall fs c s e)
    (ht : s.Grows t) : SettledCall fs c t e := by
  obtain ⟨v, text, rfl, hnodes⟩ := h
  exact ⟨v, text, rfl, fun n hn => (hnodes n hn).mono ht⟩

theorem settled_of_eq_none {n : Node} (hdispatch : n.dispatches? = none)
    (hdefine : n.defines? = none) (t : Compilation) : Settled fs c t n := by
  constructor
  · intro name hname
    rw [hdispatch] at hname
    cases hname
  · intro name hname
    rw [hdefine] at hname
    cases hname

namespace Gains

theorem refl (s : Compilation) : Gains fs c P Q s s :=
  ⟨.refl s, fun _ h => .inl h, fun _ h => .inl h, fun _ h => .inl h, [], rfl, by simp⟩

theorem trans {s t r : Compilation} (h₁ : Gains fs c P Q s t) (h₂ : Gains fs c P Q t r) :
    Gains fs c P Q s r := by
  refine ⟨h₁.grows.trans h₂.grows, fun name hname => ?_, fun name hname => ?_,
    fun name hname => ?_, ?_⟩
  · exact (h₂.table name hname).elim (h₁.table name) .inr
  · exact (h₂.missing name hname).elim (h₁.missing name) .inr
  · rcases h₂.cached name hname with hname | hname
    · exact (h₁.cached name hname).imp_right h₂.grows.table.mem
    · exact .inr hname
  · obtain ⟨new₁, ht, hnew₁⟩ := h₁.calls
    obtain ⟨new₂, hr, hnew₂⟩ := h₂.calls
    refine ⟨new₂ ++ new₁, by rw [hr, ht, List.append_assoc], fun e he => ?_⟩
    rcases List.mem_append.mp he with he | he
    · exact hnew₂ e he
    · exact (hnew₁ e he).mono h₂.grows

theorem counted (counter : Text) (s : Compilation) : Gains fs c P Q s (s.counted counter) :=
  ⟨grows_counted counter s, fun _ h => .inl h, fun _ h => .inl h, fun _ h => .inl h, [], rfl,
    by simp⟩

theorem inlineNoted (name source : Text) (s : Compilation) :
    Gains fs c P Q s (inlineNoted name source s) :=
  ⟨grows_inlineNoted name source s, fun _ h => .inl h, fun _ h => .inl h, fun _ h => .inl h, [],
    rfl, by simp⟩

/-- The call that compiles the text is one of the calls. -/
theorem of_emit {text : Text} {s t : Compilation}
    (h : Gains fs c P Q (s.emit (.compile s.view text)) t)
    (hnodes : ∀ n ∈ text.nodes, Settled fs c t n) : Gains fs c P Q s t := by
  refine ⟨(grows_emit _ s).trans h.grows, h.table, h.missing, h.cached, ?_⟩
  obtain ⟨new, ht, hnew⟩ := h.calls
  refine ⟨new ++ [.compile s.view text], by rw [ht, List.append_assoc]; rfl, fun e he => ?_⟩
  rcases List.mem_append.mp he with he | he
  · exact hnew e he
  · exact ⟨s.view, text, List.mem_singleton.mp he, hnodes⟩

theorem report {d : Diagnostic} (hd : ∀ name, d = .missingPartial name → Q name)
    (s : Compilation) : Gains fs c P Q s (s.mapView (·.report d)) := by
  refine ⟨grows_report d s, fun _ h => .inl h, fun name hname => ?_, fun _ h => .inl h, [], rfl,
    by simp⟩
  rcases List.mem_append.mp hname with hname | hname
  · exact .inl hname
  · exact .inr (hd name (List.mem_singleton.mp hname).symm)

theorem missed {name : Text} (hname : Q name) (s : Compilation) :
    Gains fs c P Q s (s.missed name) := by
  unfold Compilation.missed
  split
  · exact refl s
  · exact report (fun _ h => Diagnostic.missingPartial.inj h ▸ hname) s

theorem closeChecked (name : Text) (closed : Bool) (s : Compilation) :
    Gains fs c P Q s (closeChecked name closed s) := by
  cases closed with
  | true => exact refl s
  | false => exact report (fun _ h => by cases h) s

theorem dynamicNoted (expr : Text) (s : Compilation) :
    Gains fs c P Q s (dynamicNoted expr s) := by
  unfold Handlebars.dynamicNoted
  split
  · exact report (fun _ h => by cases h) s
  · exact refl s

/-- Indentation of the line does not matter. -/
theorem atIndent {v w : Text} {s t : Compilation} (h : Gains fs c P Q (atIndent v s) t) :
    Gains fs c P Q s (atIndent w t) :=
  ⟨⟨h.grows.cached, h.grows.table, h.grows.diagnostics, h.grows.trace⟩, h.table, h.missing,
    h.cached, h.calls⟩

/-- A unit for a name makes up for caching its source. -/
theorem of_cached {name : Text} {s s' t : Compilation} (h : Gains fs c P Q s' t)
    (hgrows : s.Grows s') (htable : s'.view.table = s.view.table)
    (hdiagnostics : s'.view.diagnostics = s.view.diagnostics) (htrace : s'.trace = s.trace)
    (hcached : ∀ other ∈ s'.view.cached, other ∈ s.view.cached ∨ other = name)
    (hunit : name ∈ t.view.table) : Gains fs c P Q s t := by
  refine ⟨hgrows.trans h.grows, ?_, ?_, fun other hother => ?_, ?_⟩
  · rw [← htable]
    exact h.table
  · rw [← hdiagnostics]
    exact h.missing
  · rcases h.cached other hother with hother | hother
    · rcases hcached other hother with hother | rfl
      · exact .inl hother
      · exact .inr hunit
    · exact .inr hother
  · rw [← htrace]
    exact h.calls

theorem enroll {name : Text} (hname : P name) (unit : Text) {s t : Compilation}
    (h : Gains fs c P Q s t) : Gains fs c P Q s (t.enroll name unit) := by
  have hgrows := grows_enroll name unit t
  refine ⟨h.grows.trans hgrows, fun other hother => ?_, h.missing, fun other hother => ?_, ?_⟩
  · rcases OrderedMap.mem_insertIfNew.mp hother with hother | rfl
    · exact h.table other hother
    · exact .inr hname
  · exact (h.cached other hother).imp_right hgrows.table.mem
  · obtain ⟨new, ht, hnew⟩ := h.calls
    exact ⟨new, ht, fun e he => (hnew e he).mono hgrows⟩

/-- What a nested compilation gains is kept when its copy is merged back. -/
theorem merge {s t : Compilation} (h : Gains fs c P Q s.isolated t) :
    Gains fs c P Q s (s.merge t) := by
  have hback := grows_merge_of_copy h.grows
  refine ⟨grows_merge h.grows, fun name hname => ?_, fun name hname => ?_, fun name hname => ?_, ?_⟩
  · rcases OrderedMap.mem_absorb.mp hname with hname | hname
    · exact .inl hname
    · exact h.table name hname
  · rcases List.mem_append.mp hname with hname | hname
    · exact .inl hname
    · exact h.missing name (List.mem_of_mem_drop hname)
  · rcases OrderedMap.mem_absorb.mp hname with hname | hname
    · exact .inl hname
    · exact (h.cached name hname).imp_right hback.table.mem
  · obtain ⟨new, ht, hnew⟩ := h.calls
    exact ⟨new, ht, fun e he => (hnew e he).mono hback⟩

end Gains

/-! ## What a run settles -/

/-- Names that a node may dispatch to, report and define. -/
def NodeAllowed (fs : FileSystem) (c : Context) (P Q : Text → Prop) (n : Node) : Prop :=
  (∀ name, n.dispatches? = some name →
    (HasSource fs c name → P name) ∧ (¬ HasSource fs c name → Q name)) ∧
      ∀ name, n.defines? = some name → P name

/-- What a task may dispatch to, report and define. -/
def Task.Allowed (fs : FileSystem) (c : Context) (P Q : Text → Prop) : Task → Prop
  | .text source => ∀ n ∈ source.nodes, NodeAllowed fs c P Q n
  | .nodes ns => ∀ n ∈ ns, NodeAllowed fs c P Q n
  | .node n => NodeAllowed fs c P Q n
  | .read name => (HasSource fs c name → P name) ∧ (¬ HasSource fs c name → Q name)
  | .unit name => P name
  | .apart _ => True
  | .embed _ => False

/-- What a task has settled from `s` to `t`. -/
def Task.Settles (fs : FileSystem) (c : Context) (P Q : Text → Prop) (s t : Compilation) :
    Task → Prop
  | .text source =>
      Gains fs c P Q (s.emit (.compile s.view source)) t ∧ ∀ n ∈ source.nodes, Settled fs c t n
  | .nodes ns => Gains fs c P Q s t ∧ ∀ n ∈ ns, Settled fs c t n
  | .node n => Gains fs c P Q s t ∧ Settled fs c t n
  | .read name => Gains fs c P Q s t ∧ Looked fs c t name
  | .unit name => Gains fs c P Q s t ∧ (name ∈ s.view.cached → name ∈ t.view.table)
  | .apart _ => Gains fs c P Q s t
  | .embed _ => True

/-- The names in a masked text do not have the keyword. -/
theorem nodeAllowed_of_masked (hplain : ∀ name, ¬ Keyword.word <:+: name → P name ∧ Q name)
    {text : Text} (hmasked : ¬ Keyword.word <:+: text) :
    ∀ n ∈ text.nodes, NodeAllowed fs c P Q n := by
  intro n hn
  constructor
  · intro name hname
    have hmem : name ∈ text.dispatched := List.mem_filterMap.mpr ⟨n, hn, hname⟩
    have h := hplain name fun hw => hmasked (hw.trans (Text.isInfix_of_mem_dispatched hmem))
    exact ⟨fun _ => h.1, fun _ => h.2⟩
  · intro name hname
    have hmem : name ∈ text.defined := List.mem_filterMap.mpr ⟨n, hn, hname⟩
    exact (hplain name fun hw => hmasked (hw.trans (Text.isInfix_of_mem_defined hmem))).1

theorem Runs.settles (hplain : ∀ name, ¬ Keyword.word <:+: name → P name ∧ Q name)
    {task : Task} {s t : Compilation} {code : Text} (h : Runs fs task s code t)
    (hs : Dispatching fs c s) (htask : task.Allowed fs c P Q) : task.Settles fs c P Q s t := by
  induction h with
  | text _ ih => exact ih (hs.emit _) htask
  | nil => exact ⟨.refl _, by simp⟩
  | cons h₁ h₂ ih₁ ih₂ =>
      obtain ⟨hn, hns⟩ := List.forall_mem_cons.mp htask
      obtain ⟨hgain₁, hnode⟩ := ih₁ hs hn
      obtain ⟨hgain₂, hnodes⟩ := ih₂ (hs.after h₁) hns
      exact ⟨hgain₁.trans hgain₂, List.forall_mem_cons.mpr ⟨hnode.mono hgain₂.grows, hnodes⟩⟩
  | literal => exact ⟨.refl _, settled_of_eq_none rfl rfl _⟩
  | «variable» => exact ⟨.refl _, settled_of_eq_none rfl rfl _⟩
  | @dispatched name indent s u s₁ h₁ _ ih =>
      obtain ⟨hgain, hlooked⟩ := ih (hs.atIndent _) (htask.1 name rfl)
      refine ⟨hgain.atIndent, fun other hother => ?_, fun other hother => by cases hother⟩
      obtain rfl := Option.some.inj hother
      exact hlooked
  | embedded h₁ hruntime =>
      have hread := (hs.atIndent _).after h₁
      simp [hread.dispatches] at hruntime
  | @dynamic expr indent s =>
      have hgain : Gains fs c P Q (atIndent (indent.getD []) s)
          (dynamicNoted expr ((atIndent (indent.getD []) s).counted Counter.dynamicReferences)) :=
        (Gains.counted ..).trans (Gains.dynamicNoted ..)
      exact ⟨hgain.atIndent, settled_of_eq_none rfl rfl _⟩
  | enclosed hblocks => simp [hs.blocks] at hblocks
  | enclosedCall => exact ⟨.refl _, settled_of_eq_none rfl rfl _⟩
  | notEnclosed _ hruntime => simp [hs.dispatches] at hruntime
  | @blockDispatched name body closed s u s₁ unit t h₁ _ h₂ ih₁ ih₂ =>
      have hs₁ := (hs.closeChecked name closed).atIndent []
      obtain ⟨hread, hlooked⟩ := ih₁ hs₁ (htask.1 name rfl)
      have hbody : Gains fs c P Q s₁ t := ih₂ (hs₁.after h₁) trivial
      have hclosed : Gains fs c P Q s (closeChecked name closed s) := .closeChecked ..
      refine ⟨hclosed.trans (hread.trans hbody).atIndent, fun other hother => ?_,
        fun other hother => by cases hother⟩
      obtain rfl := Option.some.inj hother
      have hkept := hlooked.mono hbody.grows
      exact hkept
  | @blockEmbedded name body closed s u s₁ code t h₁ hruntime h₂ ih₁ ih₂ =>
      have hread := ((hs.closeChecked name closed).atIndent []).after h₁
      simp [hread.dispatches] at hruntime
  | @inlineKnown name body closed s hknown =>
      have hclosed : Gains fs c P Q s (closeChecked "inline".toList closed s) := .closeChecked ..
      refine ⟨hclosed.trans (.inlineNoted ..), fun other hother => (by cases hother),
        fun other hother => ?_⟩
      obtain rfl := Option.some.inj hother
      rwa [cached_inlineNoted]
  | @inlineNew name body closed s u t hnew h ih =>
      have hs' := (hs.closeChecked "inline".toList closed).inlineNoted name (Keyword.unmask body)
      obtain ⟨hgain, hunit⟩ := ih (hs'.inlineCached name (Keyword.unmask body)) (htask.2 name rfl)
      have hclosed : Gains fs c P Q s (closeChecked "inline".toList closed s) := .closeChecked ..
      have hnoted := hclosed.trans (.inlineNoted name (Keyword.unmask body) _)
      rw [← cached_inlineNoted name (Keyword.unmask body) "inline".toList closed] at hnew
      have hcached : name ∈ (inlineCached name (Keyword.unmask body) (inlineNoted name
          (Keyword.unmask body) (closeChecked "inline".toList closed s))).view.cached :=
        OrderedMap.mem_insert.mpr (.inr rfl)
      have hrest := hgain.of_cached (grows_inlineCached hnew (Keyword.unmask body)) rfl rfl rfl
        (fun other hother => OrderedMap.mem_insert.mp hother) (hunit hcached)
      refine ⟨hnoted.trans hrest, fun other hother => (by cases hother), fun other hother => ?_⟩
      obtain rfl := Option.some.inj hother
      exact hgain.grows.cached.mem hcached
  | strayClose => exact ⟨.report (fun _ h => by cases h) _, settled_of_eq_none rfl rfl _⟩
  | @readKnown name s hknown =>
      rw [hs.hookFree.resolvedName_eq] at hknown
      exact ⟨.counted .., .inl hknown⟩
  | @readMissing name s hnew hnone =>
      have hsource : ¬ HasSource fs c name := fun h => h ((hs.raw name).symm.trans hnone)
      have hgain : Gains fs c P Q s ((s.counted Counter.references).missed name) :=
        (Gains.counted ..).trans (.missed (htask.2 hsource) _)
      refine ⟨hgain, .inr ⟨hsource, ?_⟩⟩
      rw [← hs.flags]
      exact told_missed name (s.counted Counter.references)
  | @readFound name s raw source target u t hnew hraw hparts h ih =>
      have hcounted := hs.counted Counter.references
      obtain ⟨rfl, rfl⟩ := hcounted.hookFree.parts_eq hparts
      rw [hs.hookFree.resolvedName_eq] at hnew
      have hsource : HasSource fs c name := by
        intro hnone
        rw [← hs.raw, hraw] at hnone
        cases hnone
      rw [hcounted.hookFree.preprocessed_eq] at ih
      obtain ⟨hgain, hunit⟩ := ih (hcounted.cache name raw) (htask.1 hsource)
      have hcached : name ∈ ((s.counted Counter.references).cache name name raw).view.cached :=
        OrderedMap.mem_insertIfNew.mpr (.inr rfl)
      have hrest := hgain.of_cached (grows_cache name name raw (s.counted Counter.references)) rfl
        rfl rfl (fun other hother => OrderedMap.mem_insertIfNew.mp hother) (hunit hcached)
      exact ⟨(Gains.counted ..).trans hrest, .inl (hgain.grows.cached.mem hcached)⟩
  | @unitIdle name s hidle =>
      refine ⟨.refl s, fun hcached => ?_⟩
      rcases hidle with hruntime | htable | hnone
      · simp [hs.dispatches] at hruntime
      · exact htable
      · exact absurd hcached (OrderedMap.get?_eq_none_iff.mp hnone)
  | @unitNew name s source unit t hruntime hnew hsource h ih =>
      have hgain : Gains fs c P Q s t := ih hs trivial
      exact ⟨hgain.enroll htask unit, fun _ => OrderedMap.mem_insertIfNew.mpr (.inr rfl)⟩
  | @apart template s code t h ih =>
      -- names in a masked text do not have the keyword, and such names are all allowed
      have hmasked := Keyword.not_word_infix_mask template
      obtain ⟨hgain, hnodes⟩ := ih hs.isolated (nodeAllowed_of_masked hplain hmasked)
      exact (hgain.of_emit hnodes).merge
  | embedMissing => trivial
  | embedOpen => trivial
  | embedGuarded => trivial
  | embedRepeated => trivial

theorem ReadsAll.settles (hplain : ∀ name, ¬ Keyword.word <:+: name → P name ∧ Q name)
    {names : List Text} {s t : Compilation} (h : ReadsAll fs names s t)
    (hs : Dispatching fs c s) (hnames : ∀ name ∈ names, Task.Allowed fs c P Q (.read name)) :
    Gains fs c P Q s t ∧ ∀ name ∈ names, Looked fs c t name := by
  induction h with
  | nil => exact ⟨.refl _, by simp⟩
  | cons hread _ ih =>
      obtain ⟨hname, hnames⟩ := List.forall_mem_cons.mp hnames
      obtain ⟨hgain, hlooked⟩ := hread.settles hplain hs hname
      obtain ⟨hrest, hall⟩ := ih (hs.after hread) hnames
      exact ⟨hgain.trans hrest, List.forall_mem_cons.mpr ⟨hlooked.mono hrest.grows, hall⟩⟩

/-! ## Whole compilations -/

theorem hasSource_of_mem_partials {name : Text} (h : name ∈ c.partials) : HasSource fs c name := by
  obtain ⟨raw, hraw⟩ := OrderedMap.mem_iff_exists_get?.mp h
  unfold HasSource Context.rawSource?
  rw [hraw]
  simp

theorem mem_partials_of_mem_preloaded {v : View} {name : Text} (h : name ∈ preloaded v) :
    name ∈ v.partials := by
  unfold preloaded at h
  split at h
  · exact h
  · cases h

/-- The template itself defines the name, or it has a source and the template names it or
reads it at the end. -/
def Found (fs : FileSystem) (c : Context) (source : Text) (preloads : List Text) (name : Text) :
    Prop :=
  name ∈ source.escape.defined ∨
    (HasSource fs c name ∧ (name ∈ source.escape.dispatched ∨ name ∈ preloads))

/-- Only such names get units. -/
def MayHaveUnit (fs : FileSystem) (c : Context) (source : Text) (preloads : List Text)
    (name : Text) : Prop :=
  ¬ Keyword.word <:+: name ∨ Found fs c source preloads name

/-- Only such names are reported missing. -/
def MayBeMissing (source name : Text) : Prop :=
  ¬ Keyword.word <:+: name ∨ name ∈ source.escape.dispatched

theorem nodeAllowed_of_template {source : Text} {preloads : List Text} {n : Node}
    (hn : n ∈ source.escape.nodes) :
    NodeAllowed fs c (MayHaveUnit fs c source preloads) (MayBeMissing source) n := by
  constructor
  · intro name hname
    have hmem : name ∈ source.escape.dispatched := List.mem_filterMap.mpr ⟨n, hn, hname⟩
    exact ⟨fun hsource => .inr (.inr ⟨hsource, .inl hmem⟩), fun _ => .inr hmem⟩
  · intro name hname
    exact .inr (.inl (List.mem_filterMap.mpr ⟨n, hn, hname⟩))

/-- What a whole compilation gains after the call that compiles the template. -/
abbrev TemplateGains (fs : FileSystem) (options : Options) (source : Text) (preloads : List Text)
    (final : Compilation) : Prop :=
  Gains fs (Context.start options none fs)
    (MayHaveUnit fs (Context.start options none fs) source preloads) (MayBeMissing source)
    ((initial options none fs).emit
      (.compile (initial options none fs).view source.escape)) final

/-- The calls of the template are settled when all is done, and so is what is read at the end. -/
structure Done (fs : FileSystem) (options : Options) (source : Text) (preloads : List Text)
    (final : Compilation) : Prop where
  gains : TemplateGains fs options source preloads final
  template : ∀ n ∈ source.escape.nodes, Settled fs (Context.start options none fs) final n
  preloads : ∀ name ∈ preloads, Looked fs (Context.start options none fs) final name

theorem Compiles.done {options : Options} {source code : Text} {middle final : Compilation}
    (h : Compiles fs options none source code middle final)
    (hruntime : options.flags.runtime = true) :
    Done fs options source (preloaded middle.view) final := by
  have hs := dispatching_initial fs hruntime
  have hplain : ∀ name, ¬ Keyword.word <:+: name →
      MayHaveUnit fs (Context.start options none fs) source (preloaded middle.view) name ∧
        MayBeMissing source name :=
    fun name hname => ⟨.inl hname, .inl hname⟩
  obtain ⟨hgain, hnodes⟩ := h.runs.settles hplain hs fun n hn => nodeAllowed_of_template hn
  have hnames : ∀ name ∈ preloaded middle.view, Task.Allowed fs (Context.start options none fs)
      (MayHaveUnit fs (Context.start options none fs) source (preloaded middle.view))
      (MayBeMissing source) (.read name) := by
    intro name hname
    have hpartials : middle.view.partials = options.partials :=
      congrArg (fun c => c.partials) h.runs.scope_eq
    have hregistered : name ∈ options.partials := hpartials ▸ mem_partials_of_mem_preloaded hname
    have hsource : HasSource fs (Context.start options none fs) name :=
      hasSource_of_mem_partials hregistered
    exact ⟨fun _ => .inr (.inr ⟨hsource, .inr hname⟩), fun hnone => absurd hsource hnone⟩
  obtain ⟨hpreload, hlooked⟩ := h.reads.settles hplain (hs.after h.runs) hnames
  exact ⟨hgain.trans hpreload, fun n hn => (hnodes n hn).mono hpreload.grows, hlooked⟩

/-- The text was handed to the host. -/
def Handed (s : Compilation) (text : Text) : Prop :=
  ∃ v, .compile v text ∈ s.trace

namespace Done

variable {options : Options} {source : Text} {preloads : List Text} {final : Compilation}
  (h : Done fs options source preloads final)

include h

/-- In the end, whatever is cached has a unit. -/
theorem mem_table_of_mem_cached {name : Text} (hname : name ∈ final.view.cached) :
    name ∈ final.view.table :=
  (h.gains.cached name hname).resolve_left (OrderedMap.not_mem_empty name)

theorem mem_table_of_looked {name : Text}
    (hlooked : Looked fs (Context.start options none fs) final name)
    (hsource : HasSource fs (Context.start options none fs) name) : name ∈ final.view.table :=
  h.mem_table_of_mem_cached (hlooked.resolve_right fun hnone => hnone.1 hsource)

/-- In the end, all that was handed to the host is settled. -/
theorem settled {text : Text} (hhanded : Handed final text) :
    ∀ n ∈ text.nodes, Settled fs (Context.start options none fs) final n := by
  obtain ⟨v, hmem⟩ := hhanded
  obtain ⟨new, htrace, hnew⟩ := h.gains.calls
  rw [htrace] at hmem
  rcases List.mem_append.mp hmem with hmem | hmem
  · obtain ⟨w, other, heq, hnodes⟩ := hnew _ hmem
    obtain ⟨-, rfl⟩ := Event.compile.inj heq
    exact hnodes
  · obtain ⟨-, rfl⟩ := Event.compile.inj (List.mem_singleton.mp hmem)
    exact h.template

theorem looked {text name : Text} (hhanded : Handed final text) (hname : name ∈ text.dispatched) :
    Looked fs (Context.start options none fs) final name := by
  obtain ⟨n, hn, hdispatch⟩ := List.mem_filterMap.mp hname
  exact (h.settled hhanded n hn).1 name hdispatch

theorem mem_table_of_defined {text name : Text} (hhanded : Handed final text)
    (hname : name ∈ text.defined) : name ∈ final.view.table := by
  obtain ⟨n, hn, hdefine⟩ := List.mem_filterMap.mp hname
  exact h.mem_table_of_mem_cached ((h.settled hhanded n hn).2 name hdefine)

/-- The template was handed to the host. -/
theorem handed_template : Handed final source.escape := by
  obtain ⟨new, htrace, -⟩ := h.gains.calls
  exact ⟨_, htrace ▸ List.mem_append_right new List.mem_cons_self⟩

/-- What the template itself defines or finds has a unit. -/
theorem mem_table_of_found {name : Text}
    (hfound : Found fs (Context.start options none fs) source preloads name) :
    name ∈ final.view.table := by
  rcases hfound with hdefined | ⟨hsource, hname⟩
  · exact h.mem_table_of_defined h.handed_template hdefined
  · exact h.mem_table_of_looked (hname.elim (h.looked h.handed_template) (h.preloads name)) hsource

end Done

end Handlebars

end Inlay
