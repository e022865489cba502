import Inlay.Proofs.DispatchClosure
import Inlay.Proofs.UnitCode

/-!
# Units of plain partials

If templates and partials are plain, then a dispatching compilation makes
the code of a template from its nodes, one after another, and every unit in
the dispatch table is the one of a source that can be found. No reference is
dynamic, so no partial is read at the end.
-/

namespace Inlay

namespace OrderedMap

theorem lookup_of_mem {α : Type} {entries : List (Text × α)} {name : Text} {value : α}
    (hnodup : (entries.map Prod.fst).Nodup) (h : (name, value) ∈ entries) :
    entries.lookup name = some value := by
  induction entries with
  | nil => cases h
  | cons entry entries ih =>
      obtain ⟨hnew, hnodup⟩ := List.nodup_cons.mp hnodup
      rcases List.mem_cons.mp h with rfl | h
      · exact lookup_cons_self name value entries
      · have hne : name ≠ entry.1 := by
          rintro rfl
          exact hnew (List.mem_map.mpr ⟨_, h, rfl⟩)
        rw [← ih hnodup h]
        exact lookup_cons_of_ne hne entry.2 entries

theorem count_insert (m : OrderedMap UInt32) (name other : Text) (value : UInt32) :
    (m.insert name value).count other = if other = name then value else m.count other := by
  unfold count
  rw [get?_insert]
  split <;> rfl

theorem count_of_mem {m : OrderedMap UInt32} {name : Text} {value : UInt32}
    (h : (name, value) ∈ m.entries) : m.count name = value := by
  unfold count get?
  rw [lookup_of_mem m.nodup h]
  rfl

/-- What is not counted in a copy is not counted when it is merged back. -/
theorem count_raiseAll_eq_zero {m other : OrderedMap UInt32} {name : Text} (hm : m.count name = 0)
    (hother : other.count name = 0) : (m.raiseAll other).count name = 0 := by
  have hentries : ∀ entry ∈ other.entries, entry.1 = name → entry.2 = 0 := by
    rintro ⟨key, value⟩ hmem rfl
    rw [← count_of_mem hmem, hother]
  unfold raiseAll
  generalize other.entries = entries at hentries
  induction entries generalizing m with
  | nil => exact hm
  | cons entry entries ih =>
      obtain ⟨hentry, hrest⟩ := List.forall_mem_cons.mp hentries
      refine ih ?_ hrest
      show (m.insert entry.1 (max (m.count entry.1) entry.2)).count name = 0
      rw [count_insert]
      split
      · rename_i heq
        rw [hentry heq.symm, ← heq, hm]
        rfl
      · exact hm

end OrderedMap

namespace Handlebars

open Compilation Keyword Target

/-! ## States -/

/-- The unit of a source. -/
def unitOf (source : Text) : Text :=
  Callable.define .standard (", ".toList ++ Callable.indentParameter)
    (rawInside (unitPieces .fresh source.nodes))

/-- The sources of names of this kind are plain, refer to such names, break no variable over
lines and have no bells. So are those of names with bells, which masking makes. -/
def TidySources (fs : FileSystem) (c : Context) (P : Text → Prop) : Prop :=
  ∀ name source, P name ∨ bell ∈ name → c.rawSource? fs name.escape = some source →
    source.Plain P ∧ source.Unbroken ∧ bell ∉ source

/-- A partial is looked for under this name if names are of the given kind in texts as they
were written. -/
def Sought (P : Text → Prop) (key : Text) : Prop :=
  ∃ name, (P name ∨ bell ∈ name) ∧ key = name.escape

/-- All that is cached are escaped sources, all in the table are their units, and these were
compiled. -/
structure Enrolled (fs : FileSystem) (c : Context) (P : Text → Prop) (s : Compilation) : Prop where
  fragments : s.view.fragments = .standard
  cached : ∀ name source, s.view.cached.get? name = some source →
    Sought P name ∧ (c.rawSource? fs name).map Text.escape = some source
  table : ∀ name entry, s.view.table.get? name = some entry → ∃ source v,
    c.rawSource? fs name = some source ∧ entry = tableEntry name (unitOf source) ∧
      .compile v (mask source.escape) ∈ s.trace
  undynamic : s.view.counters.count Counter.dynamicReferences = 0

namespace Enrolled

variable {fs : FileSystem} {c : Context} {P : Text → Prop} {s : Compilation} (h : Enrolled fs c P s)

include h

theorem emit (e : Event) : Enrolled fs c P (s.emit e) := by
  refine ⟨h.fragments, h.cached, fun name entry hentry => ?_, h.undynamic⟩
  obtain ⟨source, v, hsource, hunit, hcompiled⟩ := h.table name entry hentry
  exact ⟨source, v, hsource, hunit, List.mem_cons_of_mem e hcompiled⟩

theorem report (d : Diagnostic) : Enrolled fs c P (s.mapView (·.report d)) :=
  ⟨h.fragments, h.cached, h.table, h.undynamic⟩

theorem missed (name : Text) : Enrolled fs c P (s.missed name) := by
  unfold Compilation.missed
  split
  · exact h
  · exact h.report _

theorem counted : Enrolled fs c P (s.counted Counter.references) := by
  refine ⟨h.fragments, h.cached, h.table, ?_⟩
  have hcount : (s.view.counters.increment Counter.references).count Counter.dynamicReferences = 0 := by
    unfold OrderedMap.increment
    rw [OrderedMap.count_insert, if_neg (by decide), h.undynamic]
  exact hcount

theorem atIndent (w : Text) : Enrolled fs c P (atIndent w s) :=
  ⟨h.fragments, h.cached, h.table, h.undynamic⟩

theorem isolated : Enrolled fs c P s.isolated :=
  ⟨h.fragments, h.cached, h.table, h.undynamic⟩

theorem cache {name raw : Text} (hname : Sought P name) (hraw : c.rawSource? fs name = some raw) :
    Enrolled fs c P (s.cache name name raw) := by
  have hnew : Sought P name ∧ (c.rawSource? fs name).map Text.escape = some raw.escape :=
    ⟨hname, by rw [hraw, Option.map_some]⟩
  exact ⟨h.fragments, OrderedMap.forall_insertIfNew h.cached hnew, h.table, h.undynamic⟩

/-- The unit of a source was compiled. -/
theorem enroll {name source : Text} {v : View} (hsource : c.rawSource? fs name = some source)
    (hcompiled : .compile v (mask source.escape) ∈ s.trace) :
    Enrolled fs c P (s.enroll name (unitOf source)) :=
  ⟨h.fragments, h.cached,
    OrderedMap.forall_insertIfNew h.table ⟨source, v, hsource, rfl, hcompiled⟩, h.undynamic⟩

/-- A copy is merged back. -/
theorem merge {t : Compilation} (ht : Enrolled fs c P t) (hgrows : s.trace <:+ t.trace) :
    Enrolled fs c P (s.merge t) := by
  have hkept : ∀ name entry, s.view.table.get? name = some entry → ∃ source v,
      c.rawSource? fs name = some source ∧ entry = tableEntry name (unitOf source) ∧
        .compile v (mask source.escape) ∈ t.trace := by
    intro name entry hentry
    obtain ⟨source, v, hsource, hunit, hcompiled⟩ := h.table name entry hentry
    exact ⟨source, v, hsource, hunit, hgrows.subset hcompiled⟩
  exact ⟨h.fragments, OrderedMap.forall_absorb h.cached ht.cached,
    OrderedMap.forall_absorb hkept ht.table,
    OrderedMap.count_raiseAll_eq_zero h.undynamic ht.undynamic⟩

end Enrolled

/-! ## Runs -/

section

variable {fs : FileSystem} {c : Context} {P : Text → Prop}

/-- What a task yields for plain texts, and that the state it ends in has proper units. -/
def Task.Enrolls (fs : FileSystem) (c : Context) (P : Text → Prop) (s : Compilation) (code : Text)
    (t : Compilation) : Task → Prop
  | .text source => source.Plain (Sought P) →
      Enrolled fs c P t ∧ code = source.nodes.flatMap (plainCode s.view.indentBound)
  | .nodes ns => (∀ n ∈ ns, n.Plain (Sought P)) →
      Enrolled fs c P t ∧ code = ns.flatMap (plainCode s.view.indentBound)
  | .node n => n.Plain (Sought P) → Enrolled fs c P t ∧ code = plainCode s.view.indentBound n
  | .read name => Sought P name → Enrolled fs c P t
  | .unit _ => Enrolled fs c P t
  | .apart template => ∀ name source, template = source.escape → Sought P name →
      c.rawSource? fs name = some source →
      Enrolled fs c P t ∧ code = unitOf source ∧ ∃ v, .compile v (mask template) ∈ t.trace
  | .embed _ => True

theorem Runs.indentBound_eq {task : Task} {s t : Compilation} {code : Text}
    (h : Runs fs task s code t) : t.view.indentBound = s.view.indentBound :=
  congrArg (fun c => c.indentBound) h.scope_eq

/-- The callable of a masked source is its unit. -/
theorem callable_eq_unitOf {v : View} (hfragments : v.fragments = .standard)
    (hindents : v.flags.noIndent = false) {source : Text} (hplain : source.Plain P)
    (hunbroken : source.Unbroken) (hbell : bell ∉ source) :
    callable v ((mask source.escape).nodes.flatMap (plainCode true)) = unitOf source := by
  unfold callable unitOf
  rw [hindents, hfragments, if_neg Bool.false_ne_true, unit_code hplain hunbroken hbell]

theorem sought_mask {name : Text} (h : P name) : Sought P (mask name.escape) := by
  refine ⟨mask name, ?_, mask_escape name⟩
  by_cases hword : word <:+: name
  · have hmasked : word <:+: name ∧ sentinel <:+: mask name :=
      (Text.replace_eq_self_or_isInfix word_ne_nil name).resolve_left fun hno => hno.1 hword
    exact .inr (hmasked.2.subset (by decide))
  · rw [mask_of_not_isInfix hword]
    exact .inl h

/-- The names in a masked text are looked for, if the text itself refers to names of the
given kind. -/
theorem plain_mask_escape {source : Text} (h : source.Plain P) :
    (mask source.escape).Plain (Sought P) := by
  have hescaped : source.escape.Plain fun key => ∃ name, P name ∧ key = name.escape :=
    h.escaped fun name hname => ⟨name, hname, rfl⟩
  refine hescaped.replaced inert_mask ?_
  rintro _ ⟨name, hname, rfl⟩
  exact sought_mask hname

theorem Runs.enrolls (htidy : TidySources fs c P) (hindents : c.flags.noIndent = false)
    {task : Task} {s t : Compilation} {code : Text} (h : Runs fs task s code t)
    (hs : Dispatching fs c s) (henrolled : Enrolled fs c P s) : task.Enrolls fs c P s code t := by
  induction h with
  | text _ ih => exact fun hplain => ih (hs.emit _) (henrolled.emit _) fun n hn => hplain.node hn
  | nil => exact fun _ => ⟨henrolled, rfl⟩
  | @cons n ns s a s₁ b t h₁ h₂ ih₁ ih₂ =>
      intro hplain
      obtain ⟨hn, hns⟩ := List.forall_mem_cons.mp hplain
      obtain ⟨henrolled₁, rfl⟩ := ih₁ hs henrolled hn
      obtain ⟨ht, rfl⟩ := ih₂ (hs.after h₁) henrolled₁ hns
      rw [h₁.indentBound_eq]
      exact ⟨ht, rfl⟩
  | literal => exact fun _ => ⟨henrolled, rfl⟩
  | @«variable» name s =>
      intro _
      rw [henrolled.fragments]
      exact ⟨henrolled, rfl⟩
  | @dispatched name indent s u s₁ h₁ _ ih =>
      intro hplain
      have hs₁ := (hs.atIndent (indent.getD [])).after h₁
      have henrolled₁ : Enrolled fs c P s₁ := ih (hs.atIndent _) (henrolled.atIndent _) hplain.1
      have hflags : s₁.view.flags.noIndent = false := by rw [hs₁.flags, hindents]
      have hbound : s₁.view.indentBound = s.view.indentBound := h₁.indentBound_eq
      rw [hs₁.hookFree.resolvedName_eq, dispatch_standard henrolled₁.fragments hflags, hbound]
      exact ⟨henrolled₁.atIndent _, rfl⟩
  | embedded h₁ hruntime =>
      have hread := (hs.atIndent _).after h₁
      simp [hread.dispatches] at hruntime
  | dynamic => exact False.elim
  | enclosed => exact False.elim
  | enclosedCall => exact False.elim
  | notEnclosed => exact False.elim
  | blockDispatched => exact False.elim
  | blockEmbedded => exact False.elim
  | inlineKnown => exact False.elim
  | inlineNew => exact False.elim
  | strayClose => exact False.elim
  | readKnown => exact fun _ => henrolled.counted
  | @readMissing name => exact fun _ => henrolled.counted.missed name
  | @readFound name s raw source target u t _ hraw hparts _ ih =>
      intro hname
      have hcounted := hs.counted Counter.references
      obtain ⟨rfl, rfl⟩ := hcounted.hookFree.parts_eq hparts
      rw [hs.raw] at hraw
      rw [hcounted.hookFree.preprocessed_eq] at ih
      exact ih (hcounted.cache _ _) (henrolled.counted.cache hname hraw)
  | unitIdle => exact henrolled
  | @unitNew name s source unit t _ _ hsource _ ih =>
      obtain ⟨hname, hescaped⟩ := henrolled.cached name source hsource
      obtain ⟨raw, hraw, rfl⟩ := Option.map_eq_some_iff.mp hescaped
      obtain ⟨ht, rfl, v, hcompiled⟩ := ih hs henrolled name raw rfl hname hraw
      exact ht.enroll hraw hcompiled
  | @apart template s code t h ih =>
      rintro _ source rfl ⟨name, hname, rfl⟩ hsource
      obtain ⟨hplain, hunbroken, hbell⟩ := htidy name source hname hsource
      obtain ⟨ht, rfl⟩ := ih hs.isolated henrolled.isolated (plain_mask_escape hplain)
      have hflags : s.view.flags.noIndent = false := by rw [hs.flags, hindents]
      have hbound : s.isolated.view.indentBound = true := by
        show (!s.view.flags.noIndent) = true
        rw [hflags]
        rfl
      have hcompiled : .compile s.isolated.view (mask source.escape) ∈ t.trace := by
        cases h with
        | text hnodes => exact hnodes.grows.trace.subset List.mem_cons_self
      rw [hbound]
      exact ⟨henrolled.merge ht h.grows.trace,
        callable_eq_unitOf henrolled.fragments hflags hplain hunbroken hbell, _, hcompiled⟩
  | embedMissing => trivial
  | embedOpen => trivial
  | embedGuarded => trivial
  | embedRepeated => trivial

/-! ## The names that nodes dispatch to -/

theorem mem_dispatches_map {ns : List Node} (hns : ∀ n ∈ ns, n.Plain P) {f : Text → Text}
    {key : Text} : key ∈ (ns.map (Node.map f)).filterMap Node.dispatches? ↔
      ∃ name indent, .reference (.named name) indent ∈ ns ∧ key = f name := by
  rw [List.mem_filterMap]
  constructor
  · rintro ⟨n, hn, hkey⟩
    obtain ⟨raw, hraw, rfl⟩ := List.mem_map.mp hn
    have hplain := hns raw hraw
    cases raw with
    | reference target indent =>
        cases target with
        | named name => exact ⟨name, indent, hraw, (Option.some.inj hkey).symm⟩
        | _ => exact hplain.elim
    | literal => cases hkey
    | «variable» => cases hkey
    | _ => exact hplain.elim
  · rintro ⟨name, indent, hmem, rfl⟩
    exact ⟨_, List.mem_map_of_mem hmem, rfl⟩

theorem mem_dispatched_escape {source : Text} (h : source.Plain P) {key : Text} :
    key ∈ source.escape.dispatched ↔
      ∃ name indent, .reference (.named name) indent ∈ source.nodes ∧ key = name.escape := by
  unfold Text.dispatched
  rw [h.nodes_escape]
  exact mem_dispatches_map fun n hn => h.node hn

theorem mem_dispatched_mask_escape {source : Text} (h : source.Plain P) {name : Text}
    {indent : Option Text} (hname : .reference (.named name) indent ∈ source.nodes) :
    mask name.escape ∈ (mask source.escape).dispatched := by
  have hescaped : source.escape.Plain fun _ => True := h.escaped fun _ _ => trivial
  have hnodes : (mask source.escape).nodes = source.escape.nodes.map (Node.map mask) :=
    inert_mask.nodes_replace hescaped
  unfold Text.dispatched
  rw [hnodes, mem_dispatches_map fun n hn => hescaped.node hn]
  refine ⟨name.escape, indent, ?_, rfl⟩
  rw [h.nodes_escape]
  exact List.mem_map_of_mem hname

theorem not_mem_defined_escape {source : Text} (h : source.Plain P) (key : Text) :
    key ∉ source.escape.defined := by
  intro hkey
  obtain ⟨n, hn, hdefines⟩ := List.mem_filterMap.mp hkey
  have hescaped : source.escape.Plain fun _ => True := h.escaped fun _ _ => trivial
  have hplain := hescaped.node hn
  cases n with
  | inlinePartial => exact hplain.elim
  | _ => cases hdefines

/-- Escaping makes no keyword and destroys none. -/
theorem word_infix_escape {s : Text} : word <:+: s.escape ↔ word <:+: s := by
  constructor
  · intro h
    induction s with
    | nil => exact h
    | cons c s ih =>
        by_cases hc : c = '\\'
        · subst hc
          have hrest : word <:+: Text.escape s :=
            Text.infix_of_infix_append (x := ['\\', '\\']) (by decide) h
          exact List.infix_cons (ih hrest)
        · have hcons : Text.escape (c :: s) = c :: Text.escape s := by simp [Text.escape, hc]
          rw [hcons] at h
          rcases List.infix_cons_iff.mp h with ⟨rest, hrest⟩ | h
          · have hafter : Text.after? word (Text.replace ['\\'] ['\\', '\\'] (c :: s)) ≠ none := by
              rw [← Text.escape_eq_replace, hcons, ← hrest, Text.after?_append]
              exact Option.some_ne_none _
            have hword := Text.after?_ne_none_of_replace (by simp) (by simp) (by decide) hafter
            obtain ⟨rest, hrest⟩ := Option.ne_none_iff_exists'.mp hword
            exact ⟨[], rest, (Text.eq_append_of_after? hrest).symm⟩
          · exact List.infix_cons (ih h)
  · rintro ⟨a, b, rfl⟩
    have hself : Text.escape word = word := by decide
    exact ⟨Text.escape a, Text.escape b, by rw [Text.escape_append, Text.escape_append, hself]⟩

/-! ## Whole compilations -/

/-- The pieces of a template, which no margin is bound in. -/
def templatePieces : List Node → List Piece
  | [] => []
  | .literal text :: ns => text.map .char ++ templatePieces ns
  | .variable name :: ns => .expr (.variable name) :: templatePieces ns
  | .reference (.named name) indent :: ns =>
      .expr (.call name false (indent.getD [])) :: templatePieces ns
  | _ :: ns => templatePieces ns

theorem rawInside_map_char (s : Text) : rawInside (s.map .char) = s.protect := by
  induction s with
  | nil => rfl
  | cons c s ih =>
      rw [List.map_cons, rawInside_cons, ih, Text.protect_cons c s]
      rfl

theorem rawInside_templatePieces (ns : List Node) :
    (ns.map (Node.map Text.escape)).flatMap (plainCode false) = rawInside (templatePieces ns) := by
  induction ns with
  | nil => rfl
  | cons n ns ih =>
      rw [List.map_cons, List.flatMap_cons, ih]
      cases n with
      | literal text =>
          rw [templatePieces, rawInside_append, rawInside_map_char]
          rfl
      | «variable» name =>
          rw [templatePieces, rawInside_cons]
          exact congrArg (· ++ _) (code_variable name).symm
      | reference target indent =>
          cases target with
          | named name =>
              rw [templatePieces, rawInside_cons]
              cases indent <;> rfl
          | _ => rfl
      | _ => rfl

/-- The code of a template and the dispatch table in terms of the texts as they were written. A
name that is called has a unit if it is found, but one with the keyword only if the template
refers to it. -/
structure Linked (fs : FileSystem) (c : Context) (P : Text → Prop) (template : Text)
    (o : Outcome) : Prop where
  code : o.code = rawInside (templatePieces template.nodes)
  unit : ∀ name entry, o.table.get? name = some entry → ∃ source,
    c.rawSource? fs name = some source ∧ entry = tableEntry name (unitOf source)
  start : ∀ (name : Text) indent, .reference (.named name) indent ∈ template.nodes →
    c.rawSource? fs name.escape ≠ none → name.escape ∈ o.table
  called : ∀ caller source (name : Text) indent, P caller → caller.escape ∈ o.table →
    c.rawSource? fs caller.escape = some source → .reference (.named name) indent ∈ source.nodes →
    ¬ word <:+: name → c.rawSource? fs name.escape ≠ none → name.escape ∈ o.table
  keyword : ∀ name : Text, word <:+: name → name.escape ∈ o.table →
    ∃ indent, .reference (.named name) indent ∈ template.nodes

theorem enrolled_initial (fs : FileSystem) {options : Options}
    (hfragments : options.fragments = .standard) :
    Enrolled fs (Context.start options none fs) P (Compilation.initial options none fs) :=
  ⟨hfragments, fun _ _ h => (nomatch h), fun _ _ h => (nomatch h), by rfl⟩

theorem exists_linked (fs : FileSystem) {options : Options} {template : Text}
    (hruntime : options.flags.runtime = true) (hindents : options.flags.noIndent = false)
    (hfragments : options.fragments = .standard)
    (htidy : TidySources fs (Context.start options none fs) P) (htemplate : template.Plain P) :
    ∃ outcome, compile fs options none template = some outcome ∧
      Linked fs (Context.start options none fs) P template outcome := by
  obtain ⟨code, middle, final, hrun, hcompiles⟩ := exists_compiles fs options template
  have hs := dispatching_initial fs hruntime
  have hsought : template.escape.Plain (Sought P) := htemplate.escaped fun name h => ⟨name, .inl h, rfl⟩
  obtain ⟨henrolled, hcode⟩ :=
    hcompiles.runs.enrolls htidy hindents hs (enrolled_initial fs hfragments) hsought
  have hpreloaded : preloaded middle.view = [] := by
    unfold preloaded
    rw [if_neg (not_not.mpr henrolled.undynamic)]
  have hdone := hcompiles.done hruntime
  have hreads := hcompiles.reads
  rw [hpreloaded] at hreads hdone
  obtain rfl : final = middle := by
    cases hreads
    rfl
  refine ⟨Outcome.ofRun (code, final), by unfold compile; rw [hrun]; rfl, ?_, ?_, ?_, ?_, ?_⟩
  · rw [← rawInside_templatePieces, ← htemplate.nodes_escape]
    exact hcode
  · intro name entry hentry
    obtain ⟨source, -, hsource, hunit, -⟩ := henrolled.table name entry hentry
    exact ⟨source, hsource, hunit⟩
  · intro name indent hname hsource
    have hdispatched := (mem_dispatched_escape htemplate).mpr ⟨name, indent, hname, rfl⟩
    exact hdone.mem_table_of_looked (hdone.looked hdone.handed_template hdispatched) hsource
  · intro caller source name indent hcaller htable hsource hname hword hfound
    obtain ⟨entry, hentry⟩ := OrderedMap.mem_iff_exists_get?.mp htable
    obtain ⟨source', v, hsource', -, hcompiled⟩ := henrolled.table _ entry hentry
    obtain rfl := Option.some.inj (hsource.symm.trans hsource')
    have hplain := (htidy caller source (.inl hcaller) hsource).1
    have hdispatched := mem_dispatched_mask_escape hplain hname
    rw [mask_of_not_isInfix (word_infix_escape.not.mpr hword)] at hdispatched
    exact hdone.mem_table_of_looked (hdone.looked ⟨v, hcompiled⟩ hdispatched) hfound
  · intro name hword htable
    have hescaped := word_infix_escape.mpr hword
    rcases (hdone.gains.table _ htable).resolve_left (OrderedMap.not_mem_empty _) with hplain | hfound
    · exact absurd hescaped hplain
    · rcases hfound with hdefined | ⟨-, hname | hname⟩
      · exact absurd hdefined (not_mem_defined_escape htemplate _)
      · obtain ⟨other, indent, hmem, heq⟩ := (mem_dispatched_escape htemplate).mp hname
        obtain rfl := Text.escape_injective heq
        exact ⟨indent, hmem⟩
      · cases hname

end

end Handlebars

end Inlay
