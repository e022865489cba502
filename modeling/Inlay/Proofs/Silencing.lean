import Inlay.Proofs.Frame

/-!
# Switches that only silence

Skipping missing partials and allowing names known at render time change
nothing but the diagnostics. The state of a compilation where they are
switched on is the state without them, with the diagnostics of two kinds
taken out, and every computation leads from such a state to such a state.
That diagnostics are looked up and counted on the way does not matter: a
missing partial is looked up only to report it once, and a copy is merged
back by what it adds.
-/

namespace Inlay

/-! ## Silenced states -/

/-- The diagnostic is kept when missing partials are skipped and when dynamic names are
allowed. Where partials are dispatched, no dynamic name is reported. -/
def Diagnostic.isKept (skip allow runtime : Bool) : Diagnostic → Bool
  | .missingPartial _ => !skip
  | .dynamicName _ => !(allow && !runtime)
  | _ => true

/-- The switches with two more switched on. -/
def Flags.silenced (skip allow : Bool) (f : Flags) : Flags :=
  { f with
    skipMissing := f.skipMissing || skip
    allowDynamicNames := f.allowDynamicNames || allow }

/-- The options with the two switches set. -/
def Options.switched (o : Options) (skip allow : Bool) : Options :=
  { o with flags := { o.flags with skipMissing := skip, allowDynamicNames := allow } }

namespace View

/-- The view where the two switches are on, with the diagnostics that are kept then. -/
def silenced (skip allow : Bool) (v : View) : View :=
  { v with
    flags := v.flags.silenced skip allow
    diagnostics := v.diagnostics.filter (Diagnostic.isKept skip allow v.flags.runtime) }

variable {skip allow : Bool} {v copy : View}

theorem silenced_report {d : Diagnostic} (hd : d.isKept skip allow v.flags.runtime = true) :
    (v.report d).silenced skip allow = (v.silenced skip allow).report d := by
  unfold report silenced
  simp only [List.filter_append, List.filter_cons_of_pos hd, List.filter_nil]

theorem silenced_report_of_not {d : Diagnostic}
    (hd : d.isKept skip allow v.flags.runtime = false) :
    (v.report d).silenced skip allow = v.silenced skip allow := by
  have hd : ¬ d.isKept skip allow v.flags.runtime = true := by simp [hd]
  unfold report silenced
  simp only [List.filter_append, List.filter_cons_of_neg hd, List.filter_nil, List.append_nil]

/-- What a copy adds is silenced on its own. -/
theorem silenced_merge (h : v.diagnostics <+: copy.diagnostics)
    (hruntime : copy.flags.runtime = v.flags.runtime) :
    (v.merge copy).silenced skip allow = (v.silenced skip allow).merge (copy.silenced skip allow) := by
  obtain ⟨added, hadded⟩ := h
  unfold merge silenced
  simp only [← hadded, hruntime, List.drop_left, List.filter_append]

end View

def Event.silenced (skip allow : Bool) : Event → Event
  | .preprocess v source name => .preprocess (v.silenced skip allow) source name
  | .compile v source => .compile (v.silenced skip allow) source

namespace Compilation

/-- The state where the two switches are on, with the diagnostics that are kept then. -/
def silenced (skip allow : Bool) (s : Compilation) : Compilation where
  context := { s.context with toView := s.context.toView.silenced skip allow }
  trace := s.trace.map (Event.silenced skip allow)

variable {skip allow : Bool} (s : Compilation)

theorem silenced_emit (source : Text) :
    (s.emit (.compile s.view source)).silenced skip allow =
      (s.silenced skip allow).emit (.compile (s.silenced skip allow).view source) := rfl

theorem silenced_counted (name : Text) :
    (s.counted name).silenced skip allow = (s.silenced skip allow).counted name := rfl

theorem silenced_cache (name target source : Text) :
    (s.cache name target source).silenced skip allow =
      (s.silenced skip allow).cache name target source := rfl

theorem silenced_enter (name : Text) :
    (s.enter name).silenced skip allow = (s.silenced skip allow).enter name := rfl

theorem silenced_isolated :
    s.isolated.silenced skip allow = (s.silenced skip allow).isolated := rfl

theorem silenced_preprocessed (source name : Text) :
    (s.preprocessed source name).silenced skip allow =
      (s.silenced skip allow).preprocessed source name := by
  have hhook : (s.silenced skip allow).context.hook = s.context.hook := rfl
  unfold preprocessed
  rw [hhook]
  split <;> rfl

theorem silenced_report {d : Diagnostic}
    (hd : d.isKept skip allow s.view.flags.runtime = true) :
    (s.mapView (·.report d)).silenced skip allow =
      (s.silenced skip allow).mapView (·.report d) := by
  have hview := View.silenced_report hd
  unfold mapView silenced
  rw [hview]

theorem silenced_report_of_not {d : Diagnostic}
    (hd : d.isKept skip allow s.view.flags.runtime = false) :
    (s.mapView (·.report d)).silenced skip allow = s.silenced skip allow := by
  have hview := View.silenced_report_of_not hd
  unfold mapView silenced
  rw [hview]

theorem silenced_missed (name : Text) :
    (s.missed name).silenced skip allow = (s.silenced skip allow).missed name := by
  have hflag : (s.silenced skip allow).view.flags.skipMissing =
      (s.view.flags.skipMissing || skip) := rfl
  unfold missed
  rw [hflag]
  cases hskip : s.view.flags.skipMissing with
  | true => rfl
  | false =>
      cases skip with
      | true => exact silenced_report_of_not s rfl
      | false => exact silenced_report s rfl

/-- A diagnostic that is kept is there before and after. -/
theorem mem_silenced {d : Diagnostic} (hd : d.isKept skip allow s.view.flags.runtime = true) :
    d ∈ (s.silenced skip allow).view.diagnostics ↔ d ∈ s.view.diagnostics := by
  show d ∈ s.view.diagnostics.filter _ ↔ _
  rw [List.mem_filter, and_iff_left hd]

theorem silenced_missedOnce (name : Text) :
    (s.missedOnce name).silenced skip allow = (s.silenced skip allow).missedOnce name := by
  have hflag : (s.silenced skip allow).view.flags.skipMissing =
      (s.view.flags.skipMissing || skip) := rfl
  unfold missedOnce
  rw [hflag]
  cases hskip : s.view.flags.skipMissing with
  | true => rfl
  | false =>
      cases skip with
      | true =>
          simp only [Bool.false_or, Bool.not_true, Bool.false_and, Bool.false_eq_true, if_false]
          split
          · exact silenced_report_of_not s rfl
          · rfl
      | false =>
          have hkept : (Diagnostic.missingPartial name).isKept false allow s.view.flags.runtime =
              true := rfl
          simp only [s.mem_silenced hkept, Bool.or_false]
          split
          · exact silenced_report s hkept
          · rfl

theorem silenced_dynamicNoted (expr : Text) :
    (Handlebars.dynamicNoted expr s).silenced skip allow =
      Handlebars.dynamicNoted expr (s.silenced skip allow) := by
  have hruntime : (s.silenced skip allow).view.flags.runtime = s.view.flags.runtime := rfl
  have hallow : (s.silenced skip allow).view.flags.allowDynamicNames =
      (s.view.flags.allowDynamicNames || allow) := rfl
  unfold Handlebars.dynamicNoted
  rw [hruntime, hallow]
  cases hr : s.view.flags.runtime with
  | true => rfl
  | false =>
      cases s.view.flags.allowDynamicNames with
      | true => rfl
      | false =>
          have hkept : (Diagnostic.dynamicName expr).isKept skip allow s.view.flags.runtime =
              !allow := by simp [Diagnostic.isKept, hr]
          cases allow with
          | true => exact silenced_report_of_not s hkept
          | false => exact silenced_report s hkept

theorem silenced_inlineNoted (name source : Text) :
    (Handlebars.inlineNoted name source s).silenced skip allow =
      Handlebars.inlineNoted name source (s.silenced skip allow) := rfl

theorem silenced_closeChecked (name : Text) (closed : Bool) :
    (Handlebars.closeChecked name closed s).silenced skip allow =
      Handlebars.closeChecked name closed (s.silenced skip allow) := by
  cases closed with
  | true => rfl
  | false => exact silenced_report s rfl

/-- A copy is merged back as it is without the switches. -/
theorem silenced_merge {t : Compilation} (h : s.isolated.Grows t)
    (hruntime : t.view.flags.runtime = s.view.flags.runtime) :
    (s.merge t).silenced skip allow = (s.silenced skip allow).merge (t.silenced skip allow) := by
  have hview : (s.view.merge t.view).silenced skip allow =
      (s.view.silenced skip allow).merge (t.view.silenced skip allow) :=
    View.silenced_merge h.diagnostics hruntime
  unfold merge silenced Context.merge
  exact congrArg (fun v => Compilation.mk { s.context with toView := v } _) hview

end Compilation

/-! ## Computations that commute with silencing -/

/-- The preprocessing does not look at the context. -/
def Hook.Blind (hook : Hook) : Prop :=
  ∀ (v w : View) (source name : Text), hook v source name = hook w source name

/-- The state has no preprocessing that looks at the context. -/
def Compilation.Blind (s : Compilation) : Prop :=
  ∀ hook ∈ s.context.hook, hook.Blind

theorem Compilation.Blind.of_scope {s t : Compilation} (hs : s.Blind) (h : t.scope = s.scope) :
    t.Blind := by
  have hhook : t.context.hook = s.context.hook := congrArg (fun c => c.hook) h
  unfold Compilation.Blind
  rw [hhook]
  exact hs

theorem Compilation.Blind.preprocess_silenced {s : Compilation} (hs : s.Blind) (skip allow : Bool)
    (source name : Text) :
    (s.silenced skip allow).context.preprocess source name = s.context.preprocess source name := by
  have hhook : (s.silenced skip allow).context.hook = s.context.hook := rfl
  unfold Context.preprocess
  rw [hhook]
  cases hfound : s.context.hook with
  | none => rfl
  | some hook => exact hs hook hfound _ _ _ _

section Commuting

variable {α : Type} (skip allow : Bool)

def silencedResult (r : α × Compilation) : α × Compilation :=
  (r.1, r.2.silenced skip allow)

/-- From a silenced state, the computation gives what it gives from the state, silenced. -/
def Commutes (fs : FileSystem) (x : CompileM α) : Prop :=
  ∀ s : Compilation, s.Blind →
    x fs (s.silenced skip allow) = (x fs s).map (silencedResult skip allow)

end Commuting

/-- What follows a computation is silenced with it. -/
theorem bind_silenced {α β : Type} {skip allow : Bool} {x y : Option (α × Compilation)}
    {f g : α × Compilation → Option (β × Compilation)}
    (hx : y = x.map (silencedResult skip allow))
    (hf : ∀ r, x = some r → g (silencedResult skip allow r) = (f r).map (silencedResult skip allow)) :
    y.bind g = (x.bind f).map (silencedResult skip allow) := by
  cases x with
  | none =>
      rw [hx]
      rfl
  | some r =>
      rw [hx]
      exact hf r rfl

theorem map_silenced {α β : Type} {skip allow : Bool} {x y : Option (α × Compilation)}
    {f g : α × Compilation → β × Compilation} (hx : y = x.map (silencedResult skip allow))
    (hf : ∀ r, x = some r → g (silencedResult skip allow r) = silencedResult skip allow (f r)) :
    y.map g = (x.map f).map (silencedResult skip allow) := by
  cases x with
  | none =>
      rw [hx]
      rfl
  | some r =>
      rw [hx]
      exact congrArg some (hf r rfl)

/-! ## Compilations -/

namespace Handlebars

/-- The host commutes with silencing, and its results are runs. -/
structure Silenceable (skip allow : Bool) (fs : FileSystem) (host : Host) : Prop where
  commutes : ∀ source, Commutes skip allow fs (host source)
  sound : Sound fs host

namespace Silenceable

variable {skip allow : Bool} {fs : FileSystem} {self : Host} (h : Silenceable skip allow fs self)

include h

theorem compile (source : Text) : Commutes skip allow fs (self.compile source) := by
  intro s hs
  rw [compile_apply, compile_apply, ← s.silenced_emit source]
  exact h.commutes source _ hs

theorem apart (template : Text) : Commutes skip allow fs (compileLocal self template) := by
  intro s hs
  rw [compileLocal_apply, compileLocal_apply, ← s.silenced_isolated]
  refine map_silenced (h.compile _ _ hs) fun r hr => ?_
  have hrun := h.sound.runs_text hr
  -- merging drops the diagnostics that the copy began with, and these are silenced too
  have hruntime : r.2.view.flags.runtime = s.view.flags.runtime :=
    congrArg Flags.runtime hrun.flags_eq
  show (_, _) = (_, _)
  rw [s.silenced_merge hrun.grows hruntime]
  rfl

theorem unit (name : Text) : Commutes skip allow fs (compileUnit self name) := by
  intro s hs
  rw [compileUnit_apply, compileUnit_apply]
  have htable : (s.silenced skip allow).view.table = s.view.table := rfl
  have hruntime : (s.silenced skip allow).view.flags.runtime = s.view.flags.runtime := rfl
  have hcached : (s.silenced skip allow).view.cached = s.view.cached := rfl
  rw [htable, hruntime, hcached]
  split
  · rfl
  · cases s.view.cached.get? name with
    | none => rfl
    | some source => exact map_silenced (h.apart source s hs) fun _ _ => rfl

theorem read (name : Text) : Commutes skip allow fs (readPartial self name) := by
  intro s hs
  rw [readPartial_apply, readPartial_apply, ← s.silenced_counted]
  have hs : (s.counted Counter.references).Blind := hs
  generalize s.counted Counter.references = s at hs ⊢
  unfold readCounted
  have hresolved : (s.silenced skip allow).view.resolvedName name = s.view.resolvedName name := rfl
  have hcached : (s.silenced skip allow).view.cached = s.view.cached := rfl
  have hraw : (s.silenced skip allow).context.rawSource? fs name = s.context.rawSource? fs name := rfl
  rw [hresolved, hcached, hraw]
  split
  · rfl
  · cases s.context.rawSource? fs name with
    | none =>
        rw [← s.silenced_missed]
        rfl
    | some raw =>
        simp only [hs.preprocess_silenced, ← s.silenced_preprocessed, ← Compilation.silenced_cache]
        refine h.unit _ _ ?_
        exact hs.of_scope (by rw [Compilation.scope_cache, Compilation.scope_preprocessed])

theorem embed (requested : Text) : Commutes skip allow fs (embed self requested) := by
  intro s hs
  rw [embed_apply, embed_apply]
  have hresolved : (s.silenced skip allow).view.resolvedName requested =
      s.view.resolvedName requested := rfl
  rw [hresolved]
  generalize s.view.resolvedName requested = name
  unfold embedResolved
  have hcached : (s.silenced skip allow).view.cached = s.view.cached := rfl
  have hruntime : (s.silenced skip allow).view.flags.runtime = s.view.flags.runtime := rfl
  have hchain : (s.silenced skip allow).view.chain = s.view.chain := rfl
  rw [hcached, hruntime, hchain]
  cases s.view.cached.get? name with
  | none =>
      simp only [← s.silenced_missedOnce]
      rfl
  | some source =>
      simp only
      split
      · exact h.compile _ s hs
      · split
        · rw [← s.silenced_enter]
          exact map_silenced (h.compile _ (s.enter name) hs) fun _ _ => rfl
        · -- no switch silences a recursion
          have hkept : (Diagnostic.recursivePartial (name :: s.view.chain).reverse).isKept skip
              allow s.view.flags.runtime = true := rfl
          rw [← s.silenced_report hkept]
          rfl

omit h in
theorem withLineIndent (indent : Text) {body : CompileM Text} (hbody : Commutes skip allow fs body) :
    Commutes skip allow fs (withLineIndent indent body) := by
  intro s hs
  rw [withLineIndent_apply, withLineIndent_apply]
  exact map_silenced (hbody (atIndent indent s) hs) fun _ _ => rfl

theorem enclosingBlock (indent : Option Text) :
    Commutes skip allow fs (enclosingBlock self indent) := by
  intro s hs
  rw [enclosingBlock_apply, enclosingBlock_apply]
  have hblocks : (s.silenced skip allow).view.blocks = s.view.blocks := rfl
  have hruntime : (s.silenced skip allow).view.flags.runtime = s.view.flags.runtime := rfl
  rw [hblocks, hruntime]
  cases s.view.blocks with
  | nil =>
      simp only
      split
      · rfl
      · rw [← s.silenced_report (d := .noEnclosingBlock) rfl]
        rfl
  | cons body outer => exact map_silenced (h.compile _ (inBlocks outer s) hs) fun _ _ => rfl

theorem namedReference (name : Text) (indent : Option Text) :
    Commutes skip allow fs (namedReference self name indent) := by
  intro s hs
  rw [namedReference_apply, namedReference_apply]
  refine bind_silenced (h.read name s hs) fun r hr => ?_
  have hrun := h.sound.runs_read hr
  have hresolved : (silencedResult skip allow r).2.view.resolvedName name =
      r.2.view.resolvedName name := rfl
  have hruntime : (silencedResult skip allow r).2.view.flags.runtime = r.2.view.flags.runtime := rfl
  rw [hresolved, hruntime]
  split
  · rfl
  · exact h.embed _ r.2 (hs.of_scope hrun.scope_eq)

omit h in
theorem dynamicReference (expr : Text) (indent : Option Text) :
    Commutes skip allow fs (dynamicReference expr indent) := by
  intro s _
  rw [dynamicReference_apply, dynamicReference_apply, ← s.silenced_counted]
  generalize s.counted Counter.dynamicReferences = s
  rw [← s.silenced_dynamicNoted]
  rfl

theorem reference (target : Reference) (indent : Option Text) :
    Commutes skip allow fs (reference self target indent) := by
  refine withLineIndent _ ?_
  cases target with
  | named name => exact h.namedReference name indent
  | dynamic expr => exact dynamicReference expr indent
  | block => exact h.enclosingBlock indent

theorem embedWithBlock (target body : Text) :
    Commutes skip allow fs (embedWithBlock self target body) := by
  intro s hs
  rw [embedWithBlock_apply, embedWithBlock_apply]
  exact map_silenced (h.embed target (inBlocks (body :: s.view.blocks) s) hs) fun _ _ => rfl

theorem partialBlock (name body : Text) :
    Commutes skip allow fs (partialBlock self name body) := by
  intro s hs
  rw [partialBlock_apply, partialBlock_apply]
  have hindent : (atIndent [] s).Blind := hs
  refine map_silenced (bind_silenced (h.read name _ hindent) fun r hr => ?_) fun _ _ => rfl
  have hr' : r.2.Blind := hindent.of_scope (h.sound.runs_read hr).scope_eq
  show blockRead self fs (r.2.silenced skip allow) name body = _
  have hresolved : (r.2.silenced skip allow).view.resolvedName name =
      r.2.view.resolvedName name := rfl
  have hruntime : (r.2.silenced skip allow).view.flags.runtime = r.2.view.flags.runtime := rfl
  unfold blockRead
  rw [hresolved, hruntime]
  split
  · exact map_silenced (h.apart body r.2 hr') fun _ _ => rfl
  · exact h.embedWithBlock _ body r.2 hr'

theorem defineInline (name body : Text) :
    Commutes skip allow fs (defineInline self name body) := by
  intro s hs
  rw [defineInline_apply, defineInline_apply, ← s.silenced_inlineNoted]
  have hs : (inlineNoted name (Keyword.unmask body) s).Blind := hs
  generalize inlineNoted name (Keyword.unmask body) s = s at hs ⊢
  have hcached : (s.silenced skip allow).view.cached = s.view.cached := rfl
  unfold defineNoted
  rw [hcached]
  split
  · rfl
  · exact map_silenced (h.unit name (inlineCached name (Keyword.unmask body) s) hs) fun _ _ => rfl

omit h in
theorem checkClosed (name : Text) (closed : Bool) :
    Commutes skip allow fs (checkClosed name closed) := by
  intro s _
  rw [checkClosed_apply, checkClosed_apply, ← s.silenced_closeChecked]
  rfl

theorem node (n : Node) : Commutes skip allow fs (node self n) := by
  intro s hs
  cases n with
  | literal text => rfl
  | «variable» name => rfl
  | reference target indent => exact h.reference target indent s hs
  | block name body closed =>
      refine bind_silenced (checkClosed name closed s hs) fun r hr => ?_
      obtain rfl := Option.some.inj (checkClosed_apply fs s name closed ▸ hr)
      exact h.partialBlock name body _ (hs.of_scope (scope_closeChecked name closed s))
  | inlinePartial name body closed =>
      refine bind_silenced (checkClosed "inline".toList closed s hs) fun r hr => ?_
      obtain rfl := Option.some.inj (checkClosed_apply fs s "inline".toList closed ▸ hr)
      have hs := hs.of_scope (scope_closeChecked "inline".toList closed s)
      exact bind_silenced (h.defineInline name body _ hs) fun _ _ => rfl
  | strayClose name =>
      show some ([], (s.silenced skip allow).mapView (·.report (.unexpectedClose name))) = _
      rw [← s.silenced_report (d := .unexpectedClose name) rfl]
      rfl

theorem nodes (ns : List Node) : Commutes skip allow fs (nodes self ns) := by
  induction ns with
  | nil => exact fun _ _ => rfl
  | cons n ns ih =>
      intro s hs
      rw [nodes_cons_apply, nodes_cons_apply]
      refine bind_silenced (h.node n s hs) fun r hr => ?_
      have hr : r.2.Blind := hs.of_scope (h.sound.runs_node hr).scope_eq
      exact map_silenced (ih r.2 hr) fun _ _ => rfl

theorem readAll (names : List Text) : Commutes skip allow fs (readAll self names) := by
  induction names with
  | nil => exact fun _ _ => rfl
  | cons name names ih =>
      intro s hs
      rw [readAll_cons_apply, readAll_cons_apply]
      refine bind_silenced (h.read name s hs) fun r hr => ?_
      exact ih r.2 (hs.of_scope (h.sound.runs_read hr).scope_eq)

/-- One compilation is the other, silenced. -/
theorem runWith {options : Options} {hook : Option Hook} (hhook : ∀ f ∈ hook, f.Blind)
    (source : Text) {skip₀ allow₀ : Bool} :
    runWith self fs (options.switched (skip₀ || skip) (allow₀ || allow)) hook source =
      (runWith self fs (options.switched skip₀ allow₀) hook source).map
        (silencedResult skip allow) := by
  have hinitial : Compilation.initial (options.switched (skip₀ || skip) (allow₀ || allow)) hook fs =
      (Compilation.initial (options.switched skip₀ allow₀) hook fs).silenced skip allow := rfl
  have hblind : (Compilation.initial (options.switched skip₀ allow₀) hook fs).Blind := hhook
  rw [runWith_apply, runWith_apply, hinitial]
  refine bind_silenced (h.compile _ _ hblind) fun r hr => ?_
  have hr : r.2.Blind := hblind.of_scope (h.sound.runs_text hr).scope_eq
  have hpreloaded : preloaded (r.2.silenced skip allow).view = preloaded r.2.view := rfl
  rw [preload_apply, preload_apply]
  show (Inlay.readAll self (preloaded (r.2.silenced skip allow).view) fs _).map _ = _
  rw [hpreloaded]
  exact map_silenced (h.readAll _ r.2 hr) fun _ _ => rfl

end Silenceable

theorem silenceable_host (skip allow : Bool) (fs : FileSystem) (depth : Nat) :
    Silenceable skip allow fs (host depth) := by
  induction depth with
  | zero => exact ⟨fun _ _ _ => rfl, sound_host fs 0⟩
  | succ depth ih => exact ⟨fun source => ih.nodes source.nodes, sound_host fs (depth + 1)⟩

end Handlebars

/-! ## Outcomes -/

/-- The outcome without the diagnostics that the switches silence. -/
def Outcome.silenced (skip allow runtime : Bool) (o : Outcome) : Outcome :=
  { o with diagnostics := o.diagnostics.filter (Diagnostic.isKept skip allow runtime) }

def Outcome.unreported (o : Outcome) : Outcome :=
  { o with diagnostics := [] }

/-- The outcomes for the settings of the two switches have the same code, dispatch table,
sources and counters, and a switch that is on takes its diagnostics out of those that are
there when it is off. -/
structure OnlySilences (runtime : Bool) (outcome : Bool → Bool → Option Outcome) : Prop where
  unreported : ∀ skip allow skip' allow',
    (outcome skip allow).map Outcome.unreported = (outcome skip' allow').map Outcome.unreported
  skipMissing : ∀ allow,
    outcome true allow = (outcome false allow).map (Outcome.silenced true false runtime)
  allowDynamicNames : ∀ skip,
    outcome skip true = (outcome skip false).map (Outcome.silenced false true runtime)

theorem OnlySilences.of_or {runtime : Bool} {outcome : Bool → Bool → Option Outcome}
    (h : ∀ skip allow skip₀ allow₀, outcome (skip₀ || skip) (allow₀ || allow) =
      (outcome skip₀ allow₀).map (Outcome.silenced skip allow runtime)) :
    OnlySilences runtime outcome where
  unreported skip allow skip' allow' := by
    have hbase : ∀ skip allow, (outcome skip allow).map Outcome.unreported =
        (outcome false false).map Outcome.unreported := by
      intro skip allow
      have hsilenced := h skip allow false false
      rw [Bool.false_or, Bool.false_or] at hsilenced
      rw [hsilenced, Option.map_map]
      rfl
    rw [hbase, hbase skip']
  skipMissing allow := by simpa using h true false false allow
  allowDynamicNames skip := by simpa using h false true skip false

namespace Handlebars

theorem compileWith_switched {host : Host} {fs : FileSystem}
    (h : ∀ skip allow, Silenceable skip allow fs host) {options : Options} {hook : Option Hook}
    (hhook : ∀ f ∈ hook, f.Blind) (source : Text) :
    OnlySilences options.flags.runtime fun skip allow =>
      compileWith host fs (options.switched skip allow) hook source := by
  refine .of_or fun skip allow skip₀ allow₀ => ?_
  unfold compileWith
  rw [(h skip allow).runWith hhook]
  cases hrun : runWith host fs (options.switched skip₀ allow₀) hook source with
  | none => rfl
  | some r =>
      obtain ⟨middle, hcompiles⟩ := (h skip allow).sound.compiles hrun
      have hruntime : r.2.view.flags.runtime = options.flags.runtime :=
        congrArg (fun c => c.flags.runtime) hcompiles.scope_eq
      have hkept : ((r.2.silenced skip allow).view.diagnostics) =
          r.2.view.diagnostics.filter (Diagnostic.isKept skip allow options.flags.runtime) :=
        congrArg (fun b => r.2.view.diagnostics.filter (Diagnostic.isKept skip allow b)) hruntime
      exact congrArg (fun l => some { Outcome.ofRun r with diagnostics := l }) hkept

theorem nestingBound_switched (fs : FileSystem) (options : Options) (hook : Option Hook)
    (source : Text) (skip allow : Bool) :
    nestingBound fs (Context.start (options.switched skip allow) hook fs).toView source =
      nestingBound fs (Context.start options hook fs).toView source := by
  have hweight : weight fs (Context.start (options.switched skip allow) hook fs).toView source =
      weight fs (Context.start options hook fs).toView source := rfl
  unfold nestingBound
  rw [hweight]

/-- Skipping missing partials and allowing names known at render time only take
diagnostics away, however deep the host may nest. -/
theorem switches_only_silence (fs : FileSystem) (options : Options) (hook : Option Hook)
    (hhook : ∀ f ∈ hook, f.Blind) (source : Text) :
    (∀ depth, OnlySilences options.flags.runtime fun skip allow =>
      compileWith (host depth) fs (options.switched skip allow) hook source) ∧
    OnlySilences options.flags.runtime fun skip allow =>
      compile fs (options.switched skip allow) hook source := by
  have hdepth : ∀ depth, OnlySilences options.flags.runtime fun skip allow =>
      compileWith (host depth) fs (options.switched skip allow) hook source := fun depth =>
    compileWith_switched (fun skip allow => silenceable_host skip allow fs depth) hhook source
  refine ⟨hdepth, ?_⟩
  unfold compile run standardHost
  simp only [nestingBound_switched]
  exact hdepth _

/-- A template that refers to `a`, to a partial that is missing, and to one by an expression. -/
def gapTemplate : Text :=
  "\x7b\x7b> a\x7d\x7d\x7b\x7b> b\x7d\x7d\x7b\x7b> (x)\x7d\x7d".toList

def gapOptions : Options :=
  { Options.standard with partials := .ofList [("a".toList, "A".toList)] }

def pluralize : Hook := fun _ source name => (source, name ++ ['s'])

theorem switches_only_silence_pluralized :
    (∀ f ∈ some pluralize, f.Blind) ∧
    OnlySilences false (fun skip allow =>
      compile (.emptyAt ['/']) (gapOptions.switched skip allow) (some pluralize) gapTemplate) ∧
    (compile (.emptyAt ['/']) (gapOptions.switched false false) (some pluralize) gapTemplate).map
      (fun o => o.diagnostics) = some [.missingPartial "b".toList, .dynamicName "x".toList] := by
  have hblind : ∀ f ∈ some pluralize, f.Blind := by
    rintro _ ⟨⟩ _ _ _ _
    rfl
  exact ⟨hblind,
    (switches_only_silence (.emptyAt ['/']) gapOptions (some pluralize) hblind gapTemplate).2,
    by decide +kernel⟩

end Handlebars

end Inlay
