import Inlay.Compile

/-!
# What a compilation does from a given state

One equation for each computation: its result and the state that it ends in,
in terms of the state that it starts in. Later proofs use these equations and
do not open the computations again.
-/

namespace Inlay

namespace Compilation

/-- The view of the context. -/
abbrev view (s : Compilation) : View :=
  s.context.toView

/-- The state with its view changed. -/
def mapView (f : View → View) (s : Compilation) : Compilation :=
  { s with context := { s.context with toView := f s.context.toView } }

/-- The state after a call. -/
def emit (e : Event) (s : Compilation) : Compilation :=
  { s with trace := e :: s.trace }

/-- The state that a nested compilation starts in. -/
def isolated (s : Compilation) : Compilation :=
  { s with context := s.context.isolated }

/-- The state after a nested compilation. -/
def merge (s copy : Compilation) : Compilation :=
  { copy with context := s.context.merge copy.context }

@[simp] theorem toView_mapView (f : View → View) (s : Compilation) :
    (s.mapView f).context.toView = f s.context.toView := rfl

@[simp] theorem hook_mapView (f : View → View) (s : Compilation) :
    (s.mapView f).context.hook = s.context.hook := rfl

@[simp] theorem trace_mapView (f : View → View) (s : Compilation) :
    (s.mapView f).trace = s.trace := rfl

@[simp] theorem context_emit (e : Event) (s : Compilation) :
    (s.emit e).context = s.context := rfl

@[simp] theorem trace_emit (e : Event) (s : Compilation) :
    (s.emit e).trace = e :: s.trace := rfl

@[simp] theorem mapView_mapView (f g : View → View) (s : Compilation) :
    (s.mapView f).mapView g = s.mapView (g ∘ f) := rfl

end Compilation

namespace CompileM

variable {α β : Type} (fs : FileSystem) (s : Compilation)

@[simp] theorem bind_apply (x : CompileM α) (f : α → CompileM β) :
    (x >>= f) fs s = (x fs s).bind fun r => f r.1 fs r.2 := rfl

@[simp] theorem pure_apply (a : α) : (pure a : CompileM α) fs s = some (a, s) := rfl

@[simp] theorem ite_apply (p : Prop) [Decidable p] (x y : CompileM α) :
    (if p then x else y) fs s = if p then x fs s else y fs s := by
  split <;> rfl

@[simp] theorem read_apply : (read : CompileM FileSystem) fs s = some (fs, s) := rfl

@[simp] theorem fail_apply : (fail : CompileM α) fs s = none := rfl

@[simp] theorem context_apply : context fs s = some (s.context, s) := rfl

@[simp] theorem view_apply : view fs s = some (s.view, s) := rfl

@[simp] theorem setContext_apply (c : Context) :
    setContext c fs s = some ((), { s with context := c }) := rfl

@[simp] theorem modifyView_apply (f : View → View) :
    modifyView f fs s = some ((), s.mapView f) := rfl

@[simp] theorem emit_apply (e : Event) : emit e fs s = some ((), s.emit e) := rfl

@[simp] theorem report_apply (d : Diagnostic) :
    report d fs s = some ((), s.mapView (·.report d)) := rfl

@[simp] theorem countOne_apply (name : Text) :
    countOne name fs s = some ((), s.mapView (·.countOne name)) := rfl

end CompileM

section Compiling

variable (host : Host) (fs : FileSystem) (s : Compilation)

theorem compile_apply (source : Text) :
    host.compile source fs s = host source fs (s.emit (.compile s.view source)) := rfl

/-- The callable that a nested compilation makes of its code. -/
def callable (v : View) (code : Text) : Text :=
  if v.flags.noIndent then Callable.define v.fragments [] (Keyword.unmask code)
  else Callable.define v.fragments (", ".toList ++ Callable.indentParameter)
    (Keyword.unmask (Callable.threadIndent v.fragments code))

theorem compileLocal_apply (template : Text) :
    compileLocal host template fs s =
      (host.compile (Keyword.mask template) fs s.isolated).map fun r =>
        (callable s.view r.1, s.merge r.2) := by
  simp only [compileLocal, CompileM.bind_apply, CompileM.context_apply, Option.bind_some,
    CompileM.setContext_apply, CompileM.ite_apply, CompileM.pure_apply]
  show (host.compile (Keyword.mask template) fs s.isolated).bind _ = _
  cases host.compile (Keyword.mask template) fs s.isolated with
  | none => rfl
  | some r =>
      simp only [Option.bind_some, Option.map_some, callable]
      split <;> simp_all [Compilation.merge, Context.merge, View.merge]

/-- The state after a unit is entered in the dispatch table. -/
def Compilation.enroll (name unit : Text) (s : Compilation) : Compilation :=
  s.mapView fun v => { v with table := v.table.insertIfNew name (tableEntry name unit) }

theorem compileUnit_apply (name : Text) :
    compileUnit host name fs s =
      if !s.view.flags.runtime || name ∈ s.view.table then some (none, s)
      else
        match s.view.cached.get? name with
        | none => some (none, s)
        | some source => (compileLocal host source fs s).map fun r =>
            (some r.1, r.2.enroll name r.1) := by
  simp only [compileUnit, CompileM.bind_apply, CompileM.view_apply, Option.bind_some,
    CompileM.ite_apply, CompileM.pure_apply]
  split
  · rfl
  · cases s.view.cached.get? name with
    | none => rfl
    | some source =>
        simp only [CompileM.bind_apply]
        cases compileLocal host source fs s <;> rfl

/-- The state after a call of the preprocessing hook, if there is one. -/
def Compilation.preprocessed (source name : Text) (s : Compilation) : Compilation :=
  if s.context.hook.isSome then s.emit (.preprocess s.view source name) else s

/-- The state after a source is cached. -/
def Compilation.cache (name target source : Text) (s : Compilation) : Compilation :=
  s.mapView fun v =>
    { v with
      aliases := if target = name then v.aliases else v.aliases.insertIfNew name target
      cached := v.cached.insertIfNew target source.escape }

/-- The state after a partial is not found. -/
def Compilation.missed (name : Text) (s : Compilation) : Compilation :=
  if s.view.flags.skipMissing then s else s.mapView (·.report (.missingPartial name))

/-- The state after a reference is counted. -/
def Compilation.counted (name : Text) (s : Compilation) : Compilation :=
  s.mapView (·.countOne name)

omit host in
theorem resolve_apply (name : Text) :
    resolve name fs s =
      match s.context.rawSource? fs name with
      | none => some (none, s)
      | some raw => some (some (s.context.preprocess raw name), s.preprocessed raw name) := by
  simp only [resolve, preprocess, CompileM.bind_apply, CompileM.context_apply, Option.bind_some,
    CompileM.read_apply]
  cases s.context.rawSource? fs name with
  | none => rfl
  | some raw =>
      simp only [CompileM.bind_apply, CompileM.context_apply, Option.bind_some,
        CompileM.ite_apply, CompileM.emit_apply, CompileM.pure_apply, Compilation.preprocessed]
      split <;> rfl

/-- What reading a partial does after the reference is counted. -/
def readCounted (name : Text) (s : Compilation) : Option (Option Text × Compilation) :=
  if s.view.resolvedName name ∈ s.view.cached then some (none, s)
  else
    match s.context.rawSource? fs name with
    | none => some (none, s.missed name)
    | some raw =>
        let parts := s.context.preprocess raw name
        compileUnit host parts.2 fs ((s.preprocessed raw name).cache name parts.2 parts.1)

theorem readPartial_apply (name : Text) :
    readPartial host name fs s = readCounted host fs name (s.counted Counter.references) := by
  simp only [readPartial, CompileM.bind_apply, CompileM.countOne_apply, CompileM.view_apply,
    Option.bind_some, CompileM.ite_apply, CompileM.pure_apply, resolve_apply]
  show _ = readCounted host fs name (s.mapView (·.countOne Counter.references))
  generalize s.mapView (·.countOne Counter.references) = s
  unfold readCounted
  split
  · rfl
  · cases s.context.rawSource? fs name with
    | none =>
        simp only [Option.bind_some, CompileM.ite_apply, CompileM.bind_apply,
          CompileM.report_apply, CompileM.pure_apply, Compilation.missed]
        cases s.view.flags.skipMissing <;> rfl
    | some raw => rfl

theorem readAll_cons_apply (name : Text) (names : List Text) :
    readAll host (name :: names) fs s =
      (readPartial host name fs s).bind fun r => readAll host names fs r.2 := by
  simp only [readAll, CompileM.bind_apply]

/-- The partials that are read when the template is compiled. -/
def preloaded (v : View) : List Text :=
  if v.counters.count Counter.dynamicReferences ≠ 0 then v.partials.keys else []

theorem preload_apply : preload host fs s = readAll host (preloaded s.view) fs s := by
  simp only [preload, CompileM.bind_apply, CompileM.view_apply, Option.bind_some,
    CompileM.ite_apply, preloaded]
  split <;> rfl

/-- The state that a compilation starts in. -/
def Compilation.initial (options : Options) (hook : Option Hook) (fs : FileSystem) :
    Compilation :=
  ⟨.start options hook fs, []⟩

omit s in
theorem runWith_apply (options : Options) (hook : Option Hook) (source : Text) :
    runWith host fs options hook source =
      (host.compile source.escape fs (.initial options hook fs)).bind fun r =>
        (preload host fs r.2).map fun q => (r.1, q.2) := by
  show (host.compile source.escape fs (.initial options hook fs)).bind _ = _
  congr 1
  funext r
  simp only [CompileM.bind_apply, CompileM.pure_apply]
  cases preload host fs r.2 <;> rfl

/-- The source of a partial as it is embedded: indented like the line of the
reference. -/
def embedded (v : View) (source : Text) : Text :=
  if v.flags.noIndent then source else Text.indentLines v.lineIndent source

/-- The state after a partial that is not cached should have been embedded. -/
def Compilation.missedOnce (name : Text) (s : Compilation) : Compilation :=
  if !s.view.flags.skipMissing && .missingPartial name ∉ s.view.diagnostics then
    s.mapView (·.report (.missingPartial name))
  else s

/-- The state in which the source of a partial is embedded. -/
def Compilation.enter (name : Text) (s : Compilation) : Compilation :=
  s.mapView fun v => { v with chain := name :: v.chain }

/-- The state after the source of a partial was embedded. -/
def Compilation.leave (s : Compilation) : Compilation :=
  s.mapView fun v => { v with chain := v.chain.tail }

/-- What embedding does with a resolved name. -/
def embedResolved (name : Text) : Option (Text × Compilation) :=
  match s.view.cached.get? name with
  | none => some ([], s.missedOnce name)
  | some source =>
      if s.view.flags.runtime then host.compile (embedded s.view source) fs s
      else if (name :: s.view.chain).Nodup then
        (host.compile (embedded (s.enter name).view source) fs (s.enter name)).map fun r =>
          (r.1, r.2.leave)
      else some ([], s.mapView (·.report (.recursivePartial (name :: s.view.chain).reverse)))

theorem embed_apply (requested : Text) :
    embed host requested fs s = embedResolved host fs s (s.view.resolvedName requested) := by
  simp only [embed, CompileM.bind_apply, CompileM.view_apply, Option.bind_some]
  generalize s.view.resolvedName requested = name
  unfold embedResolved
  cases s.view.cached.get? name with
  | none =>
      simp only [CompileM.ite_apply, CompileM.bind_apply, CompileM.report_apply,
        CompileM.pure_apply, Compilation.missedOnce]
      split <;> rfl
  | some source =>
      simp only [CompileM.ite_apply, CompileM.bind_apply, CompileM.modifyView_apply,
        CompileM.pure_apply, CompileM.report_apply, Option.bind_some]
      split
      · rfl
      · split
        · show Option.bind (host.compile (embedded (s.enter name).view source) fs (s.enter name)) _
            = _
          cases host.compile (embedded (s.enter name).view source) fs (s.enter name) <;> rfl
        · rfl

end Compiling

namespace Handlebars

variable (self : Host) (fs : FileSystem) (s : Compilation)

/-- The state with another indentation of the line. -/
def atIndent (indent : Text) (s : Compilation) : Compilation :=
  s.mapView fun v => { v with lineIndent := indent }

theorem withLineIndent_apply (indent : Text) (body : CompileM Text) :
    withLineIndent indent body fs s =
      (body fs (atIndent indent s)).map fun r => (r.1, atIndent s.view.lineIndent r.2) := by
  simp only [withLineIndent, CompileM.bind_apply, CompileM.view_apply, Option.bind_some,
    CompileM.modifyView_apply, CompileM.pure_apply]
  show Option.bind (body fs (atIndent indent s)) _ = _
  cases body fs (atIndent indent s) <;> rfl

/-- The state with other blocks around. -/
def inBlocks (blocks : List Text) (s : Compilation) : Compilation :=
  s.mapView fun v => { v with blocks := blocks }

theorem enclosingBlock_apply (indent : Option Text) :
    enclosingBlock self indent fs s =
      match s.view.blocks with
      | body :: outer =>
          (self.compile (Text.indentLines (indent.getD []) body) fs (inBlocks outer s)).map
            fun r => (r.1, inBlocks (body :: r.2.view.blocks) r.2)
      | [] =>
          if s.view.flags.runtime then
            some (s.view.fragments.splice "LR::pb($cx, $in)".toList, s)
          else some ([], s.mapView (·.report .noEnclosingBlock)) := by
  simp only [enclosingBlock, CompileM.bind_apply, CompileM.view_apply, Option.bind_some]
  cases s.view.blocks with
  | nil =>
      simp only [CompileM.ite_apply, CompileM.pure_apply, CompileM.bind_apply,
        CompileM.report_apply, Option.bind_some]
  | cons body outer =>
      simp only [CompileM.bind_apply, CompileM.modifyView_apply, Option.bind_some]
      show Option.bind (self.compile _ fs (inBlocks outer s)) _ = _
      cases self.compile (Text.indentLines (indent.getD []) body) fs (inBlocks outer s) <;> rfl

theorem namedReference_apply (name : Text) (indent : Option Text) :
    namedReference self name indent fs s =
      (readPartial self name fs s).bind fun r =>
        if r.2.view.flags.runtime then
          some (dispatch r.2.view (nameLiteral (r.2.view.resolvedName name)) indent none, r.2)
        else embed self (r.2.view.resolvedName name) fs r.2 := by
  simp only [namedReference, CompileM.bind_apply, CompileM.view_apply, Option.bind_some,
    CompileM.ite_apply, CompileM.pure_apply]

/-- The state after a reference by an expression was counted and looked at. -/
def dynamicNoted (expr : Text) (s : Compilation) : Compilation :=
  if !s.view.flags.runtime && !s.view.flags.allowDynamicNames then
    s.mapView (·.report (.dynamicName expr))
  else s

theorem dynamicReference_apply (expr : Text) (indent : Option Text) :
    dynamicReference expr indent fs s =
      some (dispatch (s.counted Counter.dynamicReferences).view (lookup expr) indent none,
        dynamicNoted expr (s.counted Counter.dynamicReferences)) := by
  simp only [dynamicReference, CompileM.bind_apply, CompileM.countOne_apply,
    CompileM.view_apply, Option.bind_some, CompileM.ite_apply, CompileM.report_apply,
    CompileM.pure_apply]
  show (if (!(s.counted Counter.dynamicReferences).view.flags.runtime &&
    !(s.counted Counter.dynamicReferences).view.flags.allowDynamicNames) = true then _ else _) = _
  unfold dynamicNoted
  split <;> rfl

theorem embedWithBlock_apply (target body : Text) :
    embedWithBlock self target body fs s =
      (embed self target fs (inBlocks (body :: s.view.blocks) s)).map fun r =>
        (r.1, inBlocks r.2.view.blocks.tail r.2) := by
  simp only [embedWithBlock, CompileM.bind_apply, CompileM.modifyView_apply, Option.bind_some,
    CompileM.pure_apply]
  show Option.bind (embed self target fs (inBlocks (body :: s.view.blocks) s)) _ = _
  cases embed self target fs (inBlocks (body :: s.view.blocks) s) <;> rfl

/-- What a block does after its partial was read. -/
def blockRead (name body : Text) : Option (Text × Compilation) :=
  if s.view.flags.runtime then
    (compileLocal self body fs s).map fun r =>
      (dispatch r.2.view (nameLiteral (s.view.resolvedName name)) none (some r.1), r.2)
  else embedWithBlock self (s.view.resolvedName name) body fs s

theorem partialBlock_apply (name body : Text) :
    partialBlock self name body fs s =
      ((readPartial self name fs (atIndent [] s)).bind fun r => blockRead self fs r.2 name body).map
        fun r => (r.1, atIndent s.view.lineIndent r.2) := by
  rw [partialBlock, withLineIndent_apply]
  congr 1
  simp only [CompileM.bind_apply, CompileM.view_apply, Option.bind_some, CompileM.ite_apply]
  congr 1
  funext r
  unfold blockRead
  split
  · cases compileLocal self body fs r.2 <;> rfl
  · rfl

/-- The state after an inline definition is noted. -/
def inlineNoted (name source : Text) (s : Compilation) : Compilation :=
  (s.counted Counter.inlineDefinitions).mapView fun v =>
    { v with inlines := v.inlines.insert name source }

/-- The state after the source of an inline definition is cached. -/
def inlineCached (name source : Text) (s : Compilation) : Compilation :=
  s.mapView fun v => { v with cached := v.cached.insert name source }

/-- What an inline definition does after it is noted. -/
def defineNoted (name source : Text) : Option (Unit × Compilation) :=
  if name ∈ s.view.cached then some ((), s)
  else (compileUnit self name fs (inlineCached name source s)).map fun r => ((), r.2)

theorem defineInline_apply (name body : Text) :
    defineInline self name body fs s =
      defineNoted self fs (inlineNoted name (Keyword.unmask body) s) name
        (Keyword.unmask body) := by
  simp only [defineInline, CompileM.bind_apply, CompileM.countOne_apply, Option.bind_some,
    CompileM.modifyView_apply, CompileM.view_apply, CompileM.ite_apply, CompileM.pure_apply]
  show (if name ∉ (inlineNoted name (Keyword.unmask body) s).view.cached then _ else _) = _
  unfold defineNoted
  rw [ite_not]
  split
  · rfl
  · show Option.bind (compileUnit self name fs (inlineCached name (Keyword.unmask body)
      (inlineNoted name (Keyword.unmask body) s))) _ = _
    cases compileUnit self name fs (inlineCached name (Keyword.unmask body)
      (inlineNoted name (Keyword.unmask body) s)) <;> rfl

/-- The state after a block was looked for its end. -/
def closeChecked (name : Text) (closed : Bool) (s : Compilation) : Compilation :=
  if closed then s else s.mapView (·.report (.unclosedBlock name))

theorem checkClosed_apply (name : Text) (closed : Bool) :
    checkClosed name closed fs s = some ((), closeChecked name closed s) := by
  cases closed <;> rfl

theorem cached_inlineNoted (name source other : Text) (closed : Bool) (t : Compilation) :
    (inlineNoted name source (closeChecked other closed t)).view.cached = t.view.cached := by
  cases closed <;> rfl

theorem nodes_cons_apply (n : Node) (ns : List Node) :
    nodes self (n :: ns) fs s =
      (node self n fs s).bind fun r => (nodes self ns fs r.2).map fun q => (r.1 ++ q.1, q.2) := by
  simp only [nodes, CompileM.bind_apply, CompileM.pure_apply]
  congr 1
  funext r
  cases nodes self ns fs r.2 <;> rfl

end Handlebars

end Inlay
