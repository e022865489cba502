import Inlay.Proofs.DispatchClosure
import Inlay.Proofs.Indentation
import Inlay.Proofs.Renaming
import Inlay.Proofs.Subtasks

/-!
# Which source a reference embeds

A reference resolves its name twice, so a partial whose new name was itself
given another name before is replaced by that one. What a name stands for
never changes once it is cached. With indentation switched off, the source is
embedded as it is, but the body of a block is still indented.
-/

namespace Inlay

namespace Handlebars

open Compilation

variable {fs : FileSystem}

/-! ## The tasks on the way -/

theorem Starts.keeps {task task' : Task} {s s' : Compilation} (h : Starts fs task s task' s')
    (hs : s.names.Sourced) : s.names.Keeps s'.names ∧ s'.names.Sourced := by
  rcases h.works with hworks | rfl
  · exact hworks.keeps hs
  · exact ⟨.refl _, hs⟩

/-- The run of a task contains the runs of the tasks that it starts. It goes on from there, and
keeps what names stand for after them. -/
theorem Starts.exists_run {task task' : Task} {s s' t : Compilation} {code : Text}
    (h : Starts fs task s task' s') (hrun : Runs fs task s code t) :
    ∃ code' t', Runs fs task' s' code' t' ∧ t'.Grows t ∧
      (s.names.Sourced → t'.names.Keeps t.names) := by
  cases h with
  | text =>
      cases hrun with | text hrun => ?_
      exact ⟨_, _, hrun, .refl _, fun _ => .refl _⟩
  | head =>
      cases hrun with | cons hnode hrest => ?_
      exact ⟨_, _, hnode, hrest.grows, fun hs => (hrest.keeps (hnode.keeps hs).2).1⟩
  | tail hnode =>
      cases hrun with | cons hnode' hrest => ?_
      obtain ⟨rfl, rfl⟩ := hnode.unique hnode'
      exact ⟨_, _, hrest, .refl _, fun _ => .refl _⟩
  | referenceRead =>
      cases hrun with
      | dispatched hread => exact ⟨_, _, hread, grows_of_eq rfl rfl rfl rfl, fun _ => .refl _⟩
      | embedded hread _ hembed =>
          exact ⟨_, _, hread, hembed.grows.trans (grows_of_eq rfl rfl rfl rfl),
            fun hs => (hembed.keeps (hread.keeps hs).2).1⟩
  | referenceEmbed hread hruntime =>
      cases hrun with
      | dispatched hread' hruntime' =>
          obtain ⟨rfl, rfl⟩ := hread.unique hread'
          simp [hruntime] at hruntime'
      | embedded hread' _ hembed =>
          obtain ⟨rfl, rfl⟩ := hread.unique hread'
          exact ⟨_, _, hembed, grows_of_eq rfl rfl rfl rfl, fun _ => .refl _⟩
  | enclosed hblocks =>
      cases hrun with
      | enclosed hblocks' hbody =>
          obtain ⟨rfl, rfl⟩ := List.cons.injEq .. ▸ hblocks.symm.trans hblocks'
          exact ⟨_, _, hbody, grows_of_eq rfl rfl rfl rfl, fun _ => .refl _⟩
      | enclosedCall hblocks' => simp [hblocks] at hblocks'
      | notEnclosed hblocks' => simp [hblocks] at hblocks'
  | @blockRead name body closed =>
      rw [← names_closeChecked name closed s]
      cases hrun with
      | blockDispatched hread _ hapart =>
          exact ⟨_, _, hread, hapart.grows.trans (grows_of_eq rfl rfl rfl rfl),
            fun hs => (hapart.keeps (hread.keeps hs).2).1⟩
      | blockEmbedded hread _ hembed =>
          have hgrows := hembed.grows
          exact ⟨_, _, hread, ⟨hgrows.cached, hgrows.table, hgrows.diagnostics, hgrows.trace⟩,
            fun hs => (hembed.keeps (hread.keeps hs).2).1⟩
  | blockApart hread hruntime =>
      cases hrun with
      | blockDispatched hread' _ hapart =>
          obtain ⟨rfl, rfl⟩ := hread.unique hread'
          exact ⟨_, _, hapart, grows_of_eq rfl rfl rfl rfl, fun _ => .refl _⟩
      | blockEmbedded hread' hruntime' _ =>
          obtain ⟨rfl, rfl⟩ := hread.unique hread'
          simp [hruntime] at hruntime'
  | blockEmbed hread hruntime =>
      cases hrun with
      | blockDispatched hread' hruntime' _ =>
          obtain ⟨rfl, rfl⟩ := hread.unique hread'
          simp [hruntime] at hruntime'
      | blockEmbedded hread' _ hembed =>
          obtain ⟨rfl, rfl⟩ := hread.unique hread'
          exact ⟨_, _, hembed, grows_of_eq rfl rfl rfl rfl, fun _ => .refl _⟩
  | inline hnew =>
      cases hrun with
      | inlineKnown hknown => exact absurd hknown hnew
      | inlineNew _ hunit => exact ⟨_, _, hunit, .refl _, fun _ => .refl _⟩
  | found hnew hraw hparts =>
      cases hrun with
      | readKnown hknown => exact absurd hknown hnew
      | readMissing _ hnone => simp [hnone] at hraw
      | readFound _ hraw' hparts' hunit =>
          obtain rfl := Option.some.inj (hraw.symm.trans hraw')
          obtain ⟨rfl, rfl⟩ := Prod.mk.injEq .. ▸ hparts.symm.trans hparts'
          exact ⟨_, _, hunit, .refl _, fun _ => .refl _⟩
  | unit hruntime hnew hsource =>
      cases hrun with
      | unitIdle hidle => simp [hruntime, hnew, hsource] at hidle
      | unitNew _ _ hsource' hapart =>
          obtain rfl := Option.some.inj (hsource.symm.trans hsource')
          exact ⟨_, _, hapart, grows_enroll .., fun _ => .refl _⟩
  | apart =>
      cases hrun with | apart htext => ?_
      exact ⟨_, _, htext, grows_merge_of_copy htext.grows,
        fun hs => hs.keeps_merge (htext.keeps hs).1⟩
  | embedOpen hsource hruntime =>
      cases hrun with
      | embedMissing hnone => simp [hnone] at hsource
      | embedOpen hsource' _ htext =>
          obtain rfl := Option.some.inj (hsource.symm.trans hsource')
          exact ⟨_, _, htext, .refl _, fun _ => .refl _⟩
      | embedGuarded _ hruntime' => simp [hruntime] at hruntime'
      | embedRepeated _ hruntime' => simp [hruntime] at hruntime'
  | embedGuarded hsource hruntime hnodup =>
      cases hrun with
      | embedMissing hnone => simp [hnone] at hsource
      | embedOpen _ hruntime' => simp [hruntime] at hruntime'
      | embedGuarded hsource' _ _ htext =>
          obtain rfl := Option.some.inj (hsource.symm.trans hsource')
          exact ⟨_, _, htext, grows_of_eq rfl rfl rfl rfl, fun _ => .refl _⟩
      | embedRepeated _ _ hrepeated => exact absurd hnodup hrepeated

theorem Meets.keeps {task task' : Task} {s s' : Compilation} (h : Meets fs task s task' s')
    (hs : s.names.Sourced) : s.names.Keeps s'.names ∧ s'.names.Sourced := by
  induction h with
  | here => exact ⟨.refl _, hs⟩
  | step _ hstarts ih =>
      obtain ⟨hkeeps, hsourced⟩ := ih
      obtain ⟨hkeeps', hsourced'⟩ := hstarts.keeps hsourced
      exact ⟨hkeeps.trans hkeeps', hsourced'⟩

/-- The run of a task contains the runs of all tasks that are met on its way. -/
theorem Meets.exists_inner_run {task task' : Task} {s s' t : Compilation} {code : Text}
    (h : Meets fs task s task' s') (hrun : Runs fs task s code t) :
    ∃ code' t', Runs fs task' s' code' t' ∧ t'.Grows t ∧
      (s.names.Sourced → t'.names.Keeps t.names) := by
  induction h with
  | here => exact ⟨_, _, hrun, .refl _, fun _ => .refl _⟩
  | step hmeets hstarts ih =>
      obtain ⟨code₁, t₁, hrun₁, hgrows₁, hkeeps₁⟩ := ih
      obtain ⟨code₂, t₂, hrun₂, hgrows₂, hkeeps₂⟩ := hstarts.exists_run hrun₁
      exact ⟨code₂, t₂, hrun₂, hgrows₂.trans hgrows₁,
        fun hs => (hkeeps₂ (hmeets.keeps hs).2).trans (hkeeps₁ hs)⟩

theorem Meets.exists_run {task task' : Task} {s s' t : Compilation} {code : Text}
    (h : Meets fs task s task' s') (hrun : Runs fs task s code t) (hs : s.names.Sourced) :
    ∃ code' t', Runs fs task' s' code' t' ∧ t'.names.Keeps t.names ∧ t'.Grows t := by
  obtain ⟨code', t', hrun', hgrows, hkeeps⟩ := h.exists_inner_run hrun
  exact ⟨code', t', hrun', hkeeps hs, hgrows⟩

/-! ## References -/

/-- Where partials are embedded, reading one comes to an end. -/
theorem exists_read_embedding (fs : FileSystem) {s : Compilation} (hruntime : s.view.flags.runtime = false)
    (name : Text) : ∃ t, Runs fs (.read name) s [] t := by
  by_cases hknown : s.view.resolvedName name ∈ s.view.cached
  · exact ⟨_, .readKnown hknown⟩
  · cases hraw : s.context.rawSource? fs name with
    | none => exact ⟨_, .readMissing hknown hraw⟩
    | some raw =>
        refine ⟨_, .readFound hknown hraw rfl (.unitIdle (.inl ?_))⟩
        have hscope := scope_preprocessed raw name (s.counted Counter.references)
        exact (congrArg (fun c => c.flags.runtime) hscope).trans hruntime

/-- After its name was read, a reference has the source that was asked for and the one that it
embeds. They are the same if the name that it asked under was given no other name. -/
theorem exists_embedded_source {name : Text} {s : Compilation} (hs : s.names.Sourced)
    (hname : s.view.resolvedName name ∈ s.view.cached) : ∃ requested source,
    s.view.cached.get? (s.view.resolvedName name) = some requested ∧
    s.view.cached.get? (s.view.resolvedName (s.view.resolvedName name)) = some source ∧
    (s.view.aliases.get? (s.view.resolvedName name) = none → source = requested) := by
  obtain ⟨requested, hrequested⟩ := OrderedMap.mem_iff_exists_get?.mp hname
  obtain ⟨source, hsource⟩ := OrderedMap.mem_iff_exists_get?.mp (hs.resolve_mem hname)
  have hsource : s.view.cached.get? (s.view.resolvedName (s.view.resolvedName name)) = some source :=
    hsource
  refine ⟨requested, source, hrequested, hsource, fun hnone => ?_⟩
  have hself : s.view.resolvedName (s.view.resolvedName name) = s.view.resolvedName name :=
    congrArg (fun found => found.getD (s.view.resolvedName name)) hnone
  rw [hself, hrequested] at hsource
  exact (Option.some.inj hsource).symm

/-- What a node embeds: the name is read, and it is embedded what the name of the name stands
for. -/
theorem exists_embed_site {n : Node} {name : Text} {s : Compilation} (hs : s.names.Sourced)
    (hruntime : s.view.flags.runtime = false) (hname : n.dispatches? = some name)
    (hresolves : Resolves fs s name) : ∃ s₁,
    s₁.view.resolvedName name ∈ s₁.view.cached ∧
    ∀ key s₂, Starts fs (.node n) s (.embed key) s₂ ↔
      key = s₁.view.resolvedName (s₁.view.resolvedName name) ∧ s₂ = s₁ := by
  cases n with
  | reference target indent =>
      cases target with
      | named other =>
          obtain rfl := Option.some.inj hname
          have hruntime₀ : (atIndent (indent.getD []) s).view.flags.runtime = false := hruntime
          obtain ⟨s₁, hread⟩ := exists_read_embedding fs hruntime₀ other
          refine ⟨s₁, hread.mem_cached_of_read hs hresolves, fun key s₂ => ⟨fun h => ?_, ?_⟩⟩
          · cases h with | referenceEmbed hread' _ => ?_
            obtain ⟨-, rfl⟩ := hread.unique hread'
            exact ⟨rfl, rfl⟩
          · rintro ⟨rfl, rfl⟩
            exact .referenceEmbed hread ((congrArg Flags.runtime hread.flags_eq).trans hruntime₀)
      | _ => cases hname
  | block other body closed =>
      obtain rfl := Option.some.inj hname
      have hscope := scope_closeChecked other closed s
      have hruntime₀ : (atIndent [] (closeChecked other closed s)).view.flags.runtime = false :=
        (congrArg (fun c => c.flags.runtime) hscope).trans hruntime
      have hresolves₀ : Resolves fs (atIndent [] (closeChecked other closed s)) other := by
        cases closed <;> exact hresolves
      rw [← names_closeChecked other closed s] at hs
      obtain ⟨s₁, hread⟩ := exists_read_embedding fs hruntime₀ other
      refine ⟨inBlocks (body :: s₁.view.blocks) s₁, hread.mem_cached_of_read hs hresolves₀,
        fun key s₂ => ⟨fun h => ?_, ?_⟩⟩
      · cases h with | blockEmbed hread' _ => ?_
        obtain ⟨-, rfl⟩ := hread.unique hread'
        exact ⟨rfl, rfl⟩
      · rintro ⟨rfl, rfl⟩
        exact .blockEmbed hread ((congrArg Flags.runtime hread.flags_eq).trans hruntime₀)
  | _ => cases hname

/-- Which source a reference embeds where partials are embedded. The reference reads its name, and
embeds the source of what the name of its name stands for: there always is one, and it is the one
that the reference asked for if this was given no other name. What the names stand for does not
change until the compilation is over. -/
theorem embeds_resolved_twice (fs : FileSystem) (options : Options) (hook : Option Hook)
    (template : Text) (hembeds : options.flags.runtime = false) {n : Node} {name : Text}
    {s : Compilation} (hmeets : Meets fs (.text template.escape) (initial options hook fs) (.node n) s)
    (hname : n.dispatches? = some name) (hresolves : Resolves fs s name) :
    ∃ s₁ key requested source,
      (∀ key' s₂, Starts fs (.node n) s (.embed key') s₂ ↔ key' = key ∧ s₂ = s₁) ∧
      (∀ text s₂, Starts fs (.embed key) s₁ (.text text) s₂ → text = embedded s₁.view source) ∧
      s₁.view.cached.get? (s₁.view.resolvedName name) = some requested ∧
      s₁.view.cached.get? (s₁.view.resolvedName (s₁.view.resolvedName name)) = some source ∧
      (s₁.view.aliases.get? (s₁.view.resolvedName name) = none → source = requested) ∧
      ∀ code middle final, Compiles fs options hook template code middle final →
        s₁.names.Keeps final.names := by
  have hinitial : (initial options hook fs).names.Sourced := fun _ _ h => by cases h
  have hs := (hmeets.keeps hinitial).2
  have hruntime : s.view.flags.runtime = false :=
    (congrArg Flags.runtime hmeets.flags_eq).trans hembeds
  obtain ⟨s₁, hmem, hsite⟩ := exists_embed_site hs hruntime hname hresolves
  have hstarts := (hsite _ s₁).mpr ⟨rfl, rfl⟩
  have hs₁ := (hstarts.keeps hs).2
  obtain ⟨requested, source, hrequested, hsource, hsame⟩ := exists_embedded_source hs₁ hmem
  refine ⟨s₁, _, requested, source, hsite, fun text s₂ htext => ?_, hrequested, hsource, hsame, ?_⟩
  · cases htext with
    | embedOpen hsource' _ => rw [Option.some.inj (hsource.symm.trans hsource')]
    | embedGuarded hsource' _ _ => rw [Option.some.inj (hsource.symm.trans hsource')]
  · intro code middle final hcompiles
    obtain ⟨_, t, hrun, hkeeps, -⟩ := (hmeets.step hstarts).exists_run hcompiles.runs hinitial
    have hmiddle := (hcompiles.runs.keeps hinitial).2
    exact (hrun.keeps hs₁).1.trans (hkeeps.trans (hcompiles.reads.keeps hmiddle))

/-- Two partials, of which the first is given the name of the second. -/
def renamedOptions : Options :=
  { Options.standard with
    partials := .ofList [("a".toList, "A".toList), ("b".toList, "B".toList)] }

/-- A template that refers to `a`. -/
def referringTemplate : Text :=
  "\x7b\x7b> a\x7d\x7d".toList

/-- Gives `a` the name `b`, and `b` the name `c`. -/
def shiftNames : Hook := fun _ source name =>
  (source, if name = "a".toList then "b".toList else if name = "b".toList then "c".toList else name)

theorem embeds_resolved_twice_renamed :
    renamedOptions.flags.runtime = false ∧
    ∃ s s₁ key requested source,
      Meets (.emptyAt ['/']) (.text referringTemplate.escape)
        (initial renamedOptions (some shiftNames) (.emptyAt ['/']))
        (.node (.reference (.named "a".toList) (some []))) s ∧
      Resolves (.emptyAt ['/']) s "a".toList ∧
      Starts (.emptyAt ['/']) (.node (.reference (.named "a".toList) (some []))) s (.embed key) s₁ ∧
      s₁.view.cached.get? (s₁.view.resolvedName "a".toList) = some requested ∧
      s₁.view.cached.get? (s₁.view.resolvedName (s₁.view.resolvedName "a".toList)) = some source ∧
      (s₁.view.aliases.get? (s₁.view.resolvedName "a".toList) = none → source = requested) := by
  have hnodes : referringTemplate.escape.nodes =
      [.literal [], .reference (.named "a".toList) (some []), .literal []] := by
    decide +kernel
  let start := initial renamedOptions (some shiftNames) (.emptyAt ['/'])
  let s := start.emit (.compile start.view referringTemplate.escape)
  have hstart : Starts (.emptyAt ['/']) (.text referringTemplate.escape) start
      (.nodes [.literal [], .reference (.named "a".toList) (some []), .literal []]) s :=
    hnodes ▸ .text
  have hmeets := ((Meets.here.step hstart).step (.tail .literal)).step .head
  have hraw : s.context.rawSource? (.emptyAt ['/']) "a".toList = some "A".toList := by
    decide +kernel
  have hresolves : Resolves (.emptyAt ['/']) s "a".toList := .inr (hraw ▸ Option.some_ne_none _)
  obtain ⟨s₁, key, requested, source, hsite, -, hrequested, hsource, hsame, -⟩ :=
    embeds_resolved_twice (.emptyAt ['/']) renamedOptions (some shiftNames) referringTemplate rfl
      hmeets rfl hresolves
  exact ⟨rfl, s, s₁, key, requested, source, hmeets, hresolves, (hsite key s₁).mpr ⟨rfl, rfl⟩,
    hrequested, hsource, hsame⟩

/-- The second reference asks for what is cached under `b`, but this name stands for `c` since the
first one. -/
theorem renamed_target_embeds_other :
    (compile (.emptyAt ['/']) renamedOptions (some shiftNames)
      "\x7b\x7b> b\x7d\x7d\x7b\x7b> a\x7d\x7d".toList).map (fun o => (o.code, o.cached.entries)) =
        some ("BB".toList, [("c".toList, "B".toList), ("b".toList, "A".toList)]) := by
  decide +kernel

/-! ## With indentation switched off -/

/-- With indentation switched off, a partial is compiled as it is cached, wherever its tag stands
and however deep it is nested. The body of a block is not: it has the indentation of the tag that
refers to it on all of its lines, so it is compiled as it was written exactly if the tag is not
indented, or not alone on its line. -/
theorem unindented_verbatim_iff {first : Task} {s : Compilation}
    (hoff : s.view.flags.noIndent = true) :
    (∀ name s₁ text s₂, Meets fs first s (.embed name) s₁ →
      Starts fs (.embed name) s₁ (.text text) s₂ → s₁.view.cached.get? name = some text) ∧
    ∀ indent s₁ text s₂, Meets fs first s (.node (.reference .block indent)) s₁ →
      Starts fs (.node (.reference .block indent)) s₁ (.text text) s₂ →
      ∃ body, s₁.view.blocks = body :: s₂.view.blocks ∧
        text = Text.indentLines (indent.getD []) body ∧ (text = body ↔ indent.getD [] = []) := by
  constructor
  · intro name s₁ text s₂ hmeets hstarts
    have hoff₁ : s₁.view.flags.noIndent = true :=
      (congrArg Flags.noIndent hmeets.flags_eq).trans hoff
    cases hstarts with
    | embedOpen hsource _ => rwa [embedded, if_pos hoff₁]
    | embedGuarded hsource _ _ => rwa [embedded, if_pos hoff₁]
  · intro indent s₁ text s₂ _ hstarts
    cases hstarts with
    | @enclosed body outer _ _ hblocks => exact ⟨body, hblocks, rfl, Text.indentLines_eq_self_iff⟩

/-- A partial that has its block on an indented line. -/
def indentedBlockOptions : Options :=
  { Options.standard with
    flags := { Options.standard.flags with noIndent := true }
    partials := .ofList [("p".toList, "  \x7b\x7b> @partial-block\x7d\x7d\n".toList)] }

/-- A block around two lines of text. -/
def blockTemplate : Text :=
  "\x7b\x7b#> p\x7d\x7da\nb\n\x7b\x7b/p\x7d\x7d".toList

theorem unindented_verbatim_iff_body :
    let start := initial indentedBlockOptions none (.emptyAt ['/'])
    start.view.flags.noIndent = true ∧
    ∃ indent s₁ text s₂ body,
      Meets (.emptyAt ['/']) (.text blockTemplate.escape) start
        (.node (.reference .block indent)) s₁ ∧
      Starts (.emptyAt ['/']) (.node (.reference .block indent)) s₁ (.text text) s₂ ∧
      s₁.view.blocks = body :: s₂.view.blocks ∧
      text = Text.indentLines (indent.getD []) body ∧ text ≠ body := by
  intro start
  let body : Text := "a\nb\n".toList
  let source : Text := "  \x7b\x7b> @partial-block\x7d\x7d\n".toList
  have htemplate : blockTemplate.escape.nodes =
      [.literal [], .block "p".toList body true, .literal []] := by
    decide +kernel
  let opened := start.emit (.compile start.view blockTemplate.escape)
  have hnodes : Starts (.emptyAt ['/']) (.text blockTemplate.escape) start
      (.nodes [.literal [], .block "p".toList body true, .literal []]) opened :=
    htemplate ▸ .text
  let found := ((atIndent [] opened).counted Counter.references).cache "p".toList "p".toList source
  have hread : Runs (.emptyAt ['/']) (.read "p".toList) (atIndent [] opened) [] found :=
    .readFound (by decide +kernel) (by decide +kernel) rfl (.unitIdle (.inl rfl))
  let entered := inBlocks (body :: found.view.blocks) found
  have hkey : found.view.resolvedName (found.view.resolvedName "p".toList) = "p".toList := by
    decide +kernel
  have hembed : Starts (.emptyAt ['/']) (.node (.block "p".toList body true)) opened
      (.embed "p".toList) entered :=
    hkey ▸ .blockEmbed hread rfl
  have hcached : entered.view.cached.get? "p".toList = some source := by decide +kernel
  have hsource : Starts (.emptyAt ['/']) (.embed "p".toList) entered
      (.text (embedded entered.view source)) (entered.enter "p".toList) :=
    .embedGuarded hcached rfl (List.nodup_cons.mpr ⟨List.not_mem_nil, List.nodup_nil⟩)
  have hpartial : (embedded entered.view source).nodes =
      [.literal [], .reference .block (some "  ".toList), .literal []] := by
    decide +kernel
  let inside := (entered.enter "p".toList).emit
    (.compile (entered.enter "p".toList).view (embedded entered.view source))
  have htext : Starts (.emptyAt ['/']) (.text (embedded entered.view source))
      (entered.enter "p".toList)
      (.nodes [.literal [], .reference .block (some "  ".toList), .literal []]) inside :=
    hpartial ▸ .text
  have hblock := ((Meets.here.step hnodes).step (.tail .literal)).step .head
  have hmeets := ((((hblock.step hembed).step hsource).step htext).step (.tail .literal)).step .head
  have hstarts : Starts (.emptyAt ['/']) (.node (.reference .block (some "  ".toList))) inside _ _ :=
    .enclosed rfl
  have hoff : start.view.flags.noIndent = true := rfl
  obtain ⟨body', hblocks, htext', hiff⟩ :=
    (unindented_verbatim_iff hoff).2 _ _ _ _ hmeets hstarts
  exact ⟨rfl, _, _, _, _, body', hmeets, hstarts, hblocks, htext', hiff.not.mpr (by decide)⟩

/-- The body of the block is indented although indentation is off. -/
theorem unindented_body_indented :
    (compile (.emptyAt ['/']) indentedBlockOptions none blockTemplate).map
      (fun o => (o.code, o.diagnostics)) = some ("  a\n  b\n".toList, []) := by
  decide +kernel

end Handlebars

end Inlay
