import Inlay.Proofs.Subtasks

/-!
# Blocks are lexically scoped

There is one stack of blocks: an embedded partial finds the body of its
block on top, and this body is compiled with the rest of the stack. So it is
compiled with the blocks that were around its tag, however the partial comes
to it, and a body is as good as a closure over them.
-/

namespace Inlay.Handlebars

open Compilation

/-! ## Bodies as closures -/

structure Closure where
  body : Text
  /-- The blocks around the place where the body is written. -/
  around : List Closure

/-- The closures on a stack of blocks: around each body are those below it. -/
def closures : List Text → List Closure
  | [] => []
  | body :: outer => ⟨body, closures outer⟩ :: closures outer

theorem bodies_closures (blocks : List Text) : (closures blocks).map Closure.body = blocks := by
  induction blocks with
  | nil => rfl
  | cons body outer ih => rw [closures, List.map_cons, ih]

section Lexical

variable (self : List Closure → Host)

/-- Preprocessing sees the bodies of the blocks in scope. -/
def showBlocks (env : List Closure) : CompileM Unit :=
  CompileM.modifyView fun v => { v with blocks := env.map Closure.body }

/-- The body of the enclosing block, compiled with the blocks around it. -/
def closureBody (env : List Closure) (indent : Option Text) : CompileM Text :=
  match env with
  | closure :: _ => do
      showBlocks closure.around
      let code ← (self closure.around).compile (Text.indentLines (indent.getD []) closure.body)
      showBlocks env
      return code
  | [] => do
      CompileM.report .noEnclosingBlock
      return []

/-- The code of a partial block: the partial gets the body with the blocks in scope. -/
def closureBlock (env : List Closure) (name body : Text) : CompileM Text :=
  withLineIndent [] do
    let _ ← readPartial (self env) name
    let target := (← CompileM.view).resolvedName name
    let inner := ⟨body, env⟩ :: env
    showBlocks inner
    let code ← embed (self inner) target
    showBlocks env
    return code

def lexicalNode (env : List Closure) : Node → CompileM Text
  | .reference .block indent => withLineIndent (indent.getD []) (closureBody self env indent)
  | .block name body closed => do
      checkClosed name closed
      closureBlock self env name body
  | n => node (self env) n

def lexicalNodes (env : List Closure) : List Node → CompileM Text
  | [] => return []
  | n :: ns => do
      let code ← lexicalNode self env n
      return code ++ (← lexicalNodes env ns)

section Equations

variable (env : List Closure) (fs : FileSystem) (s : Compilation)

theorem closureBody_apply (indent : Option Text) :
    closureBody self env indent fs s =
      match env with
      | closure :: _ =>
          ((self closure.around).compile (Text.indentLines (indent.getD []) closure.body) fs
            (inBlocks (closure.around.map Closure.body) s)).map
            fun r => (r.1, inBlocks (env.map Closure.body) r.2)
      | [] => some ([], s.mapView (·.report .noEnclosingBlock)) := by
  cases env with
  | nil => rfl
  | cons closure outer =>
      simp only [closureBody, showBlocks, CompileM.bind_apply, CompileM.modifyView_apply,
        Option.bind_some]
      show Option.bind ((self closure.around).compile _ fs
        (inBlocks (closure.around.map Closure.body) s)) _ = _
      cases (self closure.around).compile (Text.indentLines (indent.getD []) closure.body) fs
        (inBlocks (closure.around.map Closure.body) s) <;> rfl

def closureRead (name body : Text) : Option (Text × Compilation) :=
  (embed (self (⟨body, env⟩ :: env)) (s.view.resolvedName name) fs
    (inBlocks (body :: env.map Closure.body) s)).map
    fun r => (r.1, inBlocks (env.map Closure.body) r.2)

theorem closureBlock_apply (name body : Text) :
    closureBlock self env name body fs s =
      ((readPartial (self env) name fs (atIndent [] s)).bind fun r =>
        closureRead self env fs r.2 name body).map
        fun r => (r.1, atIndent s.view.lineIndent r.2) := by
  rw [closureBlock, withLineIndent_apply]
  congr 1
  simp only [showBlocks, CompileM.bind_apply, CompileM.view_apply, CompileM.modifyView_apply,
    Option.bind_some]
  congr 1
  funext r
  show Option.bind (embed (self (⟨body, env⟩ :: env)) (r.2.view.resolvedName name) fs
    (inBlocks (body :: env.map Closure.body) r.2)) _ = _
  unfold closureRead
  cases embed (self (⟨body, env⟩ :: env)) (r.2.view.resolvedName name) fs
    (inBlocks (body :: env.map Closure.body) r.2) <;> rfl

theorem lexicalNodes_cons_apply (n : Node) (ns : List Node) :
    lexicalNodes self env (n :: ns) fs s =
      (lexicalNode self env n fs s).bind fun r =>
        (lexicalNodes self env ns fs r.2).map fun q => (r.1 ++ q.1, q.2) := by
  simp only [lexicalNodes, CompileM.bind_apply, CompileM.pure_apply]
  congr 1
  funext r
  cases lexicalNodes self env ns fs r.2 <;> rfl

end Equations

end Lexical

/-- The host that is given the blocks in scope, where partials are embedded. -/
def lexicalHost : Nat → List Closure → Host
  | 0, _ => fun _ => CompileM.fail
  | depth + 1, env => fun source => lexicalNodes (lexicalHost depth) env source.nodes

/-! ## The stack and the closures agree -/

section Agreement

variable {fs : FileSystem} {s : Compilation}

/-- Where partials are embedded and these blocks are around, the hosts give the same results. -/
def Agree (fs : FileSystem) (blocks : List Text) (first second : Host) : Prop :=
  ∀ source s, s.view.flags.runtime = false → s.view.blocks = blocks →
    first source fs s = second source fs s

theorem compileUnit_eq_none (self : Host) (name : Text) (hembeds : s.view.flags.runtime = false) :
    compileUnit self name fs s = some (none, s) := by
  rw [compileUnit_apply, if_pos (by simp [hembeds])]

/-- Where partials are embedded, reading one is left to no host. -/
theorem readPartial_eq (first second : Host) (name : Text)
    (hembeds : s.view.flags.runtime = false) :
    readPartial first name fs s = readPartial second name fs s := by
  rw [readPartial_apply, readPartial_apply, readCounted, readCounted]
  split
  · rfl
  · cases (s.counted Counter.references).context.rawSource? fs name with
    | none => rfl
    | some raw =>
        have hflags := congrArg (fun c => c.flags.runtime)
          (scope_preprocessed raw name (s.counted Counter.references))
        have hruntime : ∀ target source, (((s.counted Counter.references).preprocessed raw
            name).cache name target source).view.flags.runtime = false :=
          fun _ _ => hflags.trans hembeds
        exact (compileUnit_eq_none first _ (hruntime _ _)).trans
          (compileUnit_eq_none second _ (hruntime _ _)).symm

theorem defineInline_eq (first second : Host) (name body : Text)
    (hembeds : s.view.flags.runtime = false) :
    defineInline first name body fs s = defineInline second name body fs s := by
  rw [defineInline_apply, defineInline_apply, defineNoted, defineNoted]
  have hnone : ∀ self, compileUnit self name fs (inlineCached name (Keyword.unmask body)
      (inlineNoted name (Keyword.unmask body) s)) = some (none, _) :=
    fun self => compileUnit_eq_none self name hembeds
  rw [hnone first, hnone second]

theorem Agree.embed_eq {first second : Host} (h : Agree fs s.view.blocks first second)
    (requested : Text) (hembeds : s.view.flags.runtime = false) :
    embed first requested fs s = embed second requested fs s := by
  rw [embed_apply, embed_apply]
  generalize s.view.resolvedName requested = name
  have hcompile : ∀ source t, t.view.flags.runtime = false → t.view.blocks = s.view.blocks →
      first.compile source fs t = second.compile source fs t :=
    fun source t ht hblocks => h source (t.emit (.compile t.view source)) ht hblocks
  unfold embedResolved
  cases s.view.cached.get? name with
  | none => rfl
  | some source =>
      dsimp only
      rw [hcompile _ s hembeds rfl, hcompile _ (s.enter name) hembeds rfl]

variable {lexical : List Closure → Host} {self : Host}

section Step

variable (hsound : Sound fs self) (h : ∀ blocks, Agree fs blocks (lexical (closures blocks)) self)

include hsound h

/-- A body is compiled with the closures below it, and these are what is on the stack then. -/
theorem closureBody_eq (indent : Option Text) (hembeds : s.view.flags.runtime = false) :
    closureBody lexical (closures s.view.blocks) indent fs s = enclosingBlock self indent fs s := by
  rw [closureBody_apply, enclosingBlock_apply, bodies_closures]
  cases hblocks : s.view.blocks with
  | nil => exact (if_neg (by simp [hembeds])).symm
  | cons body outer =>
      have hbody : (lexical (closures outer)).compile (Text.indentLines (indent.getD []) body) fs
          (inBlocks outer s) =
          self.compile (Text.indentLines (indent.getD []) body) fs (inBlocks outer s) :=
        h outer _ _ hembeds rfl
      simp only [closures, bodies_closures, hbody]
      refine Option.map_congr fun r hr => ?_
      -- the body is put back on what is left when it was compiled
      have hleft : r.2.view.blocks = outer := (hsound.runs_text hr).blocks_eq
      rw [hleft]

theorem closureBlock_eq (name body : Text) (hembeds : s.view.flags.runtime = false) :
    closureBlock lexical (closures s.view.blocks) name body fs s =
      partialBlock self name body fs s := by
  rw [closureBlock_apply, partialBlock_apply,
    readPartial_eq (lexical (closures s.view.blocks)) self name (s := atIndent [] s) hembeds]
  congr 1
  refine Option.bind_congr fun r hr => ?_
  have hread := hsound.runs_read hr
  have hruntime : r.2.view.flags.runtime = false :=
    (congrArg Flags.runtime hread.flags_eq).trans hembeds
  have hblocks : s.view.blocks = r.2.view.blocks := hread.blocks_eq.symm
  have hembed := (h (body :: r.2.view.blocks)).embed_eq
    (s := inBlocks (body :: r.2.view.blocks) r.2) (r.2.view.resolvedName name) hruntime
  rw [closureRead, blockRead, if_neg (by simp [hruntime]), embedWithBlock_apply, hblocks,
    bodies_closures]
  refine (congrArg _ hembed).trans (Option.map_congr fun q hq => ?_)
  -- the body is still on top when the partial was embedded
  have htop : q.2.view.blocks = body :: r.2.view.blocks := (hsound.runs_embed hq).blocks_eq
  rw [htop, List.tail_cons]

theorem namedReference_eq (name : Text) (indent : Option Text)
    (hembeds : s.view.flags.runtime = false) :
    namedReference (lexical (closures s.view.blocks)) name indent fs s =
      namedReference self name indent fs s := by
  rw [namedReference_apply, namedReference_apply,
    readPartial_eq (lexical (closures s.view.blocks)) self name hembeds]
  refine Option.bind_congr fun r hr => ?_
  have hread := hsound.runs_read hr
  have hruntime : r.2.view.flags.runtime = false :=
    (congrArg Flags.runtime hread.flags_eq).trans hembeds
  have hblocks : s.view.blocks = r.2.view.blocks := hread.blocks_eq.symm
  rw [if_neg (by simp [hruntime]), if_neg (by simp [hruntime]), hblocks]
  exact (h r.2.view.blocks).embed_eq (r.2.view.resolvedName name) hruntime

theorem lexicalNode_eq (n : Node) (hembeds : s.view.flags.runtime = false) :
    lexicalNode lexical (closures s.view.blocks) n fs s = node self n fs s := by
  cases n with
  | reference target indent =>
      cases target with
      | named name =>
          show withLineIndent _ (namedReference (lexical (closures s.view.blocks)) name indent) fs s =
            withLineIndent _ (namedReference self name indent) fs s
          rw [withLineIndent_apply, withLineIndent_apply]
          exact congrArg _
            (namedReference_eq hsound h name indent (s := atIndent (indent.getD []) s) hembeds)
      | dynamic expr => rfl
      | block =>
          show withLineIndent _ (closureBody lexical (closures s.view.blocks) indent) fs s =
            withLineIndent _ (enclosingBlock self indent) fs s
          rw [withLineIndent_apply, withLineIndent_apply]
          exact congrArg _
            (closureBody_eq hsound h indent (s := atIndent (indent.getD []) s) hembeds)
  | block name body closed =>
      simp only [lexicalNode, node, CompileM.bind_apply, checkClosed_apply, Option.bind_some]
      have hscope := scope_closeChecked name closed s
      have hblocks : (closeChecked name closed s).view.blocks = s.view.blocks :=
        congrArg (fun c => c.blocks) hscope
      rw [← hblocks]
      exact closureBlock_eq hsound h name body
        ((congrArg (fun c => c.flags.runtime) hscope).trans hembeds)
  | inlinePartial name body closed =>
      have hscope := scope_closeChecked "inline".toList closed s
      have hruntime := (congrArg (fun c => c.flags.runtime) hscope).trans hembeds
      simp only [lexicalNode, node, CompileM.bind_apply, checkClosed_apply, Option.bind_some]
      rw [defineInline_eq (lexical (closures s.view.blocks)) self name body hruntime]
  | _ => rfl

theorem lexicalNodes_eq (ns : List Node) (hembeds : s.view.flags.runtime = false) :
    lexicalNodes lexical (closures s.view.blocks) ns fs s = nodes self ns fs s := by
  induction ns generalizing s with
  | nil => rfl
  | cons n ns ih =>
      rw [lexicalNodes_cons_apply, nodes_cons_apply, lexicalNode_eq hsound h n hembeds]
      refine Option.bind_congr fun r hr => ?_
      have hrun := hsound.runs_node (Option.mem_def.mp hr)
      rw [← hrun.blocks_eq, ih ((congrArg Flags.runtime hrun.flags_eq).trans hembeds)]

end Step

end Agreement

theorem agree_lexicalHost (fs : FileSystem) (depth : Nat) (blocks : List Text) :
    Agree fs blocks (lexicalHost depth (closures blocks)) (host depth) := by
  induction depth generalizing blocks with
  | zero => exact fun _ _ _ _ => rfl
  | succ depth ih =>
      rintro source s hembeds rfl
      exact lexicalNodes_eq (sound_host fs depth) ih source.nodes hembeds

/-! ## Bodies on the way of a run -/

section OnTheWay

variable {fs : FileSystem}

/-- The task is, or comes at last to, the other task, and all the way these blocks are on the
stack. -/
inductive MeetsUnder (fs : FileSystem) (blocks : List Text) (task : Task) (s : Compilation) :
    Task → Compilation → Prop
  | here : blocks <:+ s.view.blocks → MeetsUnder fs blocks task s task s
  | step {task₁ s₁ task₂ s₂} :
      MeetsUnder fs blocks task s task₁ s₁ → Starts fs task₁ s₁ task₂ s₂ →
      blocks <:+ s₂.view.blocks → MeetsUnder fs blocks task s task₂ s₂

/-- A task is started with blocks that were there, and with the body of a block if its partial is
embedded. -/
theorem Starts.blocks {task task' : Task} {s s' : Compilation} (h : Starts fs task s task' s') :
    s'.view.blocks <:+ s.view.blocks ∨
    ∃ name body closed key, task = .node (.block name body closed) ∧ task' = .embed key ∧
      s'.view.blocks = body :: s.view.blocks := by
  have hsame : ∀ {blocks}, blocks = s.view.blocks → blocks <:+ s.view.blocks :=
    fun h => h ▸ List.suffix_rfl
  have hclosed : ∀ name closed, (closeChecked name closed s).view.blocks = s.view.blocks :=
    fun name closed => congrArg (fun c => c.blocks) (scope_closeChecked name closed s)
  cases h with
  | tail hnode => exact .inl (hsame hnode.blocks_eq)
  | referenceEmbed hread => exact .inl (hsame hread.blocks_eq)
  | enclosed hblocks => exact .inl (hblocks ▸ List.suffix_cons _ _)
  | blockRead => exact .inl (hsame (hclosed ..))
  | blockApart hread => exact .inl (hsame (hread.blocks_eq.trans (hclosed ..)))
  | @blockEmbed name body closed _ _ _ hread =>
      have hblocks := hread.blocks_eq.trans (hclosed name closed)
      exact .inr ⟨name, body, closed, _, rfl, rfl, congrArg (List.cons body) hblocks⟩
  | inline => exact .inl (hsame (hclosed ..))
  | @found name _ raw =>
      have hscope := scope_preprocessed raw name (s.counted Counter.references)
      exact .inl (hsame (congrArg (fun c => c.blocks) hscope))
  | apart => exact .inl List.nil_suffix
  | _ => exact .inl List.suffix_rfl

theorem Starts.exists_block {task task' : Task} {s s' : Compilation}
    (h : Starts fs task s task' s') {body : Text} {outer : List Text}
    (hbody : body :: outer <:+ s'.view.blocks) :
    body :: outer <:+ s.view.blocks ∨
    ∃ name closed key, task = .node (.block name body closed) ∧ task' = .embed key ∧
      s.view.blocks = outer := by
  rcases h.blocks with hsuffix | ⟨name, top, closed, key, rfl, rfl, hblocks⟩
  · exact .inl (hbody.trans hsuffix)
  · rcases List.suffix_cons_iff.mp (hblocks ▸ hbody) with htop | hthere
    · obtain ⟨rfl, rfl⟩ := List.cons.injEq .. ▸ htop
      exact .inr ⟨name, closed, key, rfl, rfl, rfl⟩
    · exact .inl hthere

/-- Each body on the stack was there at first, or a block put it on the blocks around its tag, and
they stayed there. -/
theorem Meets.exists_block {first task : Task} {s s' : Compilation} (h : Meets fs first s task s')
    {body : Text} {outer : List Text} (hbody : body :: outer <:+ s'.view.blocks) :
    body :: outer <:+ s.view.blocks ∨
    ∃ name closed p key q, Meets fs first s (.node (.block name body closed)) p ∧
      Starts fs (.node (.block name body closed)) p (.embed key) q ∧
      MeetsUnder fs (body :: outer) (.embed key) q task s' ∧ p.view.blocks = outer := by
  induction h with
  | here => exact .inl hbody
  | @step task₁ s₁ task₂ s₂ hmeets hstarts ih =>
      rcases hstarts.exists_block hbody with hthere | ⟨name, closed, key, rfl, rfl, houter⟩
      · refine (ih hthere).imp_right ?_
        rintro ⟨name, closed, p, key, q, htag, hembed, hunder, houter⟩
        exact ⟨name, closed, p, key, q, htag, hembed, hunder.step hstarts hbody, houter⟩
      · exact .inr ⟨name, closed, s₁, key, s₂, hmeets, hstarts, .here hbody, houter⟩

end OnTheWay

/-- Where partials are embedded, the stack of blocks does what closures do: a host that gives each
body the blocks around its tag has the same results. When a reference comes to a body, this is one
that was on the stack at first, with what was below it, or it is the body of a block that embeds
the partial on the way, and then it is compiled with the blocks that its tag was met with. -/
theorem bodies_lexically_scoped (fs : FileSystem) (depth : Nat) (source : Text) {s : Compilation}
    (hembeds : s.view.flags.runtime = false) :
    lexicalHost depth (closures s.view.blocks) source fs s = host depth source fs s ∧
    ∀ indent s₁ text s₂, Meets fs (.nodes source.nodes) s (.node (.reference .block indent)) s₁ →
      Starts fs (.node (.reference .block indent)) s₁ (.text text) s₂ →
      ∃ body, text = Text.indentLines (indent.getD []) body ∧
        (body :: s₂.view.blocks <:+ s.view.blocks ∨
        ∃ name closed p key q,
          Meets fs (.nodes source.nodes) s (.node (.block name body closed)) p ∧
          Starts fs (.node (.block name body closed)) p (.embed key) q ∧
          MeetsUnder fs (body :: p.view.blocks) (.embed key) q
            (.node (.reference .block indent)) s₁ ∧
          s₁.view.blocks = body :: p.view.blocks ∧ s₂.view.blocks = p.view.blocks) := by
  refine ⟨agree_lexicalHost fs depth _ source s hembeds rfl, ?_⟩
  intro indent s₁ text s₂ hmeets hstarts
  cases hstarts with
  | @enclosed body outer _ _ hblocks =>
      refine ⟨body, rfl, (hmeets.exists_block (hblocks ▸ List.suffix_rfl)).imp_right ?_⟩
      rintro ⟨name, closed, p, key, q, htag, hembed, hunder, rfl⟩
      exact ⟨name, closed, p, key, q, htag, hembed, hunder, hblocks, rfl⟩

/-- A block around a template, and a partial that is nothing but its block. -/
def surrounded : Compilation :=
  inBlocks [['y']] (initial { Options.standard with
    partials := .ofList [("a".toList, "\x7b\x7b> @partial-block\x7d\x7d".toList)] } none
    (.emptyAt ['/']))

/-- A block that refers to the block around it. -/
def nestedTemplate : Text :=
  "\x7b\x7b#> a\x7d\x7d[\x7b\x7b> @partial-block\x7d\x7d]\x7b\x7b/a\x7d\x7d".toList

theorem bodies_lexically_scoped_nested :
    surrounded.view.flags.runtime = false ∧
    (lexicalHost 4 [⟨['y'], []⟩] nestedTemplate (.emptyAt ['/']) surrounded).map Prod.fst =
      some "[y]".toList ∧
    ∃ indent s₁ text s₂ name body closed p,
      Meets (.emptyAt ['/']) (.nodes nestedTemplate.nodes) surrounded
        (.node (.reference .block indent)) s₁ ∧
      Starts (.emptyAt ['/']) (.node (.reference .block indent)) s₁ (.text text) s₂ ∧
      Meets (.emptyAt ['/']) (.nodes nestedTemplate.nodes) surrounded
        (.node (.block name body closed)) p ∧
      text = Text.indentLines (indent.getD []) body ∧ s₂.view.blocks = p.view.blocks := by
  have hcode : (host 4 nestedTemplate (.emptyAt ['/']) surrounded).map Prod.fst =
      some "[y]".toList := by
    decide +kernel
  let body : Text := "[\x7b\x7b> @partial-block\x7d\x7d]".toList
  let source : Text := "\x7b\x7b> @partial-block\x7d\x7d".toList
  have htemplate : nestedTemplate.nodes =
      [.literal [], .block "a".toList body true, .literal []] := by
    decide +kernel
  have htag : Meets (.emptyAt ['/']) (.nodes nestedTemplate.nodes) surrounded
      (.node (.block "a".toList body true)) surrounded :=
    htemplate ▸ (Meets.here.step (.tail .literal)).step .head
  let found := (((atIndent [] surrounded).counted Counter.references).preprocessed source
    "a".toList).cache "a".toList "a".toList source
  have hread : Runs (.emptyAt ['/']) (.read "a".toList) (atIndent [] surrounded) [] found :=
    .readFound (by decide +kernel) (by decide +kernel) rfl (.unitIdle (.inl rfl))
  let entered := inBlocks (body :: found.view.blocks) found
  have hkey : found.view.resolvedName (found.view.resolvedName "a".toList) = "a".toList := by
    decide +kernel
  have hembed : Starts (.emptyAt ['/']) (.node (.block "a".toList body true)) surrounded
      (.embed "a".toList) entered :=
    hkey ▸ .blockEmbed hread rfl
  have hcached : entered.view.cached.get? "a".toList = some source := by decide +kernel
  let text := embedded entered.view source
  have hsource : Starts (.emptyAt ['/']) (.embed "a".toList) entered (.text text)
      (entered.enter "a".toList) :=
    .embedGuarded hcached rfl (List.nodup_cons.mpr ⟨List.not_mem_nil, List.nodup_nil⟩)
  have hpartial : text.nodes = [.literal [], .reference .block (some []), .literal []] := by
    decide +kernel
  let inside := (entered.enter "a".toList).emit (.compile (entered.enter "a".toList).view text)
  have htext : Starts (.emptyAt ['/']) (.text text) (entered.enter "a".toList)
      (.nodes [.literal [], .reference .block (some []), .literal []]) inside :=
    hpartial ▸ .text
  have hmeets := ((((htag.step hembed).step hsource).step htext).step (.tail .literal)).step .head
  have hstarts : Starts (.emptyAt ['/']) (.node (.reference .block (some []))) inside _ _ :=
    .enclosed rfl
  obtain ⟨hagree, hbodies⟩ := bodies_lexically_scoped (.emptyAt ['/']) 4 nestedTemplate
    (s := surrounded) rfl
  obtain ⟨body', htext, hfirst | ⟨name, closed, p, key, q, hblock, -, -, -, houter⟩⟩ :=
    hbodies _ _ _ _ hmeets hstarts
  · have hlonger : 2 ≤ 1 := hfirst.length_le
    exact absurd hlonger (by decide)
  · exact ⟨rfl, (congrArg _ hagree).trans hcode, _, _, _, _, name, body', closed, p, hmeets, hstarts,
      hblock, htext, houter⟩

end Inlay.Handlebars
