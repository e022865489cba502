import Inlay.Proofs.Indentation
import Inlay.Proofs.TargetCode
import Inlay.Proofs.Termination
import Mathlib.Data.List.Nodup

/-!
# What embedding puts out

A plain template expands to characters and variables: each reference gives
the expansion of its source, which is indented first if the tag is alone on
its line. The expansion is about the sources as they were written. Compiled
code is the code of the expansion, although sources are escaped before they
are scanned and indented.
-/

namespace Inlay.Handlebars

open Target

/-! ## Expansion -/

/-- The source of a partial at the place of a tag. -/
def placed (noIndent : Bool) (indent : Option Text) (source : Text) : Text :=
  if noIndent then source else Text.indentLines (indent.getD []) source

/-- The nodes expand to these characters and variables. Partials on the chain are being
expanded already, and give nothing. -/
inductive Expands (source? : Text → Option Text) (noIndent : Bool) :
    List Text → List Node → List Output → Prop
  | nil {chain} : Expands source? noIndent chain [] []
  | literal {chain text ns out} :
      Expands source? noIndent chain ns out →
      Expands source? noIndent chain (.literal text :: ns) (text.map .char ++ out)
  | variable {chain name ns out} :
      Expands source? noIndent chain ns out →
      Expands source? noIndent chain (.variable name :: ns) (.variable name :: out)
  | embedded {chain name indent source ns a b} :
      source? name = some source → name ∉ chain →
      Expands source? noIndent (name :: chain) (placed noIndent indent source).nodes a →
      Expands source? noIndent chain ns b →
      Expands source? noIndent chain (.reference (.named name) indent :: ns) (a ++ b)
  | unresolved {chain name indent ns out} :
      source? name = none → Expands source? noIndent chain ns out →
      Expands source? noIndent chain (.reference (.named name) indent :: ns) out
  | repeated {chain name indent ns out} :
      name ∈ chain → Expands source? noIndent chain ns out →
      Expands source? noIndent chain (.reference (.named name) indent :: ns) out

namespace Expands

variable {source? : Text → Option Text} {noIndent : Bool} {chain : List Text}

theorem append {ns ms : List Node} {a b : List Output}
    (h₁ : Expands source? noIndent chain ns a) (h₂ : Expands source? noIndent chain ms b) :
    Expands source? noIndent chain (ns ++ ms) (a ++ b) := by
  induction h₁ with
  | nil => exact h₂
  | literal _ ih =>
      rw [List.append_assoc]
      exact .literal (ih h₂)
  | «variable» _ ih => exact .variable (ih h₂)
  | embedded hsource hchain hinner _ _ ih =>
      rw [List.append_assoc]
      exact .embedded hsource hchain hinner (ih h₂)
  | unresolved hsource _ ih => exact .unresolved hsource (ih h₂)
  | repeated hchain _ ih => exact .repeated hchain (ih h₂)

/-- There is one expansion at most. -/
theorem unique {ns : List Node} {a b : List Output} (h : Expands source? noIndent chain ns a)
    (h' : Expands source? noIndent chain ns b) : b = a := by
  induction h generalizing b with
  | nil =>
      cases h'
      rfl
  | literal _ ih =>
      cases h' with
      | literal h' => rw [ih h']
  | «variable» _ ih =>
      cases h' with
      | «variable» h' => rw [ih h']
  | embedded hsource hchain _ _ ih₁ ih₂ =>
      cases h' with
      | embedded hsource' _ hinner hrest =>
          obtain rfl := Option.some.inj (hsource.symm.trans hsource')
          rw [ih₁ hinner, ih₂ hrest]
      | unresolved hsource' _ => simp [hsource] at hsource'
      | repeated hchain' _ => exact absurd hchain' hchain
  | unresolved hsource _ ih =>
      cases h' with
      | embedded hsource' _ _ _ => simp [hsource] at hsource'
      | unresolved _ h' => exact ih h'
      | repeated _ h' => exact ih h'
  | repeated hchain _ ih =>
      cases h' with
      | embedded _ hchain' _ _ => exact absurd hchain hchain'
      | unresolved _ h' => exact ih h'
      | repeated _ h' => exact ih h'

end Expands

/-! ## The code of an expansion -/

/-- The code of characters and variables between two apostrophes. -/
def codeOf (out : List Output) : Text :=
  inside (out.map Output.piece)

@[simp] theorem codeOf_nil : codeOf [] = [] := rfl

@[simp] theorem codeOf_append (a b : List Output) : codeOf (a ++ b) = codeOf a ++ codeOf b := by
  simp [codeOf]

theorem codeOf_literal (text : Text) : codeOf (text.map .char) = text.escape.quote := by
  rw [codeOf, map_piece_map_char, inside_map_char]
  rfl

theorem codeOf_variable (name : Text) :
    codeOf [.variable name] = Fragments.standard.splice (lookup name.escape) := by
  have hlookup : lookup name.escape = "$in[".toList ++ (quoted name ++ [']']) := by
    unfold lookup quoted
    have hquote : name.escape.quote = name.protect := rfl
    rw [hquote]
    simp only [List.append_assoc, List.cons_append]
    rfl
  have hsplice : ∀ e : Text, Fragments.standard.splice e = "'.".toList ++ (e ++ ".'".toList) := by
    intro e
    unfold Fragments.splice
    simp only [List.append_assoc, List.cons_append]
    rfl
  rw [hlookup, hsplice]
  exact List.append_nil _

/-! ## States -/

/-- A state of a hook-free embedding compilation that looks for sources as the context `c`
does. All that is cached are escaped sources. -/
structure Mirrors (fs : FileSystem) (c : Context) (s : Compilation) : Prop where
  embeds : s.view.flags.runtime = false
  noIndent : s.view.flags.noIndent = c.flags.noIndent
  fragments : s.view.fragments = .standard
  hookFree : s.HookFree
  raw : ∀ name, s.context.rawSource? fs name = c.rawSource? fs name
  cached : ∀ name source, s.view.cached.get? name = some source →
    (c.rawSource? fs name).map Text.escape = some source

namespace Mirrors

variable {fs : FileSystem} {c : Context} {s : Compilation} (h : Mirrors fs c s)

include h

theorem emit (e : Event) : Mirrors fs c (s.emit e) :=
  ⟨h.embeds, h.noIndent, h.fragments, ⟨h.hookFree.hook, h.hookFree.aliases⟩, h.raw, h.cached⟩

theorem counted (name : Text) : Mirrors fs c (s.counted name) :=
  ⟨h.embeds, h.noIndent, h.fragments, ⟨h.hookFree.hook, h.hookFree.aliases⟩, h.raw, h.cached⟩

theorem report (d : Diagnostic) : Mirrors fs c (s.mapView (·.report d)) :=
  ⟨h.embeds, h.noIndent, h.fragments, ⟨h.hookFree.hook, h.hookFree.aliases⟩, h.raw, h.cached⟩

theorem atIndent (w : Text) : Mirrors fs c (atIndent w s) :=
  ⟨h.embeds, h.noIndent, h.fragments, ⟨h.hookFree.hook, h.hookFree.aliases⟩, h.raw, h.cached⟩

theorem enter (name : Text) : Mirrors fs c (s.enter name) :=
  ⟨h.embeds, h.noIndent, h.fragments, ⟨h.hookFree.hook, h.hookFree.aliases⟩, h.raw, h.cached⟩

theorem leave : Mirrors fs c s.leave :=
  ⟨h.embeds, h.noIndent, h.fragments, ⟨h.hookFree.hook, h.hookFree.aliases⟩, h.raw, h.cached⟩

theorem missed (name : Text) : Mirrors fs c (s.missed name) := by
  unfold Compilation.missed
  split
  · exact h
  · exact h.report _

theorem missedOnce (name : Text) : Mirrors fs c (s.missedOnce name) := by
  unfold Compilation.missedOnce
  split
  · exact h.report _
  · exact h

/-- A source that was found is cached. -/
theorem cache {name raw : Text} (hraw : c.rawSource? fs name = some raw) :
    Mirrors fs c (s.cache name name raw) := by
  have hnew : (c.rawSource? fs name).map Text.escape = some raw.escape := by rw [hraw, Option.map_some]
  exact ⟨h.embeds, h.noIndent, h.fragments, h.hookFree.cache name raw, h.raw,
    OrderedMap.forall_insertIfNew h.cached hnew⟩

end Mirrors

theorem mirrors_initial (fs : FileSystem) {options : Options}
    (hembeds : options.flags.runtime = false) (hfragments : options.fragments = .standard) :
    Mirrors fs (Context.start options none fs) (Compilation.initial options none fs) :=
  ⟨hembeds, rfl, hfragments, ⟨rfl, rfl⟩, fun _ => rfl, fun _ _ h => nomatch h⟩

/-! ## Runs -/

section Faithful

variable {fs : FileSystem} {c : Context} {source? : Text → Option Text} {P : Text → Prop}

/-- The names being embedded are these, with backslashes doubled as in escaped sources. -/
structure OnChain (s : Compilation) (chain : List Text) : Prop where
  eq : s.view.chain = chain.map Text.escape
  nodup : chain.Nodup

/-- The code is the code of an expansion of the nodes. -/
def Yields (fs : FileSystem) (c : Context) (source? : Text → Option Text) (chain : List Text)
    (ns : List Node) (code : Text) (t : Compilation) : Prop :=
  Mirrors fs c t ∧ ∃ out, Expands source? c.flags.noIndent chain ns out ∧ code = codeOf out

/-- What a task does with escaped plain text is what the expansion of the text itself says. -/
def Task.Faithful (fs : FileSystem) (c : Context) (source? : Text → Option Text)
    (P : Text → Prop) (s : Compilation) (code : Text) (t : Compilation) : Task → Prop
  | .text source => ∀ (raw : Text) chain, source = raw.escape → raw.Plain P → OnChain s chain →
      Yields fs c source? chain raw.nodes code t
  | .nodes ns => ∀ raws chain, ns = raws.map (Node.map Text.escape) → (∀ n ∈ raws, n.Plain P) →
      OnChain s chain → Yields fs c source? chain raws code t
  | .node n => ∀ raw chain, n = raw.map Text.escape → raw.Plain P → OnChain s chain →
      Yields fs c source? chain [raw] code t
  | .read name =>
      Mirrors fs c t ∧ t.view.cached.get? name = (c.rawSource? fs name).map Text.escape
  | .unit _ => t = s
  | .apart _ => True
  | .embed name => ∀ (raw : Text) indent chain, name = raw.escape →
      (Node.reference (.named raw) indent).Plain P → s.view.lineIndent = indent.getD [] →
      s.view.cached.get? name = (c.rawSource? fs name).map Text.escape → OnChain s chain →
      Yields fs c source? chain [.reference (.named raw) indent] code t

/-- Other nodes do not come from plain text. -/
theorem Task.faithful_of_not_plain {n : Node} {s t : Compilation} {code : Text}
    (hn : ¬ n.Plain fun _ => True) : (Task.node n).Faithful fs c source? P s code t := by
  intro raw chain heq hraw _
  exact absurd (heq ▸ hraw.map Text.escape) hn

/-- Escaping the placed source is placing the escaped source. -/
theorem escape_placed {indent : Option Text} (h : ∀ d ∈ indent.getD [], d = ' ' ∨ d = '\t')
    (noIndent : Bool) (raw : Text) :
    (placed noIndent indent raw).escape =
      if noIndent then raw.escape else Text.indentLines (indent.getD []) raw.escape := by
  have hw : '\\' ∉ indent.getD [] := by
    intro hmem
    rcases h _ hmem with h | h <;> cases h
  unfold placed
  split
  · rfl
  · exact Text.escape_indentLines hw raw

theorem plain_placed {indent : Option Text} (h : ∀ d ∈ indent.getD [], d = ' ' ∨ d = '\t')
    (noIndent : Bool) {raw : Text} (hraw : raw.Plain P) : (placed noIndent indent raw).Plain P := by
  have hw : ∀ d ∈ indent.getD [], isBlank d = true := by
    intro d hd
    rcases h d hd with rfl | rfl <;> decide
  unfold placed
  split
  · exact hraw
  · exact hraw.indentLines hw

/-- The names stay on the chain in a state with the same scope. -/
theorem OnChain.of_eq {s t : Compilation} {chain : List Text} (h : OnChain s chain)
    (ht : t.view.chain = s.view.chain) : OnChain t chain :=
  ⟨ht.trans h.eq, h.nodup⟩

theorem OnChain.enter {s : Compilation} {chain : List Text} (h : OnChain s chain) {raw : Text}
    (hraw : raw ∉ chain) : OnChain (s.enter raw.escape) (raw :: chain) :=
  ⟨congrArg (raw.escape :: ·) h.eq, List.nodup_cons.mpr ⟨hraw, h.nodup⟩⟩

/-- A name can be embedded unless it is on the chain. -/
theorem OnChain.nodup_iff {s : Compilation} {chain : List Text} (h : OnChain s chain)
    (raw : Text) : (raw.escape :: s.view.chain).Nodup ↔ raw ∉ chain := by
  rw [h.eq, ← List.map_cons, List.nodup_map_iff Text.escape_injective, List.nodup_cons]
  exact and_iff_left h.nodup

theorem Runs.faithful (hsource : ∀ name, P name → source? name = c.rawSource? fs name.escape)
    (hplain : ∀ name raw, P name → c.rawSource? fs name.escape = some raw → raw.Plain P)
    {task : Task} {s t : Compilation} {code : Text} (h : Runs fs task s code t)
    (hs : Mirrors fs c s) :
    task.Faithful fs c source? P s code t := by
  induction h with
  | @text source s code t _ ih =>
      rintro raw chain rfl hraw hchain
      exact ih (hs.emit _) raw.nodes chain hraw.nodes_escape (fun n hn => hraw.node hn)
        (hchain.of_eq rfl)
  | nil =>
      intro raws chain hraws _ _
      obtain rfl := List.map_eq_nil_iff.mp hraws.symm
      exact ⟨hs, [], .nil, rfl⟩
  | @cons n ns s a s₁ b t h₁ h₂ ih₁ ih₂ =>
      intro raws chain hraws hnodes hchain
      obtain ⟨raw, raws, rfl, hraw, hrest⟩ := List.map_eq_cons_iff.mp hraws.symm
      obtain ⟨hn, hns⟩ := List.forall_mem_cons.mp hnodes
      obtain ⟨hs₁, out₁, hout₁, rfl⟩ := ih₁ hs raw chain hraw.symm hn hchain
      obtain ⟨ht, out₂, hout₂, rfl⟩ :=
        ih₂ hs₁ raws chain hrest.symm hns (hchain.of_eq h₁.chain_eq)
      exact ⟨ht, out₁ ++ out₂, hout₁.append hout₂, (codeOf_append _ _).symm⟩
  | @literal text s =>
      intro raw chain heq _ _
      cases raw with
      | literal raw =>
          obtain rfl := Node.literal.inj heq
          refine ⟨hs, raw.map .char, ?_, (codeOf_literal raw).symm⟩
          have hout : Expands source? c.flags.noIndent chain [.literal raw] (raw.map .char ++ []) :=
            .literal .nil
          rwa [List.append_nil] at hout
      | _ => cases heq
  | @«variable» name s =>
      intro raw chain heq _ _
      cases raw with
      | «variable» raw =>
          obtain rfl := Node.variable.inj heq
          refine ⟨hs, [.variable raw], .variable .nil, ?_⟩
          rw [codeOf_variable, hs.fragments]
      | _ => cases heq
  | dispatched h₁ hruntime ih =>
      obtain ⟨hread, -⟩ := ih (hs.atIndent _)
      exact absurd hruntime (Bool.eq_false_iff.mp hread.embeds)
  | @embedded name indent s u s₁ code t h₁ _ h₂ ih₁ ih₂ =>
      intro raw chain heq hraw hchain
      cases raw with
      | reference target indent =>
          cases target with
          | named raw =>
              obtain ⟨hname, rfl⟩ := Node.reference.inj heq
              obtain rfl := Reference.named.inj hname
              obtain ⟨hread, hcached⟩ := ih₁ (hs.atIndent _)
              have hindent : s₁.view.lineIndent = indent.getD [] :=
                congrArg (fun c => c.lineIndent) h₁.scope_eq
              have hresolved : s₁.view.resolvedName (s₁.view.resolvedName raw.escape) = raw.escape := by
                rw [hread.hookFree.resolvedName_eq, hread.hookFree.resolvedName_eq]
              obtain ⟨ht, hout⟩ := ih₂ hread raw indent chain hresolved hraw hindent
                (by rw [hresolved]; exact hcached) (hchain.of_eq h₁.chain_eq)
              exact ⟨ht.atIndent _, hout⟩
          | _ => cases heq
      | _ => cases heq
  | dynamic => exact Task.faithful_of_not_plain id
  | enclosed => exact Task.faithful_of_not_plain id
  | enclosedCall => exact Task.faithful_of_not_plain id
  | notEnclosed => exact Task.faithful_of_not_plain id
  | blockDispatched => exact Task.faithful_of_not_plain id
  | blockEmbedded => exact Task.faithful_of_not_plain id
  | inlineKnown => exact Task.faithful_of_not_plain id
  | inlineNew => exact Task.faithful_of_not_plain id
  | strayClose => exact Task.faithful_of_not_plain id
  | @readKnown name s hknown =>
      rw [hs.hookFree.resolvedName_eq] at hknown
      obtain ⟨source, hcached⟩ := OrderedMap.mem_iff_exists_get?.mp hknown
      refine ⟨hs.counted _, ?_⟩
      rw [hs.cached name source hcached]
      exact hcached
  | @readMissing name s hunknown hnone =>
      rw [hs.hookFree.resolvedName_eq] at hunknown
      refine ⟨(hs.counted _).missed name, ?_⟩
      rw [Compilation.cached_missed, ← hs.raw name, hnone]
      exact OrderedMap.get?_eq_none_iff.mpr hunknown
  | @readFound name s raw source target u t hunknown hraw hparts h ih =>
      have hcounted := hs.counted Counter.references
      obtain ⟨rfl, rfl⟩ := hcounted.hookFree.parts_eq hparts
      rw [hs.hookFree.resolvedName_eq] at hunknown
      rw [hs.raw] at hraw
      rw [hcounted.hookFree.preprocessed_eq] at ih
      have hcache := hcounted.cache hraw
      obtain rfl : t = _ := ih hcache
      refine ⟨hcache, ?_⟩
      rw [hraw, Option.map_some]
      exact OrderedMap.get?_insertIfNew_self hunknown _
  | unitIdle => rfl
  | unitNew hruntime => exact absurd hruntime (Bool.eq_false_iff.mp hs.embeds)
  | apart => trivial
  | @embedMissing name s hnone =>
      rintro raw indent chain rfl hraw _ hcached _
      refine ⟨hs.missedOnce _, [], .unresolved ?_ .nil, rfl⟩
      rw [hnone] at hcached
      rw [hsource raw hraw.1]
      exact Option.map_eq_none_iff.mp hcached.symm
  | embedOpen _ hruntime => exact absurd hruntime (Bool.eq_false_iff.mp hs.embeds)
  | @embedGuarded name s source code t hcached _ hnodup h ih =>
      rintro raw indent chain rfl hraw hindent hfound hchain
      have hnew := (hchain.nodup_iff raw).mp hnodup
      rw [hcached] at hfound
      obtain ⟨written, hwritten, rfl⟩ := Option.map_eq_some_iff.mp hfound.symm
      -- the indentation has no backslashes, so it may as well be put in before escaping
      have hplaced : Inlay.embedded s.view written.escape =
          (placed c.flags.noIndent indent written).escape := by
        rw [escape_placed hraw.2, ← hs.noIndent, ← hindent]
        rfl
      obtain ⟨ht, out, hout, hcode⟩ := ih (hs.enter _) (placed c.flags.noIndent indent written)
        (raw :: chain) hplaced (plain_placed hraw.2 _ (hplain raw _ hraw.1 hwritten))
        (hchain.enter hnew)
      refine ⟨ht.leave, out, ?_, hcode⟩
      have hexpands := Expands.embedded ((hsource raw hraw.1).trans hwritten) hnew hout .nil
      rwa [List.append_nil] at hexpands
  | @embedRepeated name s source _ _ hrepeated =>
      rintro raw indent chain rfl hraw _ _ hchain
      have hmem : raw ∈ chain := by
        by_contra hnew
        exact hrepeated ((hchain.nodup_iff raw).mpr hnew)
      exact ⟨hs.report _, [], .repeated hmem .nil, rfl⟩

/-- The code of an embedded template is the code of its expansion. -/
theorem exists_expansion {options : Options} {template : Text}
    (hsource : ∀ name, P name →
      source? name = (Context.start options none fs).rawSource? fs name.escape)
    (hplain : ∀ name raw, P name →
      (Context.start options none fs).rawSource? fs name.escape = some raw → raw.Plain P)
    (htemplate : template.Plain P) (hembeds : options.flags.runtime = false)
    (hfragments : options.fragments = .standard) :
    ∃ outcome out, compile fs options none template = some outcome ∧
      Expands source? options.flags.noIndent [] template.nodes out ∧
      outcome.code = codeOf out := by
  obtain ⟨code, middle, final, hrun, hcompiles⟩ := exists_compiles fs options template
  have hstart := mirrors_initial fs hembeds hfragments
  have hchain : OnChain (Compilation.initial options none fs) [] := ⟨rfl, List.nodup_nil⟩
  obtain ⟨-, out, hout, hcode⟩ :=
    hcompiles.runs.faithful hsource hplain hstart template [] rfl htemplate hchain
  refine ⟨Outcome.ofRun (code, final), out, ?_, hout, hcode⟩
  unfold compile
  rw [hrun]
  rfl

end Faithful

/-- Embedding is faithful to the texts as they were written. If tags are variables and
references only, and no name has a backslash, then the code between two apostrophes is written
by one sequence of literals and variables only, and that spells the one expansion of the
template. -/
theorem static_code_faithful (fs : FileSystem) (options : Options) (template : Text)
    (hembeds : options.flags.runtime = false) (hfragments : options.fragments = .standard)
    (htemplate : template.Plain fun name => '\\' ∉ name)
    (hplain : ∀ name source, (Context.start options none fs).rawSource? fs name = some source →
      source.Plain fun name => '\\' ∉ name) :
    ∃ outcome ts out,
      compile fs options none template = some outcome ∧
      (∀ other, written other = '\'' :: (outcome.code ++ ['\'']) ↔ other = ts) ∧
      ts.flatMap Token.pieces = out.map Output.piece ∧
      ∀ other, Expands ((Context.start options none fs).rawSource? fs) options.flags.noIndent []
        template.nodes other ↔ other = out := by
  have hsource : ∀ name : Text, '\\' ∉ name →
      (Context.start options none fs).rawSource? fs name =
        (Context.start options none fs).rawSource? fs name.escape := by
    intro name hname
    rw [Text.escape_of_not_mem hname]
  obtain ⟨outcome, out, hcompile, hout, hcode⟩ :=
    exists_expansion hsource (fun name raw _ => hplain name.escape raw) htemplate hembeds hfragments
  refine ⟨outcome, tokens [] (out.map Output.piece), out, hcompile, ?_, ?_, ?_⟩
  · intro other
    rw [hcode]
    exact written_eq_inside_iff
  · exact flatMap_pieces_tokens [] _
  · intro other
    constructor
    · exact hout.unique
    · rintro rfl
      exact hout

/-- A partial that refers to itself on an indented line, with both characters that are escaped. -/
def selfReferringOptions : Options :=
  { Options.standard with
    partials := .ofList
      [("p".toList, "it's \\ \x7b\x7bw\x7d\x7d\n\x7b\x7b> p\x7d\x7d".toList)] }

def selfReferringTemplate : Text :=
  "a\x7b\x7bv\x7d\x7d\n  \x7b\x7b> p\x7d\x7d\n".toList

/-- The partial is there once, and nothing of it where it refers to itself. -/
def selfReferringOutput : List Output :=
  "a".toList.map .char ++ .variable "v".toList ::
    ("\n  it's \\ ".toList.map .char ++ .variable "w".toList :: "\n".toList.map .char)

def selfReferringTokens : List Token :=
  [.literal "a".toList, .expr (.variable "v".toList), .literal "\n  it's \\ ".toList,
    .expr (.variable "w".toList), .literal "\n".toList]

theorem static_code_faithful_selfReferring :
    (∀ source ∈ rawTexts (.emptyAt ['/'])
      (Context.start selfReferringOptions none (.emptyAt ['/'])).toView selfReferringTemplate,
      source.Plain fun name => '\\' ∉ name) ∧
    (compile (.emptyAt ['/']) selfReferringOptions none selfReferringTemplate).map (·.code) =
      some "a'.$in['v'].'\n  it\\'s \\\\ '.$in['w'].'\n".toList ∧
    (∀ other, written other = "'a'.$in['v'].'\n  it\\'s \\\\ '.$in['w'].'\n'".toList ↔
      other = selfReferringTokens) ∧
    selfReferringTokens.flatMap Token.pieces = selfReferringOutput.map Output.piece ∧
    ∀ other, Expands ((Context.start selfReferringOptions none (.emptyAt ['/'])).rawSource?
      (.emptyAt ['/'])) false [] selfReferringTemplate.nodes other ↔ other = selfReferringOutput := by
  have hplain : ∀ source ∈ rawTexts (.emptyAt ['/'])
      (Context.start selfReferringOptions none (.emptyAt ['/'])).toView selfReferringTemplate,
      source.Plain fun name => '\\' ∉ name := by
    decide +kernel
  have hcode : (compile (.emptyAt ['/']) selfReferringOptions none selfReferringTemplate).map (·.code) =
      some "a'.$in['v'].'\n  it\\'s \\\\ '.$in['w'].'\n".toList := by
    decide +kernel
  obtain ⟨outcome, ts, out, hcompile, hwritten, hpieces, hexpands⟩ :=
    static_code_faithful (.emptyAt ['/']) selfReferringOptions selfReferringTemplate rfl rfl
      (hplain _ List.mem_cons_self)
      fun name source h => hplain source (mem_rawTexts_of_rawSource? h _)
  have houtcome : outcome.code = "a'.$in['v'].'\n  it\\'s \\\\ '.$in['w'].'\n".toList := by
    rw [hcompile] at hcode
    exact Option.some.inj hcode
  rw [houtcome] at hwritten
  obtain rfl : selfReferringTokens = ts := (hwritten selfReferringTokens).mp (by decide +kernel)
  have hinjective : Function.Injective Output.piece := by
    intro o o' h
    cases o <;> cases o' <;> simp_all [Output.piece]
  obtain rfl : selfReferringOutput = out := List.map_injective_iff.mpr hinjective hpieces
  exact ⟨hplain, hcode, hwritten, hpieces, hexpands⟩

end Inlay.Handlebars
