import Inlay.Proofs.References
import Inlay.Proofs.Renaming

/-!
# What holds of all sources

With dispatching, the texts that a compilation comes to are the template,
cached sources and bodies, and these are masked before they are compiled. So
a property of names and sources holds to the end if it is kept where a
source is found, where one is defined, and where a copy is merged back.
-/

namespace Inlay.Handlebars

open Compilation

/-- The second state finds the same sources as the first one, and preprocesses them alike. -/
structure FindsAlike (fs : FileSystem) (s t : Compilation) : Prop where
  raw : ∀ name, t.context.rawSource? fs name = s.context.rawSource? fs name
  hook : t.context.hook = s.context.hook

namespace FindsAlike

variable {fs : FileSystem} {s t r : Compilation}

theorem refl (s : Compilation) : FindsAlike fs s s :=
  ⟨fun _ => rfl, rfl⟩

theorem of_scope (h : FindsAlike fs s t) (hscope : r.scope = t.scope) : FindsAlike fs s r := by
  constructor
  · intro name
    have hsame : r.context.rawSource? fs name = t.context.rawSource? fs name :=
      congrArg (fun c => c.rawSource? fs name) hscope
    exact hsame.trans (h.raw name)
  · have hsame : r.context.hook = t.context.hook := congrArg (fun c => c.hook) hscope
    exact hsame.trans h.hook

end FindsAlike

/-- What holds of the cached sources and the names of a compilation, and of the texts that it
comes to, stays so from the first state on. -/
structure Upheld (fs : FileSystem) (first : Compilation) (I : Names → Prop) (P : Text → Prop) :
    Prop where
  found : ∀ s, FindsAlike fs first s → ∀ name raw source target n,
    s.context.rawSource? fs name = some raw → s.context.preprocess raw name = (source, target) →
    I n → I (n.cache name target source)
  defined : ∀ n name body, P body → I n → I ⟨n.aliases, n.cached.insert name (Keyword.unmask body)⟩
  merged : ∀ n m, I n → I m → I (n.merge m)
  source : ∀ n name source, I n → n.cached.get? name = some source → P source
  masked : ∀ text, P text → P (Keyword.mask text)
  body : ∀ text, P text → ∀ n ∈ text.nodes, ∀ body, n.body? = some body → P body

/-- The texts that the task comes to are such. With dispatching nothing is embedded. -/
def Task.Bears (P : Text → Prop) : Task → Prop
  | .text source => P source
  | .nodes ns => ∀ n ∈ ns, ∀ body, n.body? = some body → P body
  | .node n => ∀ body, n.body? = some body → P body
  | .apart template => P template
  | .embed _ => False
  | _ => True

variable {fs : FileSystem} {flags : Flags} {fragments : Fragments} {first : Compilation} {I : Names → Prop}
  {P : Text → Prop}

theorem Runs.upheld (hupheld : Upheld fs first I P) {task : Task} {s t : Compilation} {code : Text}
    (h : Runs fs task s code t) (hs : Calling flags fragments s) (hfinds : FindsAlike fs first s)
    (htask : task.Bears P) (hnames : I s.names) : I t.names := by
  induction h with
  | text _ ih =>
      exact ih (hs.emit _) ⟨hfinds.raw, hfinds.hook⟩ (fun n hn => hupheld.body _ htask n hn) hnames
  | nil => exact hnames
  | cons h₁ _ ih₁ ih₂ =>
      obtain ⟨hn, hns⟩ := List.forall_mem_cons.mp htask
      exact ih₂ (hs.after h₁) (hfinds.of_scope h₁.scope_eq) hns (ih₁ hs hfinds hn hnames)
  | literal => exact hnames
  | «variable» => exact hnames
  | dispatched _ _ ih => exact ih (hs.atIndent _) ⟨hfinds.raw, hfinds.hook⟩ trivial hnames
  | embedded h₁ hruntime =>
      have hread := (hs.atIndent _).after h₁
      simp [hread.dispatches] at hruntime
  | @dynamic expr indent s =>
      show I (dynamicNoted expr _).names
      rw [names_dynamicNoted expr ((atIndent (indent.getD []) s).counted Counter.dynamicReferences)]
      exact hnames
  | enclosed hblocks => simp [hs.blocks] at hblocks
  | enclosedCall => exact hnames
  | notEnclosed => exact hnames
  | @blockDispatched name body closed s u s₁ unit t h₁ _ h₂ ih₁ ih₂ =>
      have hs₀ := (hs.closeChecked name closed).atIndent []
      have hclosed := hfinds.of_scope (scope_closeChecked name closed s)
      have hfinds₀ : FindsAlike fs first (atIndent [] (closeChecked name closed s)) :=
        ⟨hclosed.raw, hclosed.hook⟩
      rw [← names_closeChecked name closed s] at hnames
      have hread := ih₁ hs₀ hfinds₀ trivial hnames
      exact ih₂ (hs₀.after h₁) (hfinds₀.of_scope h₁.scope_eq) (htask body rfl) hread
  | blockEmbedded h₁ hruntime =>
      have hread := ((hs.closeChecked _ _).atIndent []).after h₁
      simp [hread.dispatches] at hruntime
  | @inlineKnown name body closed s =>
      rw [← names_closeChecked "inline".toList closed s] at hnames
      exact hnames
  | @inlineNew name body closed s u t hnew _ ih =>
      have hclosed := hs.closeChecked "inline".toList closed
      have hscope : (inlineCached name (Keyword.unmask body) (inlineNoted name (Keyword.unmask body)
          (closeChecked "inline".toList closed s))).scope = s.scope := by
        rw [scope_inlineCached, scope_inlineNoted, scope_closeChecked]
      rw [← cached_inlineNoted name (Keyword.unmask body) "inline".toList closed] at hnew
      rw [names_inlineCached, names_closeChecked] at ih
      exact ih (hclosed.inlineCached hnew (Keyword.unmask body)) (hfinds.of_scope hscope) trivial
        (hupheld.defined _ name body (htask body rfl) hnames)
  | strayClose => exact hnames
  | readKnown => exact hnames
  | @readMissing name s =>
      rw [names_missed]
      exact hnames
  | @readFound name s raw source target u t _ hfound hparts _ ih =>
      have hs' := ((hs.counted Counter.references).preprocessed raw name).cache name target source
      have hcounted : FindsAlike fs first (s.counted Counter.references) := ⟨hfinds.raw, hfinds.hook⟩
      have hread := hcounted.of_scope (scope_preprocessed raw name (s.counted Counter.references))
      rw [names_found] at ih
      exact ih hs' ⟨hread.raw, hread.hook⟩ trivial
        (hupheld.found _ hcounted name raw source target _ hfound hparts hnames)
  | unitIdle => exact hnames
  | @unitNew name s source unit t _ _ hsource _ ih =>
      exact ih hs hfinds (hupheld.source _ name source hnames hsource) hnames
  | apart _ ih =>
      exact hupheld.merged _ _ hnames
        (ih hs.isolated ⟨hfinds.raw, hfinds.hook⟩ (hupheld.masked _ htask) hnames)
  | embedMissing => exact htask.elim
  | embedOpen => exact htask.elim
  | embedGuarded => exact htask.elim
  | embedRepeated => exact htask.elim

theorem ReadsAll.upheld (hupheld : Upheld fs first I P) {names : List Text} {s t : Compilation}
    (h : ReadsAll fs names s t) (hs : Calling flags fragments s) (hfinds : FindsAlike fs first s)
    (hnames : I s.names) : I t.names := by
  induction h with
  | nil => exact hnames
  | cons hread _ ih =>
      have hfirst := hread.upheld hupheld hs hfinds trivial hnames
      exact ih (hs.after hread) (hfinds.of_scope hread.scope_eq) hfirst

theorem Compiles.upheld {options : Options} {hook : Option Hook} {template code : Text}
    {middle final : Compilation} (hupheld : Upheld fs (initial options hook fs) I P)
    (h : Compiles fs options hook template code middle final) (hruntime : options.flags.runtime = true)
    (htemplate : P template.escape) (hnames : I (initial options hook fs).names) : I final.names := by
  have hs := calling_initial fs hook hruntime
  have hfinds : FindsAlike fs (initial options hook fs) (initial options hook fs) := .refl _
  have hmiddle := h.runs.upheld hupheld hs hfinds htemplate hnames
  exact h.reads.upheld hupheld (hs.after h.runs) (hfinds.of_scope h.runs.scope_eq) hmiddle

end Inlay.Handlebars
