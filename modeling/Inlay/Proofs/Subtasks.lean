import Inlay.Proofs.Frame

/-!
# What a task starts

A task comes to other tasks on its way, each in a state of its own. What is
met on the way is said without the end of the run, so it can be said of runs
that have no end.
-/

namespace Inlay.Handlebars

/-- The task in the one state starts the other task in the other state. There is one rule for
each task that a rule of a run goes through. -/
inductive Starts (fs : FileSystem) : Task → Compilation → Task → Compilation → Prop
  | text {source s} :
      Starts fs (.text source) s (.nodes source.nodes) (s.emit (.compile s.view source))
  | head {n ns s} : Starts fs (.nodes (n :: ns)) s (.node n) s
  | tail {n ns s a s₁} :
      Runs fs (.node n) s a s₁ → Starts fs (.nodes (n :: ns)) s (.nodes ns) s₁
  | referenceRead {name indent s} :
      Starts fs (.node (.reference (.named name) indent)) s (.read name)
        (atIndent (indent.getD []) s)
  | referenceEmbed {name indent s u s₁} :
      Runs fs (.read name) (atIndent (indent.getD []) s) u s₁ → s₁.view.flags.runtime = false →
      Starts fs (.node (.reference (.named name) indent)) s
        (.embed (s₁.view.resolvedName (s₁.view.resolvedName name))) s₁
  | enclosed {body outer indent s} :
      s.view.blocks = body :: outer →
      Starts fs (.node (.reference .block indent)) s (.text (Text.indentLines (indent.getD []) body))
        (inBlocks outer (atIndent (indent.getD []) s))
  | blockRead {name body closed s} :
      Starts fs (.node (.block name body closed)) s (.read name)
        (atIndent [] (closeChecked name closed s))
  | blockApart {name body closed s u s₁} :
      Runs fs (.read name) (atIndent [] (closeChecked name closed s)) u s₁ →
      s₁.view.flags.runtime = true →
      Starts fs (.node (.block name body closed)) s (.apart body) s₁
  | blockEmbed {name body closed s u s₁} :
      Runs fs (.read name) (atIndent [] (closeChecked name closed s)) u s₁ →
      s₁.view.flags.runtime = false →
      Starts fs (.node (.block name body closed)) s
        (.embed (s₁.view.resolvedName (s₁.view.resolvedName name)))
        (inBlocks (body :: s₁.view.blocks) s₁)
  | inline {name body closed s} :
      name ∉ s.view.cached →
      Starts fs (.node (.inlinePartial name body closed)) s (.unit name)
        (inlineCached name (Keyword.unmask body)
          (inlineNoted name (Keyword.unmask body) (closeChecked "inline".toList closed s)))
  | found {name s raw source target} :
      s.view.resolvedName name ∉ s.view.cached → s.context.rawSource? fs name = some raw →
      (s.counted Counter.references).context.preprocess raw name = (source, target) →
      Starts fs (.read name) s (.unit target)
        (((s.counted Counter.references).preprocessed raw name).cache name target source)
  | unit {name s source} :
      s.view.flags.runtime = true → name ∉ s.view.table →
      s.view.cached.get? name = some source → Starts fs (.unit name) s (.apart source) s
  | apart {template s} : Starts fs (.apart template) s (.text (Keyword.mask template)) s.isolated
  | embedOpen {name s source} :
      s.view.cached.get? name = some source → s.view.flags.runtime = true →
      Starts fs (.embed name) s (.text (embedded s.view source)) s
  | embedGuarded {name s source} :
      s.view.cached.get? name = some source → s.view.flags.runtime = false →
      (name :: s.view.chain).Nodup →
      Starts fs (.embed name) s (.text (embedded s.view source)) (s.enter name)

/-- The task is, or comes at last to, the other task. -/
inductive Meets (fs : FileSystem) (task : Task) (s : Compilation) : Task → Compilation → Prop
  | here : Meets fs task s task s
  | step {task₁ s₁ task₂ s₂} :
      Meets fs task s task₁ s₁ → Starts fs task₁ s₁ task₂ s₂ → Meets fs task s task₂ s₂

theorem Starts.meets {fs : FileSystem} {task task₁ task₂ : Task} {s s₁ s₂ : Compilation}
    (h : Starts fs task s task₁ s₁) (h₁ : Meets fs task₁ s₁ task₂ s₂) :
    Meets fs task s task₂ s₂ := by
  induction h₁ with
  | here => exact .step .here h
  | step _ hstarts ih => exact .step ih hstarts

/-! ## Calls of the host -/

/-- The texts that the host was called for are met by the task, each of them in the state that the
call was made in. -/
def AllMet (fs : FileSystem) (task : Task) (s : Compilation) (events : List Event) : Prop :=
  ∀ v source, .compile v source ∈ events → ∃ s', Meets fs task s (.text source) s' ∧ s'.view = v

section

variable {fs : FileSystem} {task task' : Task} {s s' : Compilation} {events others : List Event}

theorem AllMet.nil : AllMet fs task s [] :=
  fun _ _ h => absurd h List.not_mem_nil

theorem AllMet.append (h : AllMet fs task s events) (hothers : AllMet fs task s others) :
    AllMet fs task s (events ++ others) :=
  fun v source hmem => (List.mem_append.mp hmem).elim (h v source) (hothers v source)

theorem Starts.allMet (h : Starts fs task s task' s') (hmet : AllMet fs task' s' events) :
    AllMet fs task s events := by
  intro v source hmem
  obtain ⟨s₁, hmeets, hview⟩ := hmet v source hmem
  exact ⟨s₁, h.meets hmeets, hview⟩

theorem trace_closeChecked (name : Text) (closed : Bool) (s : Compilation) :
    (closeChecked name closed s).trace = s.trace := by
  cases closed <;> rfl

theorem trace_dynamicNoted (expr : Text) (s : Compilation) : (dynamicNoted expr s).trace = s.trace := by
  unfold dynamicNoted
  split <;> rfl

theorem trace_missed (name : Text) (s : Compilation) : (s.missed name).trace = s.trace := by
  unfold Compilation.missed
  split <;> rfl

theorem trace_missedOnce (name : Text) (s : Compilation) : (s.missedOnce name).trace = s.trace := by
  unfold Compilation.missedOnce
  split <;> rfl

/-- Preprocessing is no call of the host. -/
theorem exists_trace_preprocessed (raw name : Text) (task : Task) (s s' : Compilation) :
    ∃ new, (s.preprocessed raw name).trace = new ++ s.trace ∧ AllMet fs task s' new := by
  unfold Compilation.preprocessed
  split
  · refine ⟨[.preprocess s.view raw name], rfl, fun v source hmem => ?_⟩
    cases List.mem_singleton.mp hmem
  · exact ⟨[], rfl, .nil⟩

end

/-- Each call of the host in a run is met by the task of the run. So what is said of all that is met
is said of all that is done. -/
theorem Runs.allMet {fs : FileSystem} {task : Task} {s t : Compilation} {code : Text}
    (h : Runs fs task s code t) : ∃ new, t.trace = new ++ s.trace ∧ AllMet fs task s new := by
  induction h with
  | @text source s code t _ ih =>
      obtain ⟨new, ht, hmet⟩ := ih
      have hself : AllMet fs (.text source) s [.compile s.view source] := by
        intro v other hmem
        obtain ⟨rfl, rfl⟩ := Event.compile.inj (List.mem_singleton.mp hmem)
        exact ⟨s, .here, rfl⟩
      have hstart : Starts fs (.text source) s (.nodes source.nodes) (s.emit (.compile s.view source)) :=
        .text
      exact ⟨new ++ [.compile s.view source], by rw [ht, List.append_assoc]; rfl,
        (hstart.allMet hmet).append hself⟩
  | nil => exact ⟨[], rfl, .nil⟩
  | cons hnode _ ih₁ ih₂ =>
      obtain ⟨first, hfirst, hmet₁⟩ := ih₁
      obtain ⟨rest, hrest, hmet₂⟩ := ih₂
      exact ⟨rest ++ first, by rw [hrest, hfirst, List.append_assoc],
        (Starts.tail hnode |>.allMet hmet₂).append (Starts.head.allMet hmet₁)⟩
  | literal => exact ⟨[], rfl, .nil⟩
  | «variable» => exact ⟨[], rfl, .nil⟩
  | dispatched _ _ ih =>
      obtain ⟨new, ht, hmet⟩ := ih
      exact ⟨new, ht, Starts.referenceRead.allMet hmet⟩
  | embedded hread hembeds _ ih₁ ih₂ =>
      obtain ⟨first, hfirst, hmet₁⟩ := ih₁
      obtain ⟨rest, hrest, hmet₂⟩ := ih₂
      refine ⟨rest ++ first, ?_,
        (Starts.referenceEmbed hread hembeds |>.allMet hmet₂).append (Starts.referenceRead.allMet hmet₁)⟩
      exact hrest.trans (by rw [hfirst, List.append_assoc]; rfl)
  | @dynamic expr indent s => exact ⟨[], trace_dynamicNoted .., .nil⟩
  | enclosed hblocks _ ih =>
      obtain ⟨new, ht, hmet⟩ := ih
      exact ⟨new, ht, (Starts.enclosed hblocks).allMet hmet⟩
  | enclosedCall => exact ⟨[], rfl, .nil⟩
  | notEnclosed => exact ⟨[], rfl, .nil⟩
  | @blockDispatched name body closed s u s₁ unit t hread hruntime _ ih₁ ih₂ =>
      obtain ⟨first, hfirst, hmet₁⟩ := ih₁
      obtain ⟨rest, hrest, hmet₂⟩ := ih₂
      have hfirst : s₁.trace = first ++ s.trace :=
        hfirst.trans (congrArg (first ++ ·) (trace_closeChecked name closed s))
      refine ⟨rest ++ first, ?_,
        (Starts.blockApart hread hruntime |>.allMet hmet₂).append (Starts.blockRead.allMet hmet₁)⟩
      exact hrest.trans (by rw [hfirst, List.append_assoc])
  | @blockEmbedded name body closed s u s₁ code t hread hembeds _ ih₁ ih₂ =>
      obtain ⟨first, hfirst, hmet₁⟩ := ih₁
      obtain ⟨rest, hrest, hmet₂⟩ := ih₂
      have hfirst : s₁.trace = first ++ s.trace :=
        hfirst.trans (congrArg (first ++ ·) (trace_closeChecked name closed s))
      refine ⟨rest ++ first, ?_,
        (Starts.blockEmbed hread hembeds |>.allMet hmet₂).append (Starts.blockRead.allMet hmet₁)⟩
      have hrest : t.trace = rest ++ s₁.trace := hrest
      exact hrest.trans (by rw [hfirst, List.append_assoc])
  | @inlineKnown name body closed s _ => exact ⟨[], trace_closeChecked .., .nil⟩
  | @inlineNew name body closed s _ t hnew _ ih =>
      obtain ⟨new, ht, hmet⟩ := ih
      exact ⟨new, ht.trans (congrArg (new ++ ·) (trace_closeChecked ..)), (Starts.inline hnew).allMet hmet⟩
  | strayClose => exact ⟨[], rfl, .nil⟩
  | readKnown => exact ⟨[], rfl, .nil⟩
  | readMissing => exact ⟨[], trace_missed .., .nil⟩
  | @readFound name s raw source target u t hnew hraw hparts _ ih =>
      obtain ⟨new, ht, hmet⟩ := ih
      obtain ⟨first, hfirst, hnone⟩ :=
        exists_trace_preprocessed raw name (.read name) (s.counted Counter.references) s
      refine ⟨new ++ first, ht.trans ?_, ((Starts.found hnew hraw hparts).allMet hmet).append hnone⟩
      exact (congrArg (new ++ ·) hfirst).trans (List.append_assoc ..).symm
  | unitIdle => exact ⟨[], rfl, .nil⟩
  | unitNew hruntime hnew hsource _ ih =>
      obtain ⟨new, ht, hmet⟩ := ih
      exact ⟨new, ht, (Starts.unit hruntime hnew hsource).allMet hmet⟩
  | apart _ ih =>
      obtain ⟨new, ht, hmet⟩ := ih
      exact ⟨new, ht, Starts.apart.allMet hmet⟩
  | embedMissing => exact ⟨[], trace_missedOnce .., .nil⟩
  | embedOpen hsource hruntime _ ih =>
      obtain ⟨new, ht, hmet⟩ := ih
      exact ⟨new, ht, (Starts.embedOpen hsource hruntime).allMet hmet⟩
  | embedGuarded hsource hembeds hnodup _ ih =>
      obtain ⟨new, ht, hmet⟩ := ih
      exact ⟨new, ht, (Starts.embedGuarded hsource hembeds hnodup).allMet hmet⟩
  | embedRepeated => exact ⟨[], rfl, .nil⟩

/-! ## What is kept on the way -/

/-- A task is started after updates, or with a copy. -/
theorem Starts.works {fs : FileSystem} {task task' : Task} {s s' : Compilation}
    (h : Starts fs task s task' s') : Works fs s s' ∨ s' = s.isolated := by
  cases h with
  | text => exact .inl (.single (.called _))
  | tail hnode => exact .inl hnode.works
  | referenceRead => exact .inl (.single (.indented _))
  | referenceEmbed hread => exact .inl (.trans (.single (.indented _)) hread.works)
  | enclosed => exact .inl (.update (.single (.indented _)) (.surrounded _))
  | blockRead => exact .inl (.update (.closeChecked ..) (.indented _))
  | blockApart hread =>
      have hread := Works.trans (.update (.closeChecked ..) (.indented _)) hread.works
      exact .inl hread
  | blockEmbed hread =>
      have hread := Works.trans (.update (.closeChecked ..) (.indented _)) hread.works
      exact .inl (hread.update (.surrounded _))
  | @inline name body closed _ hnew =>
      rw [← cached_inlineNoted name (Keyword.unmask body) "inline".toList closed] at hnew
      exact .inl (.update (.trans (.closeChecked ..) (.inlineNoted ..)) (.defined _ hnew))
  | found hnew hraw hparts => exact .inl (.update (.single (.counted _)) (.found hnew hraw hparts))
  | apart => exact .inr rfl
  | embedGuarded _ _ hnodup => exact .inl (.single (.entered hnodup))
  | _ => exact .inl .done

/-- Dispatching is on or off throughout. -/
theorem Starts.flags_eq {fs : FileSystem} {task task' : Task} {s s' : Compilation}
    (h : Starts fs task s task' s') : s'.view.flags = s.view.flags := by
  cases h with
  | tail hnode => exact hnode.flags_eq
  | referenceEmbed hread => exact hread.flags_eq
  | @blockRead name body closed => cases closed <;> rfl
  | @blockApart name body closed _ _ _ hread => exact hread.flags_eq.trans (by cases closed <;> rfl)
  | @blockEmbed name body closed _ _ _ hread => exact hread.flags_eq.trans (by cases closed <;> rfl)
  | @inline name body closed => cases closed <;> rfl
  | @found name s raw source target =>
      exact congrArg (fun c => c.flags) (Compilation.scope_preprocessed raw name _)
  | _ => rfl

theorem Meets.flags_eq {fs : FileSystem} {task task' : Task} {s s' : Compilation}
    (h : Meets fs task s task' s') : s'.view.flags = s.view.flags := by
  induction h with
  | here => rfl
  | step _ hstarts ih => exact hstarts.flags_eq.trans ih

/-- Where partials are embedded, reading one makes no unit. -/
theorem Meets.of_read {fs : FileSystem} {name : Text} {task : Task} {s s' : Compilation}
    (h : Meets fs (.read name) s task s') (hembeds : s.view.flags.runtime = false) :
    task = .read name ∧ s' = s ∨ ∃ target, task = .unit target := by
  induction h with
  | here => exact .inl ⟨rfl, rfl⟩
  | step hmeets hstarts ih =>
      rcases ih with ⟨rfl, rfl⟩ | ⟨target, rfl⟩
      · cases hstarts with
        | found => exact .inr ⟨_, rfl⟩
      · cases hstarts with
        | unit hruntime _ _ =>
            rw [hmeets.flags_eq, hembeds] at hruntime
            cases hruntime

end Inlay.Handlebars
