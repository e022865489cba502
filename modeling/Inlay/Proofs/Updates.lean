import Inlay.Proofs.Runs

/-!
# Updates of the state

All that a run does to the state it does by few updates: it notes a call, a
count or a diagnostic, caches a source, enters a unit, defines an inline
partial, and moves between scopes. A nested compilation does the same to a
copy. What every update keeps, and a merged copy too, is kept by all runs.
-/

namespace Inlay.Handlebars

open Compilation

/-- One update. A source is cached for a name that has none, and a partial is entered that is not
being embedded. -/
inductive Update (fs : FileSystem) (s : Compilation) : Compilation → Prop
  | called (source : Text) : Update fs s (s.emit (.compile s.view source))
  | counted (name : Text) : Update fs s (s.counted name)
  | reported (d : Diagnostic) : Update fs s (s.mapView (·.report d))
  | found {name raw source target : Text} :
      s.view.resolvedName name ∉ s.view.cached → s.context.rawSource? fs name = some raw →
      s.context.preprocess raw name = (source, target) →
      Update fs s ((s.preprocessed raw name).cache name target source)
  | enrolled (name unit : Text) : Update fs s (s.enroll name unit)
  | noted (name source : Text) :
      Update fs s (s.mapView fun v => { v with inlines := v.inlines.insert name source })
  | defined {name : Text} (source : Text) :
      name ∉ s.view.cached → Update fs s (inlineCached name source s)
  | indented (w : Text) : Update fs s (atIndent w s)
  | surrounded (blocks : List Text) : Update fs s (inBlocks blocks s)
  | entered {name : Text} : (name :: s.view.chain).Nodup → Update fs s (s.enter name)
  | left : Update fs s s.leave

/-- Updates one after another. In between, a copy is worked on and merged back. -/
inductive Works (fs : FileSystem) : Compilation → Compilation → Prop
  | done {s} : Works fs s s
  | update {s t r} : Works fs s t → Update fs t r → Works fs s r
  | merged {s t r} : Works fs s t → Works fs t.isolated r → Works fs s (t.merge r)

namespace Works

variable {fs : FileSystem} {s t r : Compilation}

theorem single (h : Update fs s t) : Works fs s t :=
  .update .done h

theorem trans (h₁ : Works fs s t) (h₂ : Works fs t r) : Works fs s r := by
  induction h₂ with
  | done => exact h₁
  | update _ hupdate ih => exact .update (ih h₁) hupdate
  | merged _ hcopy ih _ => exact .merged (ih h₁) hcopy

theorem missed (name : Text) (s : Compilation) : Works fs s (s.missed name) := by
  unfold Compilation.missed
  split
  · exact .done
  · exact .single (.reported _)

theorem missedOnce (name : Text) (s : Compilation) : Works fs s (s.missedOnce name) := by
  unfold Compilation.missedOnce
  split
  · exact .single (.reported _)
  · exact .done

theorem dynamicNoted (expr : Text) (s : Compilation) :
    Works fs s (Handlebars.dynamicNoted expr s) := by
  unfold Handlebars.dynamicNoted
  split
  · exact .single (.reported _)
  · exact .done

theorem closeChecked (name : Text) (closed : Bool) (s : Compilation) :
    Works fs s (Handlebars.closeChecked name closed s) := by
  cases closed with
  | true => exact .done
  | false => exact .single (.reported _)

theorem inlineNoted (name source : Text) (s : Compilation) :
    Works fs s (Handlebars.inlineNoted name source s) :=
  .update (.single (.counted _)) (.noted name source)

/-- What is done at another indentation of the line is done between two updates. -/
theorem atIndent {w : Text} (h : Works fs (Handlebars.atIndent w s) t) (w' : Text) :
    Works fs s (Handlebars.atIndent w' t) := by
  have hinside : Works fs s t := .trans (.single (.indented w)) h
  exact hinside.update (.indented w')

end Works

/-- A run works on the state by updates. -/
theorem Runs.works {fs : FileSystem} {task : Task} {s t : Compilation} {code : Text}
    (h : Runs fs task s code t) : Works fs s t := by
  induction h with
  | text _ ih => exact .trans (.single (.called _)) ih
  | nil => exact .done
  | cons _ _ ih₁ ih₂ => exact ih₁.trans ih₂
  | literal => exact .done
  | «variable» => exact .done
  | dispatched _ _ ih => exact ih.atIndent _
  | embedded _ _ _ ih₁ ih₂ => exact (ih₁.trans ih₂).atIndent _
  | @dynamic expr indent s =>
      have hcounted : Works fs (atIndent (indent.getD []) s)
          ((atIndent (indent.getD []) s).counted Counter.dynamicReferences) :=
        .single (.counted _)
      exact (hcounted.trans (.dynamicNoted expr _)).atIndent _
  | @enclosed body outer indent s code t _ _ ih =>
      have hbody : Works fs (atIndent (indent.getD []) s) t :=
        .trans (.single (.surrounded outer)) ih
      exact (hbody.update (.surrounded _)).atIndent _
  | enclosedCall => exact .done
  | notEnclosed => exact .single (.reported _)
  | blockDispatched _ _ _ ih₁ ih₂ => exact (Works.closeChecked ..).trans ((ih₁.trans ih₂).atIndent _)
  | blockEmbedded _ _ _ ih₁ ih₂ =>
      have hembed := (ih₁.update (.surrounded _)).trans ih₂
      exact (Works.closeChecked ..).trans ((hembed.update (.surrounded _)).atIndent _)
  | inlineKnown => exact (Works.closeChecked ..).trans (.inlineNoted ..)
  | @inlineNew name body closed s _ _ hnew _ ih =>
      have hclosed : Works fs s (Handlebars.closeChecked "inline".toList closed s) :=
        .closeChecked ..
      have hnoted := hclosed.trans (.inlineNoted name (Keyword.unmask body) _)
      rw [← cached_inlineNoted name (Keyword.unmask body) "inline".toList closed] at hnew
      exact (hnoted.update (.defined _ hnew)).trans ih
  | strayClose => exact .single (.reported _)
  | readKnown => exact .single (.counted _)
  | readMissing => exact .trans (.single (.counted _)) (.missed ..)
  | @readFound name s raw source target u t hnew hraw hparts _ ih =>
      have hcounted : Works fs s (s.counted Counter.references) := .single (.counted _)
      exact (hcounted.update (.found hnew hraw hparts)).trans ih
  | unitIdle => exact .done
  | unitNew _ _ _ _ ih => exact ih.update (.enrolled ..)
  | apart _ ih => exact .merged .done ih
  | embedMissing => exact .missedOnce ..
  | embedOpen _ _ _ ih => exact ih
  | embedGuarded _ _ hnodup _ ih =>
      have hinside := Works.trans (.single (.entered hnodup)) ih
      exact hinside.update .left
  | embedRepeated => exact .single (.reported _)

theorem ReadsAll.works {fs : FileSystem} {names : List Text} {s t : Compilation}
    (h : ReadsAll fs names s t) : Works fs s t := by
  induction h with
  | nil => exact .done
  | cons hread _ ih => exact hread.works.trans ih

end Inlay.Handlebars
