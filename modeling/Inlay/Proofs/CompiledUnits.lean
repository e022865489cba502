import Inlay.Proofs.DispatchClosure

/-!
# The texts that are compiled

A compilation with dispatching compiles the template, the cached sources and
the bodies of blocks, each of them masked but the template. So the texts that
were handed to the host can be told from the template and from what is cached
in the end.
-/

namespace Inlay.Handlebars

open Compilation Keyword

/-- The masked texts that the unit of a text is compiled from: the text itself, and those of the
bodies of its blocks. -/
inductive Comprises : Text → Text → Prop
  | own (source : Text) : Comprises source (mask source)
  | body {source name body closed text} :
      .block name body closed ∈ (mask source).nodes → Comprises body text → Comprises source text

/-- The texts that a task compiles on its own account. -/
def Task.Brings : Task → Text → Prop
  | .text source, inner =>
      inner = source ∨ ∃ name body closed, .block name body closed ∈ source.nodes ∧ Comprises body inner
  | .nodes ns, inner => ∃ name body closed, .block name body closed ∈ ns ∧ Comprises body inner
  | .node n, inner => ∃ name body closed, n = .block name body closed ∧ Comprises body inner
  | .apart template, inner => Comprises template inner
  | _, _ => False

/-- The text is one of the given ones, or is compiled for the unit of a cached source. -/
def Allotted (T : Text → Prop) (s : Compilation) (text : Text) : Prop :=
  T text ∨ ∃ name source, s.view.cached.get? name = some source ∧ Comprises source text

/-- Allotted texts only were handed to the host, and all texts of the units in the table. -/
structure Recorded (T : Text → Prop) (s : Compilation) : Prop where
  allotted : ∀ text, Handed s text → Allotted T s text
  units : ∀ name ∈ s.view.table, ∃ source, s.view.cached.get? name = some source ∧
    ∀ text, Comprises source text → Handed s text

section

variable {fs : FileSystem} {c : Context} {T : Text → Prop} {s t : Compilation} {text : Text}

theorem Allotted.mono (h : Allotted T s text) (ht : s.Grows t) : Allotted T t text :=
  h.imp_right fun ⟨name, source, hsource, htext⟩ => ⟨name, source, ht.cached _ _ hsource, htext⟩

theorem Handed.mono (h : Handed s text) (ht : s.Grows t) : Handed t text :=
  h.imp fun _ hmem => ht.trace.subset hmem

/-- A node that is no block brings nothing. -/
theorem handed_of_node {n : Node} (hn : ∀ name body closed, n ≠ .block name body closed)
    (t : Compilation) : ∀ text, Task.Brings (.node n) text → Handed t text :=
  fun _ ⟨_, _, _, heq, _⟩ => absurd heq (hn _ _ _)

namespace Recorded

/-- Where no call is made and no unit is added, all stays recorded. -/
theorem of_grows (h : Recorded T s) (hgrows : s.Grows t) (htrace : t.trace = s.trace)
    (htable : ∀ name ∈ t.view.table, name ∈ s.view.table) : Recorded T t := by
  constructor
  · intro text hhanded
    unfold Handed at hhanded
    rw [htrace] at hhanded
    exact (h.allotted text hhanded).mono hgrows
  · intro name hname
    obtain ⟨source, hsource, htexts⟩ := h.units name (htable name hname)
    exact ⟨source, hgrows.cached _ _ hsource, fun text htext => (htexts text htext).mono hgrows⟩

theorem emit (h : Recorded T s) (htext : Allotted T s text) :
    Recorded T (s.emit (.compile s.view text)) := by
  constructor
  · rintro other ⟨v, hmem⟩
    rcases List.mem_cons.mp hmem with heq | hmem
    · obtain ⟨-, rfl⟩ := Event.compile.inj heq
      exact htext
    · exact h.allotted other ⟨v, hmem⟩
  · intro name hname
    obtain ⟨source, hsource, htexts⟩ := h.units name hname
    exact ⟨source, hsource, fun other hother => (htexts other hother).mono (grows_emit _ s)⟩

theorem enroll {name source : Text} (h : Recorded T s)
    (hsource : s.view.cached.get? name = some source)
    (htexts : ∀ text, Comprises source text → Handed s text) (unit : Text) :
    Recorded T (s.enroll name unit) := by
  refine ⟨h.allotted, fun other hother => ?_⟩
  rcases OrderedMap.mem_insertIfNew.mp hother with hother | rfl
  · exact h.units other hother
  · exact ⟨source, hsource, htexts⟩

/-- What is recorded with a copy is recorded when the copy is merged back. -/
theorem merge (h : Recorded T t) (hgrows : s.isolated.Grows t) : Recorded T (s.merge t) := by
  refine h.of_grows (grows_merge_of_copy hgrows) rfl fun name hname => ?_
  rcases OrderedMap.mem_absorb.mp hname with hname | hname
  · exact hgrows.table.mem hname
  · exact hname

theorem closeChecked (h : Recorded T s) (name : Text) (closed : Bool) :
    Recorded T (closeChecked name closed s) := by
  cases closed <;> exact ⟨h.allotted, h.units⟩

theorem dynamicNoted (h : Recorded T s) (expr : Text) : Recorded T (dynamicNoted expr s) := by
  unfold Handlebars.dynamicNoted
  split <;> exact ⟨h.allotted, h.units⟩

theorem missed (h : Recorded T s) (name : Text) : Recorded T (s.missed name) := by
  unfold Compilation.missed
  split <;> exact ⟨h.allotted, h.units⟩

end Recorded

/-- The texts of the task are allotted. With dispatching nothing is embedded. -/
def Task.Allotted (T : Text → Prop) (s : Compilation) : Task → Prop
  | .embed _ => False
  | task => ∀ text, task.Brings text → Handlebars.Allotted T s text

/-- What the task compiles is handed to the host, and else what the units that it makes comprise. -/
theorem Runs.recorded {task : Task} {code : Text} (h : Runs fs task s code t)
    (hs : Dispatching fs c s) (htask : task.Allotted T s) (hrecorded : Recorded T s) :
    Recorded T t ∧ ∀ text, task.Brings text → Handed t text := by
  induction h with
  | @text source s code t h ih =>
      have hself : Handlebars.Allotted T s source := htask source (.inl rfl)
      obtain ⟨ht, hbodies⟩ := ih (hs.emit _) (fun text hbody => htask text (.inr hbody))
        (hrecorded.emit hself)
      refine ⟨ht, fun text htext => htext.elim (fun heq => ?_) (hbodies text)⟩
      exact ⟨s.view, h.grows.trace.subset (heq ▸ List.mem_cons_self)⟩
  | nil => exact ⟨hrecorded, fun _ ⟨_, _, _, hmem, _⟩ => absurd hmem List.not_mem_nil⟩
  | @cons n ns s a s₁ b t h₁ h₂ ih₁ ih₂ =>
      have hfirst : Task.Allotted T s (.node n) := by
        rintro text ⟨name, body, closed, rfl, htext⟩
        exact htask text ⟨name, body, closed, List.mem_cons_self, htext⟩
      have hrest : Task.Allotted T s₁ (.nodes ns) := by
        rintro text ⟨name, body, closed, hmem, htext⟩
        have hbody := htask text ⟨name, body, closed, List.mem_cons_of_mem n hmem, htext⟩
        exact hbody.mono h₁.grows
      obtain ⟨hs₁, hnode⟩ := ih₁ hs hfirst hrecorded
      obtain ⟨ht, hnodes⟩ := ih₂ (hs.after h₁) hrest hs₁
      refine ⟨ht, ?_⟩
      rintro text ⟨name, body, closed, hmem, htext⟩
      rcases List.mem_cons.mp hmem with heq | hmem
      · exact (hnode text ⟨name, body, closed, heq.symm, htext⟩).mono h₂.grows
      · exact hnodes text ⟨name, body, closed, hmem, htext⟩
  | literal => exact ⟨hrecorded, handed_of_node (by simp) _⟩
  | «variable» => exact ⟨hrecorded, handed_of_node (by simp) _⟩
  | dispatched _ _ ih =>
      obtain ⟨ht, -⟩ := ih (hs.atIndent _) (fun _ h => h.elim) ⟨hrecorded.allotted, hrecorded.units⟩
      exact ⟨⟨ht.allotted, ht.units⟩, handed_of_node (by simp) _⟩
  | embedded h₁ hruntime =>
      have hread := (hs.atIndent _).after h₁
      simp [hread.dispatches] at hruntime
  | @dynamic expr indent s =>
      have hcounted : Recorded T ((atIndent (indent.getD []) s).counted Counter.dynamicReferences) :=
        ⟨hrecorded.allotted, hrecorded.units⟩
      have hnoted := hcounted.dynamicNoted expr
      exact ⟨⟨hnoted.allotted, hnoted.units⟩, handed_of_node (by simp) _⟩
  | enclosed hblocks => simp [hs.blocks] at hblocks
  | enclosedCall => exact ⟨hrecorded, handed_of_node (by simp) _⟩
  | notEnclosed _ hruntime => simp [hs.dispatches] at hruntime
  | @blockDispatched name body closed s u s₁ unit t h₁ _ h₂ ih₁ ih₂ =>
      have hclosed := hrecorded.closeChecked name closed
      have hs₀ := (hs.closeChecked name closed).atIndent []
      obtain ⟨hread, -⟩ := ih₁ hs₀ (fun _ h => h.elim) ⟨hclosed.allotted, hclosed.units⟩
      have hclose : Works fs s (atIndent [] (Handlebars.closeChecked name closed s)) :=
        .update (.closeChecked ..) (.indented _)
      have hgrows : s.Grows s₁ := (hclose.trans h₁.works).grows
      obtain ⟨ht, hbody⟩ := ih₂ (hs₀.after h₁)
        (fun text htext => (htask text ⟨name, body, closed, rfl, htext⟩).mono hgrows) hread
      refine ⟨⟨ht.allotted, ht.units⟩, ?_⟩
      rintro text ⟨other, inner, ended, heq, htext⟩
      obtain ⟨rfl, rfl, rfl⟩ := Node.block.inj heq
      exact hbody text htext
  | blockEmbedded h₁ hruntime =>
      have hread := ((hs.closeChecked _ _).atIndent []).after h₁
      simp [hread.dispatches] at hruntime
  | @inlineKnown name body closed s =>
      have hclosed := hrecorded.closeChecked "inline".toList closed
      exact ⟨⟨hclosed.allotted, hclosed.units⟩, handed_of_node (by simp) _⟩
  | @inlineNew name body closed s u t hnew h ih =>
      have hclosed := hrecorded.closeChecked "inline".toList closed
      have hs' := (hs.closeChecked "inline".toList closed).inlineNoted name (unmask body)
      rw [← cached_inlineNoted name (unmask body) "inline".toList closed] at hnew
      have hnoted : Recorded T (inlineNoted name (unmask body)
          (Handlebars.closeChecked "inline".toList closed s)) := ⟨hclosed.allotted, hclosed.units⟩
      have hcached := hnoted.of_grows (grows_inlineCached hnew (unmask body)) rfl fun _ h => h
      obtain ⟨ht, -⟩ := ih (hs'.inlineCached name (unmask body)) (fun _ h => h.elim) hcached
      exact ⟨ht, handed_of_node (by simp) t⟩
  | strayClose =>
      exact ⟨⟨hrecorded.allotted, hrecorded.units⟩, handed_of_node (by simp) _⟩
  | readKnown => exact ⟨⟨hrecorded.allotted, hrecorded.units⟩, fun _ h => h.elim⟩
  | @readMissing name s =>
      have hcounted : Recorded T (s.counted Counter.references) := ⟨hrecorded.allotted, hrecorded.units⟩
      exact ⟨hcounted.missed name, fun _ h => h.elim⟩
  | @readFound name s raw source target u t _ _ hparts h ih =>
      have hcounted := hs.counted Counter.references
      obtain ⟨rfl, rfl⟩ := hcounted.hookFree.parts_eq hparts
      rw [hcounted.hookFree.preprocessed_eq] at ih
      have hnoted : Recorded T (s.counted Counter.references) := ⟨hrecorded.allotted, hrecorded.units⟩
      have hcached := hnoted.of_grows (grows_cache name name raw (s.counted Counter.references)) rfl
        fun _ h => h
      exact ⟨(ih (hcounted.cache name raw) (fun _ h => h.elim) hcached).1, fun _ h => h.elim⟩
  | unitIdle => exact ⟨hrecorded, fun _ h => h.elim⟩
  | @unitNew name s source unit t _ _ hsource h ih =>
      obtain ⟨ht, htexts⟩ := ih hs (fun text htext => .inr ⟨name, source, hsource, htext⟩) hrecorded
      exact ⟨ht.enroll (h.grows.cached _ _ hsource) htexts unit, fun _ h => h.elim⟩
  | @apart template s code t h ih =>
      have hparts : ∀ text, Task.Brings (.text (mask template)) text ↔ Comprises template text := by
        intro text
        constructor
        · rintro (rfl | ⟨name, body, closed, hmem, htext⟩)
          · exact .own template
          · exact .body hmem htext
        · intro htext
          cases htext with
          | own => exact .inl rfl
          | body hmem htext => exact .inr ⟨_, _, _, hmem, htext⟩
      obtain ⟨ht, htexts⟩ := ih hs.isolated (fun text htext => htask text ((hparts text).mp htext))
        ⟨hrecorded.allotted, hrecorded.units⟩
      exact ⟨ht.merge h.grows, fun text htext => htexts text ((hparts text).mpr htext)⟩
  | embedMissing => exact htask.elim
  | embedOpen => exact htask.elim
  | embedGuarded => exact htask.elim
  | embedRepeated => exact htask.elim

theorem ReadsAll.recorded {names : List Text} (h : ReadsAll fs names s t) (hs : Dispatching fs c s)
    (hrecorded : Recorded T s) : Recorded T t := by
  induction h with
  | nil => exact hrecorded
  | cons hread _ ih =>
      exact ih (hs.after hread) (hread.recorded hs (fun _ h => h.elim) hrecorded).1

end

/-- In the end the template, the bodies of its blocks and all texts that units in the table comprise
were handed to the host, and nothing else. -/
theorem Compiles.recorded {fs : FileSystem} {options : Options} {template code : Text}
    {middle final : Compilation} (h : Compiles fs options none template code middle final)
    (hruntime : options.flags.runtime = true) :
    Recorded (Task.text template.escape).Brings final ∧
      ∀ text, (Task.text template.escape).Brings text → Handed final text := by
  have hs := dispatching_initial fs hruntime
  have hempty : Recorded (Task.text template.escape).Brings (initial options none fs) :=
    ⟨fun _ ⟨_, hmem⟩ => absurd hmem List.not_mem_nil, fun _ hname => absurd hname (OrderedMap.not_mem_empty _)⟩
  obtain ⟨hmiddle, htexts⟩ := h.runs.recorded hs (fun _ htext => .inl htext) hempty
  exact ⟨h.reads.recorded (hs.after h.runs) hmiddle, fun text htext => (htexts text htext).mono h.reads.works.grows⟩

end Inlay.Handlebars
