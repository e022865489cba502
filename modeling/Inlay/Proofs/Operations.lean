import Inlay.Proofs.Extension
import Inlay.Proofs.Updates

/-!
# What every operation keeps

An operation of the pipeline ends in the scope it starts in, whichever way
it goes, and all that it finds or reports goes behind what was there before.
The host is never called while a partial is being embedded twice.
-/

namespace Inlay

theorem OrderedMap.prefix_absorb {α : Type} (m n : OrderedMap α) :
    m.entries <+: (m.absorb n).entries := by
  rw [absorb_eq_absorbEntries]
  obtain ⟨added, hadded⟩ := entries_absorbEntries_append m n.entries
  exact ⟨added, hadded.symm⟩

namespace Handlebars

open Compilation

variable {fs : FileSystem} {s t : Compilation}

namespace Operation

/-- An operation is the run of a task, or reads partials in order. -/
theorem Returns.runs {op : Operation} {self : Host} (hself : Sound fs self)
    (h : op.Returns fs self s t) :
    (∃ task code, Runs fs task s code t) ∨ ∃ names, ReadsAll fs names s t := by
  cases op with
  | read name =>
      obtain ⟨unit, h⟩ := h
      exact .inl ⟨_, _, hself.runs_read h⟩
  | embed name =>
      obtain ⟨code, h⟩ := h
      exact .inl ⟨_, _, hself.runs_embed h⟩
  | unit name =>
      obtain ⟨unit, h⟩ := h
      exact .inl ⟨_, _, hself.runs_unit h⟩
  | apart source =>
      obtain ⟨code, h⟩ := h
      exact .inl ⟨_, _, hself.runs_apart h⟩
  | preload =>
      have hreads : readAll self (preloaded s.view) fs s = some ((), t) :=
        (preload_apply self fs s).symm.trans h
      exact .inr ⟨_, hself.reads_all hreads⟩
  | template source =>
      obtain ⟨code, h⟩ := h
      exact .inl ⟨_, _, hself h⟩

theorem Returns.works {op : Operation} {self : Host} (hself : Sound fs self)
    (h : op.Returns fs self s t) : Works fs s t := by
  rcases h.runs hself with ⟨task, code, hrun⟩ | ⟨names, hreads⟩
  · exact hrun.works
  · exact hreads.works

theorem Returns.scope_eq {op : Operation} {self : Host} (hself : Sound fs self)
    (h : op.Returns fs self s t) : t.scope = s.scope := by
  rcases h.runs hself with ⟨task, code, hrun⟩ | ⟨names, hreads⟩
  · exact hrun.scope_eq
  · exact hreads.scope_eq

end Operation

/-! ## The chain at calls of the host -/

/-- The calls of the host that were made between the two states, each with different names on the
chain. -/
def CallsDistinct (s t : Compilation) : Prop :=
  ∃ calls, t.trace = calls ++ s.trace ∧
    ∀ view source, .compile view source ∈ calls → view.chain.Nodup

namespace CallsDistinct

theorem of_eq (h : t.trace = s.trace) : CallsDistinct s t :=
  ⟨[], h, fun _ _ hcall => nomatch hcall⟩

theorem trans {r : Compilation} (h₁ : CallsDistinct s t) (h₂ : CallsDistinct t r) :
    CallsDistinct s r := by
  obtain ⟨first, hfirst, hdistinct₁⟩ := h₁
  obtain ⟨second, hsecond, hdistinct₂⟩ := h₂
  refine ⟨second ++ first, by rw [hsecond, hfirst, List.append_assoc], fun view source hcall => ?_⟩
  rcases List.mem_append.mp hcall with hcall | hcall
  · exact hdistinct₂ view source hcall
  · exact hdistinct₁ view source hcall

end CallsDistinct

/-- An update keeps the names on the chain different, and so they are when it calls the host. -/
theorem Update.callsDistinct (h : Update fs s t) (hs : s.view.chain.Nodup) :
    t.view.chain.Nodup ∧ CallsDistinct s t := by
  cases h with
  | called source =>
      refine ⟨hs, [.compile s.view source], rfl, fun view text hcall => ?_⟩
      obtain ⟨rfl, -⟩ := Event.compile.inj (List.mem_singleton.mp hcall)
      exact hs
  | @found name raw source target =>
      have hchain : (s.preprocessed raw name).view.chain = s.view.chain :=
        congrArg (fun c => c.chain) (scope_preprocessed raw name s)
      refine ⟨hchain ▸ hs, ?_⟩
      by_cases hhook : s.context.hook.isSome
      · refine ⟨[.preprocess s.view raw name], ?_, fun view text hcall => ?_⟩
        · show (s.preprocessed raw name).trace = _
          rw [preprocessed, if_pos hhook]
          rfl
        · cases List.mem_singleton.mp hcall
      · apply CallsDistinct.of_eq
        show (s.preprocessed raw name).trace = _
        rw [preprocessed, if_neg hhook]
  | entered hnodup => exact ⟨hnodup, .of_eq rfl⟩
  | left => exact ⟨hs.sublist (List.tail_sublist _), .of_eq rfl⟩
  | _ => exact ⟨hs, .of_eq rfl⟩

theorem Works.callsDistinct (h : Works fs s t) (hs : s.view.chain.Nodup) :
    t.view.chain.Nodup ∧ CallsDistinct s t := by
  induction h with
  | done => exact ⟨hs, .of_eq rfl⟩
  | update _ hupdate ih =>
      obtain ⟨hchain, hcalls⟩ := ih hs
      obtain ⟨hchain', hcalls'⟩ := hupdate.callsDistinct hchain
      exact ⟨hchain', hcalls.trans hcalls'⟩
  -- the calls made with the copy stay in the trace, but its chain does not come back
  | merged _ _ ih₁ ih₂ =>
      obtain ⟨hchain, hcalls⟩ := ih₁ hs
      obtain ⟨-, hcopy⟩ := ih₂ hchain
      exact ⟨hchain, hcalls.trans hcopy⟩

/-- Every operation gives the context back with its scope: chain, blocks, indentation, switches,
fragments, places to look in, registered partials and preprocessing are as they were. If the names
on the chain are different at first, they are different at every call of the host on the way. -/
theorem scope_restored {op : Operation} {depth : Nat} (h : op.Returns fs (host depth) s t) :
    t.scope = s.scope ∧
    (s.view.chain.Nodup → ∃ calls, t.trace = calls ++ s.trace ∧
      ∀ view source, .compile view source ∈ calls → view.chain.Nodup) :=
  ⟨h.scope_eq (sound_host fs depth), fun hs => ((h.works (sound_host fs depth)).callsDistinct hs).2⟩

/-- A partial that embeds itself. -/
def selfEmbedding : Compilation :=
  .initial { Options.standard with
    partials := .ofList [("a".toList, "x\x7b\x7b> a\x7d\x7d".toList)] } none (.emptyAt ['/'])

theorem scope_restored_selfEmbedding : ∃ t,
    (Operation.template "\x7b\x7b> a\x7d\x7d".toList).Returns (.emptyAt ['/']) (host 3)
      selfEmbedding t ∧
    t.view.diagnostics = [.recursivePartial ["a".toList, "a".toList]] ∧
    selfEmbedding.view.chain.Nodup ∧ t.scope = selfEmbedding.scope ∧
    ∃ calls, t.trace = calls ++ selfEmbedding.trace ∧
      ∀ view source, .compile view source ∈ calls → view.chain.Nodup := by
  have hdiagnostics : (host 3 "\x7b\x7b> a\x7d\x7d".toList (.emptyAt ['/']) selfEmbedding).map
      (fun r => r.2.view.diagnostics) = some [.recursivePartial ["a".toList, "a".toList]] := by
    decide +kernel
  obtain ⟨⟨code, t⟩, hrun, hreported⟩ := Option.map_eq_some_iff.mp hdiagnostics
  have hreturns : (Operation.template "\x7b\x7b> a\x7d\x7d".toList).Returns (.emptyAt ['/'])
      (host 3) selfEmbedding t := ⟨code, hrun⟩
  obtain ⟨hscope, hcalls⟩ := scope_restored hreturns
  exact ⟨t, hreturns, hreported, List.nodup_nil, hscope, hcalls List.nodup_nil⟩

/-! ## What is found stays first -/

/-- Sources, names and units of the first state come first in the second one, unchanged, and so do
its diagnostics. -/
structure Appends (s t : Compilation) : Prop where
  cached : s.view.cached.entries <+: t.view.cached.entries
  aliases : s.view.aliases.entries <+: t.view.aliases.entries
  table : s.view.table.entries <+: t.view.table.entries
  diagnostics : s.view.diagnostics <+: t.view.diagnostics

namespace Appends

theorem refl (s : Compilation) : Appends s s :=
  ⟨List.prefix_rfl, List.prefix_rfl, List.prefix_rfl, List.prefix_rfl⟩

theorem trans {r : Compilation} (h₁ : Appends s t) (h₂ : Appends t r) : Appends s r :=
  ⟨h₁.cached.trans h₂.cached, h₁.aliases.trans h₂.aliases, h₁.table.trans h₂.table,
    h₁.diagnostics.trans h₂.diagnostics⟩

theorem of_extends (h : s.Extends t) : Appends s t :=
  ⟨h.cached, h.aliases, h.table, h.diagnostics⟩

/-- Whatever became of a copy, the own entries stay where they are. -/
theorem merge (s copy : Compilation) : Appends s (s.merge copy) :=
  ⟨OrderedMap.prefix_absorb _ _, OrderedMap.prefix_absorb _ _, OrderedMap.prefix_absorb _ _,
    List.prefix_append _ _⟩

end Appends

theorem Update.appends (h : Update fs s t) : Appends s t := by
  cases h with
  | reported d => exact .of_extends (extends_report d s)
  | @found name raw source target =>
      exact .of_extends ((extends_preprocessed raw name s).trans (extends_cache name target source _))
  | enrolled name unit => exact .of_extends (extends_enroll name unit s)
  | defined source hnew => exact .of_extends (extends_inlineCached hnew source)
  | _ => exact ⟨List.prefix_rfl, List.prefix_rfl, List.prefix_rfl, List.prefix_rfl⟩

theorem Works.appends (h : Works fs s t) : Appends s t := by
  induction h with
  | done => exact .refl _
  | update _ hupdate ih => exact ih.trans hupdate.appends
  | merged _ _ ih => exact ih.trans (.merge _ _)

/-- An operation leaves the sources, names and units that were found before as they are, in their
order and before all that it finds itself, and it drops no diagnostic. No counter goes down, unless
one runs over. -/
theorem first_resolution_wins {op : Operation} {depth : Nat} (h : op.Returns fs (host depth) s t) :
    Appends s t ∧
    (op.Counts fs s → ∀ counter, s.view.counters.count counter ≤ t.view.counters.count counter) :=
  ⟨(h.works (sound_host fs depth)).appends, fun hcounts =>
    (Operation.extends_of_returns (sound_host fs depth) h hcounts).counters.count⟩

/-- Two partials, which preprocessing both names `b`. -/
def renamingContext : Context :=
  Context.start { Options.standard with
    partials := .ofList [("a".toList, "A".toList), ("b".toList, "B".toList)] }
    (some fun _ source _ => (source, "b".toList)) (.emptyAt ['/'])

/-- After `b` was read. -/
def secondRead : Compilation :=
  (preprocessed "B".toList "b".toList
    (counted Counter.references ⟨renamingContext, []⟩)).cache "b".toList "b".toList "B".toList

theorem first_resolution_wins_renamed : ∃ t,
    (Operation.read "a".toList).Returns (.emptyAt ['/']) (host 0) secondRead t ∧
    (Operation.read "a".toList).Counts (.emptyAt ['/']) secondRead ∧
    t.view.aliases.entries = [("a".toList, "b".toList)] ∧
    t.view.cached.entries = [("b".toList, "B".toList)] ∧ Appends secondRead t ∧
    ∀ counter, secondRead.view.counters.count counter ≤ t.view.counters.count counter := by
  let t := (preprocessed "A".toList "a".toList (secondRead.counted Counter.references)).cache
    "a".toList "b".toList "A".toList
  have hreturns : (Operation.read "a".toList).Returns (.emptyAt ['/']) (host 0) secondRead t :=
    ⟨none, rfl⟩
  have hcounts : (Operation.read "a".toList).Counts (.emptyAt ['/']) secondRead :=
    counts_read rfl (by decide)
  obtain ⟨happends, hrises⟩ := first_resolution_wins hreturns
  exact ⟨t, hreturns, hcounts, by decide, by decide, happends, hrises hcounts⟩

end Handlebars

end Inlay
