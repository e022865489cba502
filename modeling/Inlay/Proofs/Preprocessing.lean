import Inlay.Proofs.Order

/-!
# Preprocessing happens once

A partial is preprocessed where its name stands for no cached source. From
then on the name stands for one, in every copy that is taken and when the
copies are merged back. So no name is preprocessed twice, and a name that
was resolved is only counted when it is read again.
-/

namespace Inlay

/-- The name that preprocessing is called with. -/
def Event.preprocessed? : Event → Option Text
  | .preprocess _ _ name => some name
  | .compile _ _ => none

namespace Handlebars

open Compilation

variable {fs : FileSystem} {options : Options} {hook : Option Hook} {template : Text}

/-! ## One call for each name -/

/-- The names that preprocessing was called with, the latest first. -/
def preprocessedNames (s : Compilation) : List Text :=
  s.trace.filterMap Event.preprocessed?

/-- Each name was preprocessed once at most, and stands for a cached source since. -/
structure PreprocessedOnce (s : Compilation) : Prop where
  sourced : s.names.Sourced
  nodup : (preprocessedNames s).Nodup
  known : ∀ name ∈ preprocessedNames s, s.names.resolve name ∈ s.names.cached

namespace PreprocessedOnce

variable {s t : Compilation}

/-- Nothing was preprocessed, and names stand for what they did. -/
theorem of_keeps (h : PreprocessedOnce s) (htrace : preprocessedNames t = preprocessedNames s)
    (hkeeps : s.names.Keeps t.names) (ht : t.names.Sourced) : PreprocessedOnce t := by
  refine ⟨ht, htrace ▸ h.nodup, fun name hname => ?_⟩
  exact hkeeps.resolve_mem (h.known name (htrace ▸ hname))

/-- A source that is found is preprocessed under a name that was not preprocessed before. -/
theorem found (h : PreprocessedOnce s) {name raw source target : Text}
    (hnew : s.view.resolvedName name ∉ s.view.cached) :
    PreprocessedOnce ((s.preprocessed raw name).cache name target source) := by
  have hnames := names_found name raw target source s
  have hkeeps := Names.keeps_cache (n := s.names) hnew target source
  have hsourced := h.sourced.cache name target source
  by_cases hhook : s.context.hook.isSome
  · have htrace : preprocessedNames ((s.preprocessed raw name).cache name target source) =
        name :: preprocessedNames s := by
      show (s.preprocessed raw name).trace.filterMap Event.preprocessed? = _
      rw [preprocessed, if_pos hhook]
      rfl
    refine ⟨hnames ▸ hsourced, ?_, fun other hother => ?_⟩
    · rw [htrace, List.nodup_cons]
      exact ⟨fun hmem => hnew (h.known name hmem), h.nodup⟩
    · rw [htrace] at hother
      rw [hnames]
      rcases List.mem_cons.mp hother with rfl | hother
      · exact h.sourced.resolve_cache_mem hnew target source
      · exact hkeeps.resolve_mem (h.known other hother)
  · refine h.of_keeps ?_ (hnames ▸ hkeeps) (hnames ▸ hsourced)
    show (s.preprocessed raw name).trace.filterMap Event.preprocessed? = _
    rw [preprocessed, if_neg hhook]
    rfl

end PreprocessedOnce

theorem Update.preprocessedOnce {s t : Compilation} (h : Update fs s t) (hs : PreprocessedOnce s) :
    PreprocessedOnce t := by
  have hkeeps := h.keeps hs.sourced
  cases h with
  | found hnew => exact hs.found hnew
  | _ => exact hs.of_keeps rfl hkeeps.1 hkeeps.2

theorem Works.preprocessedOnce {s t : Compilation} (h : Works fs s t) (hs : PreprocessedOnce s) :
    PreprocessedOnce t := by
  induction h with
  | done => exact hs
  | update _ hupdate ih => exact hupdate.preprocessedOnce (ih hs)
  | @merged s t r _ hcopy ih₁ ih₂ =>
      have ht := ih₁ hs
      have hr : PreprocessedOnce r := ih₂ ⟨ht.sourced, ht.nodup, ht.known⟩
      have hkeeps := (hcopy.keeps (s := t.isolated) ht.sourced).1
      -- the trace goes on from the copy, and its names go on to stand for what they do there
      exact hr.of_keeps rfl (ht.sourced.keeps_merge hkeeps) (ht.sourced.merge hr.sourced hkeeps)

theorem PreprocessedOnce.initial : PreprocessedOnce (initial options hook fs) where
  sourced _ _ h := nomatch h
  nodup := List.nodup_nil
  known _ h := nomatch h

theorem Compiles.preprocessedOnce {code : Text} {middle final : Compilation}
    (h : Compiles fs options hook template code middle final) : PreprocessedOnce final :=
  h.reads.works.preprocessedOnce (h.runs.works.preprocessedOnce .initial)

/-! ## Reading a name again -/

/-- Where a name stands for a cached source, reading it only counts the reference. -/
theorem readPartial_of_mem {name : Text} {s : Compilation}
    (h : s.view.resolvedName name ∈ s.view.cached) (self : Host) :
    readPartial self name fs s = some (none, s.counted Counter.references) := by
  have hcounted : (s.counted Counter.references).view.resolvedName name ∈
      (s.counted Counter.references).view.cached := h
  rw [readPartial_apply, readCounted, if_pos hcounted]

/-- In a compilation that finishes, preprocessing is called once at most with each name. Of two
reads that the compilation comes to, one comes later; if the earlier one resolved its name, then a
later one of this name makes no unit, whatever was done in between, and all that it changes is the
count of references. -/
theorem preprocessed_once {code : Text} {final : Compilation}
    (h : run fs options hook template = some (code, final)) :
    (preprocessedNames final).Nodup ∧
    (∀ name name' s s', ComesTo fs options hook template (.read name) s →
      ComesTo fs options hook template (.read name') s' →
      name = name' ∧ s = s' ∨ Later fs options hook template (.read name) s (.read name') s' ∨
        Later fs options hook template (.read name') s' (.read name) s) ∧
    ∀ name s s', Later fs options hook template (.read name) s (.read name) s' →
      Resolves fs s name → ∀ self,
        readPartial self name fs s' = some (none, s'.counted Counter.references) := by
  refine ⟨?_, fun name name' s s' hread hread' => ?_, fun name s s' hlater hname self => ?_⟩
  · obtain ⟨middle, hcompiles⟩ := (sound_host fs _).compiles h
    exact hcompiles.preprocessedOnce.nodup
  · rcases hread.later_total hread' with ⟨htask, hstate⟩ | hlater
    · exact .inl ⟨Task.read.inj htask, hstate⟩
    · exact .inr hlater
  · exact readPartial_of_mem (hlater.resolve_mem hname) self

/-- One partial, which becomes a callable. -/
def rereadOptions : Options :=
  { Options.standard with
    flags := { Options.standard.flags with runtime := true }
    partials := .ofList [("a".toList, ['x'])] }

/-- Gives every partial the name `b`, and a reference to `a`. -/
def referToA : Hook := fun _ source _ =>
  (source ++ "\x7b\x7b> a\x7d\x7d".toList, "b".toList)

theorem preprocessed_once_again :
    ∃ code final s s', run (.emptyAt ['/']) rereadOptions (some referToA) referringTemplate =
        some (code, final) ∧ (preprocessedNames final).Nodup ∧
      Later (.emptyAt ['/']) rereadOptions (some referToA) referringTemplate
        (.read "a".toList) s (.read "a".toList) s' ∧
      Resolves (.emptyAt ['/']) s "a".toList ∧ s'.view.indentBound = true ∧
      ∀ self, readPartial self "a".toList (.emptyAt ['/']) s' =
        some (none, s'.counted Counter.references) := by
  have hfinishes :
      (run (.emptyAt ['/']) rereadOptions (some referToA) referringTemplate).isSome := by
    decide +kernel
  obtain ⟨⟨code, final⟩, hrun⟩ := Option.isSome_iff_exists.mp hfinishes
  have htemplate : referringTemplate.escape.nodes =
      [.literal [], .reference (.named "a".toList) (some []), .literal []] := by
    decide +kernel
  have hpartial : (Keyword.mask (Text.escape "x\x7b\x7b> a\x7d\x7d".toList)).nodes =
      [.literal ['x'], .reference (.named "a".toList) none, .literal []] := by
    decide +kernel
  let start := initial rereadOptions (some referToA) (.emptyAt ['/'])
  let s := atIndent [] (start.emit (.compile start.view referringTemplate.escape))
  have htext : Starts (.emptyAt ['/']) (.text referringTemplate.escape) start
      (.nodes [.literal [], .reference (.named "a".toList) (some []), .literal []])
      (start.emit (.compile start.view referringTemplate.escape)) :=
    htemplate ▸ .text
  have hcomes : ComesTo (.emptyAt ['/']) rereadOptions (some referToA) referringTemplate
      (.read "a".toList) s :=
    ⟨_, _, .template, (((Meets.here.step htext).step (.tail .literal)).step .head).step
      .referenceRead⟩
  have hraw : s.context.rawSource? (.emptyAt ['/']) "a".toList = some ['x'] := by decide +kernel
  have hresolves : Resolves (.emptyAt ['/']) s "a".toList := .inr (hraw ▸ Option.some_ne_none _)
  let source : Text := "x\x7b\x7b> a\x7d\x7d".toList
  let found := ((s.counted Counter.references).preprocessed ['x'] "a".toList).cache "a".toList
    "b".toList source
  have hfound : Starts (.emptyAt ['/']) (.read "a".toList) s (.unit "b".toList) found :=
    .found (by decide +kernel) hraw rfl
  -- the unit of the partial is made with a copy, and the partial is read again there
  have hunit : Starts (.emptyAt ['/']) (.unit "b".toList) found (.apart source.escape) found :=
    .unit rfl (by decide +kernel) (by decide +kernel)
  let copy := found.isolated.emit (.compile found.isolated.view (Keyword.mask source.escape))
  have hcopy : Starts (.emptyAt ['/']) (.text (Keyword.mask source.escape)) found.isolated
      (.nodes [.literal ['x'], .reference (.named "a".toList) none, .literal []]) copy :=
    hpartial ▸ .text
  have hagain : Meets (.emptyAt ['/']) (.unit "b".toList) found (.read "a".toList)
      (atIndent [] copy) :=
    (((((Meets.here.step hunit).step .apart).step hcopy).step (.tail .literal)).step .head).step
      .referenceRead
  have hlater : Later (.emptyAt ['/']) rereadOptions (some referToA) referringTemplate
      (.read "a".toList) s (.read "a".toList) (atIndent [] copy) :=
    .inside hcomes hfound hagain
  obtain ⟨hnodup, -, hreads⟩ := preprocessed_once hrun
  exact ⟨code, final, s, _, hrun, hnodup, hlater, hresolves, rfl, hreads _ _ _ hlater hresolves⟩

end Handlebars

end Inlay
