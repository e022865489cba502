import Inlay.Proofs.Frame

/-!
# Names and what they stand for

Preprocessing can give a partial another name, and the other name stands for
it from then on. What a name stands for never changes once it is cached, and
a name without a source stands for itself throughout. So there is one
renaming for a whole compilation.
-/

namespace Inlay

/-! ## Names and what they stand for -/

/-- The names that preprocessing gave, and the sources that are cached. -/
structure Names where
  aliases : OrderedMap Text
  cached : OrderedMap Text

namespace Names

/-- The name under which a reference is cached. -/
def resolve (n : Names) (name : Text) : Text :=
  (n.aliases.get? name).getD name

/-- Every name that was given has a source. -/
def Sourced (n : Names) : Prop :=
  ∀ name target, n.aliases.get? name = some target → target ∈ n.cached

/-- Cached sources stay, and names that stand for one go on to stand for it. -/
structure Keeps (n m : Names) : Prop where
  cached : n.cached.Below m.cached
  resolve : ∀ name, n.resolve name ∈ n.cached → m.resolve name = n.resolve name

variable {n m k : Names}

theorem Keeps.of_below (hcached : n.cached.Below m.cached) (haliases : m.aliases = n.aliases) :
    n.Keeps m := by
  refine ⟨hcached, fun name _ => ?_⟩
  unfold Names.resolve
  rw [haliases]

theorem Keeps.refl (n : Names) : n.Keeps n :=
  .of_below (.refl _) rfl

theorem Keeps.trans (h₁ : n.Keeps m) (h₂ : m.Keeps k) : n.Keeps k := by
  refine ⟨h₁.cached.trans h₂.cached, fun name hname => ?_⟩
  have hfirst := h₁.resolve name hname
  rw [h₂.resolve name (hfirst ▸ h₁.cached.mem hname), hfirst]

theorem Keeps.resolve_mem (h : n.Keeps m) {name : Text} (hname : n.resolve name ∈ n.cached) :
    m.resolve name ∈ m.cached := by
  rw [h.resolve name hname]
  exact h.cached.mem hname

theorem Sourced.of_below (h : n.Sourced) (hcached : n.cached.Below m.cached)
    (haliases : m.aliases = n.aliases) : m.Sourced := by
  intro name target htarget
  rw [haliases] at htarget
  exact hcached.mem (h name target htarget)

/-- A name that has no source was given no other name. -/
theorem Sourced.get?_eq_none (h : n.Sourced) {name : Text} (hnew : n.resolve name ∉ n.cached) :
    n.aliases.get? name = none := by
  cases htarget : n.aliases.get? name with
  | none => rfl
  | some target =>
      unfold Names.resolve at hnew
      rw [htarget] at hnew
      exact absurd (h name target htarget) hnew

/-- What a resolved name stands for has a source as well. -/
theorem Sourced.resolve_mem (h : n.Sourced) {name : Text} (hname : name ∈ n.cached) :
    n.resolve name ∈ n.cached := by
  unfold Names.resolve
  cases htarget : n.aliases.get? name with
  | none => exact hname
  | some target => exact h name target htarget

/-! ### Caching a source -/

/-- The names after a source is cached. -/
def cache (n : Names) (name target source : Text) : Names where
  aliases := if target = name then n.aliases else n.aliases.insertIfNew name target
  cached := n.cached.insertIfNew target source.escape

theorem get?_cache (n : Names) (name target source other : Text) :
    (n.cache name target source).aliases.get? other =
      (n.aliases.get? other).or (if other = name ∧ target ≠ name then some target else none) := by
  unfold cache
  by_cases htarget : target = name
  · rw [if_pos htarget, if_neg fun h => h.2 htarget, Option.or_none]
  · rw [if_neg htarget, OrderedMap.get?_insertIfNew]
    simp only [htarget, ne_eq, not_false_eq_true, and_true]

theorem Sourced.cache (h : n.Sourced) (name target source : Text) :
    (n.cache name target source).Sourced := by
  intro other found hfound
  rw [get?_cache] at hfound
  rcases Option.or_eq_some_iff.mp hfound with hold | ⟨-, hnew⟩
  · exact OrderedMap.mem_insertIfNew.mpr (.inl (h other found hold))
  · split at hnew
    · obtain rfl := Option.some.inj hnew
      exact OrderedMap.mem_insertIfNew.mpr (.inr rfl)
    · cases hnew

theorem keeps_cache {name : Text} (hnew : n.resolve name ∉ n.cached) (target source : Text) :
    n.Keeps (n.cache name target source) := by
  refine ⟨OrderedMap.below_insertIfNew _ _ _, fun other hother => ?_⟩
  have hne : other ≠ name := by
    rintro rfl
    exact hnew hother
  unfold Names.resolve
  rw [get?_cache, if_neg fun h => hne h.1, Option.or_none]

/-- The name that was looked for stands for what was found. -/
theorem Sourced.resolve_cache (h : n.Sourced) {name : Text} (hnew : n.resolve name ∉ n.cached)
    (target source : Text) : (n.cache name target source).resolve name = target := by
  unfold Names.resolve
  rw [get?_cache, h.get?_eq_none hnew, Option.none_or]
  by_cases htarget : target = name
  · rw [if_neg fun hboth => hboth.2 htarget, htarget]
    rfl
  · rw [if_pos ⟨rfl, htarget⟩]
    rfl

theorem Sourced.resolve_cache_mem (h : n.Sourced) {name : Text} (hnew : n.resolve name ∉ n.cached)
    (target source : Text) :
    (n.cache name target source).resolve name ∈ (n.cache name target source).cached := by
  rw [h.resolve_cache hnew target source]
  exact OrderedMap.mem_insertIfNew.mpr (.inr rfl)

/-! ### Copies -/

/-- The names after a copy is merged back. -/
def merge (n copy : Names) : Names :=
  ⟨n.aliases.absorb copy.aliases, n.cached.absorb copy.cached⟩

theorem Sourced.merge (hn : n.Sourced) (hm : m.Sourced) (hkeeps : n.Keeps m) :
    (n.merge m).Sourced := by
  intro name target htarget
  have hget : (n.aliases.absorb m.aliases).get? name = some target := htarget
  rw [OrderedMap.get?_absorb] at hget
  rcases Option.or_eq_some_iff.mp hget with hold | ⟨-, hnew⟩
  · exact (OrderedMap.below_absorb _ _).mem (hn name target hold)
  · exact (OrderedMap.below_absorb_of_below hkeeps.cached).mem (hm name target hnew)

/-- What a name stands for in a copy, it stands for when the copy is merged back. -/
theorem Sourced.keeps_merge (hn : n.Sourced) (hkeeps : n.Keeps m) : m.Keeps (n.merge m) := by
  refine ⟨OrderedMap.below_absorb_of_below hkeeps.cached, fun name _ => ?_⟩
  have hmerge : (n.merge m).resolve name =
      ((n.aliases.get? name).or (m.aliases.get? name)).getD name :=
    congrArg (fun found => found.getD name) (OrderedMap.get?_absorb ..)
  rw [hmerge]
  cases hold : n.aliases.get? name with
  | none => rfl
  | some target =>
      have hresolved : n.resolve name = target := congrArg (fun found => found.getD name) hold
      rw [hkeeps.resolve name (hresolved ▸ hn name target hold), hresolved]
      rfl

end Names

/-- The names of a state. -/
def Compilation.names (s : Compilation) : Names :=
  ⟨s.view.aliases, s.view.cached⟩

namespace Handlebars

open Compilation

theorem names_preprocessed (source name : Text) (s : Compilation) :
    (s.preprocessed source name).names = s.names := by
  unfold preprocessed
  split <;> rfl

theorem names_missed (name : Text) (s : Compilation) : (s.missed name).names = s.names := by
  unfold missed
  split <;> rfl

theorem names_dynamicNoted (expr : Text) (s : Compilation) :
    (dynamicNoted expr s).names = s.names := by
  unfold dynamicNoted
  split <;> rfl

theorem names_closeChecked (name : Text) (closed : Bool) (s : Compilation) :
    (closeChecked name closed s).names = s.names := by
  cases closed <;> rfl

theorem names_inlineCached (name source : Text) (s : Compilation) :
    (inlineCached name source (inlineNoted name source s)).names =
      ⟨s.names.aliases, s.names.cached.insert name source⟩ :=
  rfl

theorem names_found (name raw target source : Text) (s : Compilation) :
    ((s.preprocessed raw name).cache name target source).names = s.names.cache name target source :=
  congrArg (fun n : Names => n.cache name target source) (names_preprocessed raw name s)

variable {fs : FileSystem}

/-- What names stand for is kept by an update, and new names have sources. -/
theorem Update.keeps {s t : Compilation} (h : Update fs s t) (hs : s.names.Sourced) :
    s.names.Keeps t.names ∧ t.names.Sourced := by
  cases h with
  | @found name raw source target hnew =>
      rw [names_found]
      exact ⟨Names.keeps_cache hnew target source, hs.cache name target source⟩
  | defined source hnew =>
      have hbelow := (grows_inlineCached hnew source).cached
      exact ⟨.of_below hbelow rfl, hs.of_below hbelow rfl⟩
  | _ => exact ⟨.refl _, hs⟩

theorem Works.keeps {s t : Compilation} (h : Works fs s t) (hs : s.names.Sourced) :
    s.names.Keeps t.names ∧ t.names.Sourced := by
  induction h with
  | done => exact ⟨.refl _, hs⟩
  | update _ hupdate ih =>
      obtain ⟨hkeeps₁, hs₁⟩ := ih hs
      obtain ⟨hkeeps₂, ht⟩ := hupdate.keeps hs₁
      exact ⟨hkeeps₁.trans hkeeps₂, ht⟩
  | merged _ _ ih₁ ih₂ =>
      obtain ⟨hkeeps₁, hs₁⟩ := ih₁ hs
      obtain ⟨hkeeps₂, ht⟩ := ih₂ hs₁
      exact ⟨hkeeps₁.trans (hkeeps₂.trans (hs₁.keeps_merge hkeeps₂)), hs₁.merge ht hkeeps₂⟩

theorem Runs.keeps {task : Task} {s t : Compilation} {code : Text} (h : Runs fs task s code t)
    (hs : s.names.Sourced) : s.names.Keeps t.names ∧ t.names.Sourced :=
  h.works.keeps hs

theorem ReadsAll.keeps {names : List Text} {s t : Compilation} (h : ReadsAll fs names s t)
    (hs : s.names.Sourced) : s.names.Keeps t.names :=
  (h.works.keeps hs).1

theorem ReadsAll.grows {names : List Text} {s t : Compilation} (h : ReadsAll fs names s t) :
    s.Grows t :=
  h.works.grows

/-! ## Reading -/

/-- The name has a source: it stands for a cached one, or one can be found. -/
def Resolves (fs : FileSystem) (s : Compilation) (name : Text) : Prop :=
  s.view.resolvedName name ∈ s.view.cached ∨ s.context.rawSource? fs name ≠ none

theorem Runs.mem_cached_of_read {name code : Text} {s t : Compilation}
    (h : Runs fs (.read name) s code t) (hs : s.names.Sourced) (hname : Resolves fs s name) :
    t.view.resolvedName name ∈ t.view.cached := by
  cases h with
  | readKnown hknown => exact hknown
  | readMissing hnew hnone =>
      rcases hname with hknown | hraw
      · exact absurd hknown hnew
      · exact absurd hnone hraw
  | @readFound _ _ raw source target _ _ hnew _ _ hunit =>
      have hnames := names_found name raw target source (s.counted Counter.references)
      have hkeeps := (hunit.keeps (hnames ▸ hs.cache name target source)).1
      rw [hnames] at hkeeps
      exact hkeeps.resolve_mem (hs.resolve_cache_mem hnew target source)

/-- No partial is registered on the way, and partials are looked for in the same places. -/
theorem Works.rawSource?_eq {s t : Compilation} (h : Works fs s t) (name : Text) :
    t.context.rawSource? fs name = s.context.rawSource? fs name := by
  have hplaces : t.view.partials = s.view.partials ∧ t.view.directories = s.view.directories ∧
      t.view.endings = s.view.endings := by
    induction h with
    | done => exact ⟨rfl, rfl, rfl⟩
    | @update s t _ _ hupdate ih =>
        cases hupdate with
        | @found name raw =>
            have hscope := scope_preprocessed raw name t
            exact ⟨(congrArg (fun c => c.partials) hscope).trans ih.1,
              (congrArg (fun c => c.directories) hscope).trans ih.2.1,
              (congrArg (fun c => c.endings) hscope).trans ih.2.2⟩
        | _ => exact ih
    | @merged s t r _ _ ih₁ ih₂ =>
        have hpartials : t.view.partials.absorb r.view.partials = t.view.partials := by
          rw [show r.view.partials = t.view.partials from ih₂.1, OrderedMap.absorb_self]
        exact ⟨hpartials.trans ih₁.1, ih₁.2⟩
  obtain ⟨hpartials, hdirectories, hendings⟩ := hplaces
  unfold Context.rawSource? View.candidates
  rw [hpartials, hdirectories, hendings]

theorem Update.alias_eq_of_missing {s t : Compilation} {name : Text} (h : Update fs s t)
    (hname : s.context.rawSource? fs name = none) :
    t.names.aliases.get? name = s.names.aliases.get? name := by
  cases h with
  | @found other raw source target _ hraw =>
      have hne : name ≠ other := by
        rintro rfl
        simp [hname] at hraw
      rw [names_found, Names.get?_cache, if_neg fun h => hne h.1, Option.or_none]
  | _ => rfl

theorem Works.alias_eq_of_missing {s t : Compilation} {name : Text} (h : Works fs s t)
    (hname : s.context.rawSource? fs name = none) :
    t.names.aliases.get? name = s.names.aliases.get? name := by
  induction h with
  | done => rfl
  | update hworks hupdate ih =>
      have ht := (hworks.rawSource?_eq name).trans hname
      exact (hupdate.alias_eq_of_missing ht).trans (ih hname)
  | @merged s t r hworks _ ih₁ ih₂ =>
      have ht := (hworks.rawSource?_eq name).trans hname
      have hcopy : r.names.aliases.get? name = t.names.aliases.get? name := ih₂ ht
      have hmerged : (t.names.aliases.absorb r.names.aliases).get? name =
          t.names.aliases.get? name := by
        rw [OrderedMap.get?_absorb, hcopy, Option.or_self]
      exact hmerged.trans (ih₁ hname)

/-! ## One renaming for all -/

/-- The renaming says what each name stands for that is cached, or that has no source. -/
def Renames (fs : FileSystem) (rename : Text → Text) (s : Compilation) : Prop :=
  ∀ name, s.names.resolve name ∈ s.names.cached ∨ s.context.rawSource? fs name = none →
    rename name = s.names.resolve name

namespace Renames

variable {rename : Text → Text} {s t : Compilation} {task : Task} {code : Text}

theorem before (h : Renames fs rename t) (hrun : Runs fs task s code t) (hs : s.names.Sourced) :
    Renames fs rename s := by
  intro name hname
  have hkeeps := (hrun.keeps hs).1
  have hsame : t.names.resolve name = s.names.resolve name := by
    rcases hname with hcached | hmissing
    · exact hkeeps.resolve name hcached
    · exact congrArg (fun found => found.getD name) (hrun.works.alias_eq_of_missing hmissing)
  rw [← hsame]
  apply h
  rw [hsame]
  exact hname.imp hkeeps.cached.mem fun hmissing => (hrun.rawSource?_eq name).trans hmissing

theorem before_all {names : List Text} (h : Renames fs rename t) (hreads : ReadsAll fs names s t)
    (hs : s.names.Sourced) : Renames fs rename s := by
  induction hreads with
  | nil => exact h
  | cons hread _ ih => exact (ih h (hread.keeps hs).2).before hread hs

/-- The copy of a nested compilation has no names of its own. -/
theorem copy (h : Renames fs rename (s.merge t)) (hrun : Runs fs task s.isolated code t)
    (hs : s.names.Sourced) : Renames fs rename t := by
  intro name hname
  have hkeeps := hs.keeps_merge (hrun.keeps (s := s.isolated) hs).1
  have hsame : (s.merge t).names.resolve name = t.names.resolve name := by
    rcases hname with hcached | hmissing
    · exact hkeeps.resolve name hcached
    · have hcopy : t.names.aliases.get? name = s.names.aliases.get? name :=
        hrun.works.alias_eq_of_missing ((hrun.rawSource?_eq name).symm.trans hmissing)
      have hmerged : (s.merge t).names.aliases.get? name = t.names.aliases.get? name := by
        show (s.names.aliases.absorb t.names.aliases).get? name = t.names.aliases.get? name
        rw [OrderedMap.get?_absorb, hcopy, Option.or_self]
      exact congrArg (fun found => found.getD name) hmerged
  rw [← hsame]
  apply h
  rw [hsame]
  refine hname.imp hkeeps.cached.mem fun hmissing => ?_
  have hraw : (s.merge t).context.rawSource? fs name = s.context.rawSource? fs name :=
    congrArg (fun c => c.rawSource? fs name) (scope_merge hrun.scope_eq)
  exact hraw.trans ((hrun.rawSource?_eq name).symm.trans hmissing)

/-- After its name was read, a reference has the name that the renaming says. -/
theorem resolvedName_eq {name : Text} (h : Renames fs rename t)
    (hread : Runs fs (.read name) s code t) (hs : s.names.Sourced) :
    t.view.resolvedName name = rename name := by
  refine (h name ?_).symm
  cases hmissing : s.context.rawSource? fs name with
  | none => exact .inr ((hread.rawSource?_eq name).trans hmissing)
  | some raw =>
      have hname : Resolves fs s name := .inr (by simp [hmissing])
      exact .inl (hread.mem_cached_of_read hs hname)

end Renames

/-! ## Dispatching with preprocessing -/

/-- A state of a compilation with dispatching, with these switches and fragments. No block is ever
around, and names that preprocessing gave have sources. -/
structure Calling (flags : Flags) (fragments : Fragments) (s : Compilation) : Prop where
  dispatches : s.view.flags.runtime = true
  flags : s.view.flags = flags
  fragments : s.view.fragments = fragments
  blocks : s.view.blocks = []
  sourced : s.names.Sourced

namespace Calling

variable {flags : Flags} {fragments : Fragments} {s : Compilation} (h : Calling flags fragments s)

include h

theorem emit (e : Event) : Calling flags fragments (s.emit e) :=
  ⟨h.dispatches, h.flags, h.fragments, h.blocks, h.sourced⟩

theorem counted (name : Text) : Calling flags fragments (s.counted name) :=
  ⟨h.dispatches, h.flags, h.fragments, h.blocks, h.sourced⟩

theorem atIndent (w : Text) : Calling flags fragments (atIndent w s) :=
  ⟨h.dispatches, h.flags, h.fragments, h.blocks, h.sourced⟩

theorem isolated : Calling flags fragments s.isolated :=
  ⟨h.dispatches, h.flags, h.fragments, rfl, h.sourced⟩

theorem preprocessed (source name : Text) :
    Calling flags fragments (s.preprocessed source name) := by
  unfold Compilation.preprocessed
  split
  · exact h.emit _
  · exact h

theorem cache (name target source : Text) :
    Calling flags fragments (s.cache name target source) :=
  ⟨h.dispatches, h.flags, h.fragments, h.blocks, h.sourced.cache name target source⟩

theorem closeChecked (name : Text) (closed : Bool) :
    Calling flags fragments (closeChecked name closed s) := by
  cases closed <;> exact ⟨h.dispatches, h.flags, h.fragments, h.blocks, h.sourced⟩

theorem inlineCached {name : Text} (hnew : name ∉ s.view.cached) (source : Text) :
    Calling flags fragments (inlineCached name source (inlineNoted name source s)) := by
  have hbelow := grows_inlineCached (s := inlineNoted name source s) hnew source
  exact ⟨h.dispatches, h.flags, h.fragments, h.blocks, h.sourced.of_below hbelow.cached rfl⟩

theorem after {task : Task} {code : Text} {t : Compilation} (hrun : Runs fs task s code t) :
    Calling flags fragments t := by
  refine ⟨?_, hrun.flags_eq.trans h.flags, hrun.fragments_eq.trans h.fragments, ?_,
    (hrun.keeps h.sourced).2⟩
  · rw [hrun.flags_eq]
    exact h.dispatches
  · rw [hrun.blocks_eq]
    exact h.blocks

end Calling

theorem calling_initial (fs : FileSystem) {options : Options} (hook : Option Hook)
    (h : options.flags.runtime = true) :
    Calling options.flags options.fragments (initial options hook fs) :=
  ⟨h, rfl, rfl, rfl, fun _ _ h => by cases h⟩

/-- Without preprocessing each name stands for itself. -/
theorem renames_of_hookFree {s : Compilation} (h : s.HookFree) : Renames fs id s :=
  fun name _ => (h.resolvedName_eq name).symm

theorem ReadsAll.hookFree {names : List Text} {s t : Compilation} (h : ReadsAll fs names s t)
    (hs : s.HookFree) : t.HookFree := by
  induction h with
  | nil => exact hs
  | cons hread _ ih => exact ih (hread.hookFree hs)

theorem Compiles.resolve_eq_id {options : Options} {source code : Text} {middle final : Compilation}
    (h : Compiles fs options none source code middle final) : final.names.resolve = id :=
  funext (h.reads.hookFree (h.runs.hookFree ⟨rfl, rfl⟩)).resolvedName_eq

end Handlebars

end Inlay
