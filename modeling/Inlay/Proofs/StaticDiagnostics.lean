import Inlay.Proofs.EmbeddedSources
import Inlay.Proofs.PlainText
import Mathlib.Data.List.Cycle
import Mathlib.Logic.Relation

/-!
# What embedding reports

Where partials are embedded, a compilation goes through the references of a
plain template depth first. It reports each reference that has no source,
and each one whose name is being embedded already, and goes on with the
source of every other one. So the reported paths are the walks that come
back to themselves, and every cycle that can be reached is reported.
-/

namespace Inlay

/-! ## Depth-first search -/

/-- What is reported for references with these names, in order. The chain has the names that
are being embedded, innermost first. -/
inductive Reported (found? : Text → Option Text) (skip : Bool) :
    List Text → List Text → List Diagnostic → Prop
  | nil {chain} : Reported found? skip chain [] []
  | missing {chain name names ds} :
      found? name = none → Reported found? skip chain names ds →
      Reported found? skip chain (name :: names)
        ((if skip then [] else [.missingPartial name]) ++ ds)
  | repeated {chain name source names ds} :
      found? name = some source → name ∈ chain → Reported found? skip chain names ds →
      Reported found? skip chain (name :: names)
        (.recursivePartial (chain.reverse ++ [name]) :: ds)
  | descended {chain name source names inner ds} :
      found? name = some source → name ∉ chain →
      Reported found? skip (name :: chain) source.references inner →
      Reported found? skip chain names ds →
      Reported found? skip chain (name :: names) (inner ++ ds)

section Search

variable {found? : Text → Option Text} {skip : Bool} {chain names : List Text}
  {ds : List Diagnostic}

namespace Reported

theorem unique {ds' : List Diagnostic} (h : Reported found? skip chain names ds)
    (h' : Reported found? skip chain names ds') : ds' = ds := by
  induction h generalizing ds' with
  | nil =>
      cases h'
      rfl
  | missing hnone _ ih =>
      cases h' with
      | missing _ h' => rw [ih h']
      | repeated hsource => simp [hnone] at hsource
      | descended hsource => simp [hnone] at hsource
  | repeated hsource hchain _ ih =>
      cases h' with
      | missing hnone => simp [hnone] at hsource
      | repeated _ _ h' => rw [ih h']
      | descended _ hnew => exact absurd hchain hnew
  | descended hsource hnew _ _ ih₁ ih₂ =>
      cases h' with
      | missing hnone => simp [hnone] at hsource
      | repeated _ hchain => exact absurd hchain hnew
      | descended hsource' _ hinner h' =>
          obtain rfl := Option.some.inj (hsource.symm.trans hsource')
          rw [ih₁ hinner, ih₂ h']

theorem append {names' : List Text} {ds' : List Diagnostic}
    (h : Reported found? skip chain names ds) (h' : Reported found? skip chain names' ds') :
    Reported found? skip chain (names ++ names') (ds ++ ds') := by
  induction h with
  | nil => exact h'
  | missing hnone _ ih =>
      rw [List.append_assoc]
      exact .missing hnone (ih h')
  | repeated hsource hchain _ ih => exact .repeated hsource hchain (ih h')
  | descended hsource hnew hinner _ _ ih =>
      rw [List.append_assoc]
      exact .descended hsource hnew hinner (ih h')

/-- A name that has a source is on the chain and reported, or its references are gone through. -/
theorem of_mem (h : Reported found? skip chain names ds) {name source : Text} (hname : name ∈ names)
    (hsource : found? name = some source) :
    (name ∈ chain ∧ .recursivePartial (chain.reverse ++ [name]) ∈ ds) ∨
      (name ∉ chain ∧ ∃ inner, Reported found? skip (name :: chain) source.references inner ∧
        inner ⊆ ds) := by
  induction h with
  | nil => cases hname
  | missing hnone _ ih =>
      rcases List.mem_cons.mp hname with rfl | hname
      · simp [hnone] at hsource
      · refine (ih hname).imp ?_ ?_
        · exact fun ⟨hchain, hmem⟩ => ⟨hchain, List.mem_append_right _ hmem⟩
        · exact fun ⟨hnew, inner, hinner, hsub⟩ =>
            ⟨hnew, inner, hinner, List.subset_append_of_subset_right _ hsub⟩
  | repeated _ hchain _ ih =>
      rcases List.mem_cons.mp hname with rfl | hname
      · exact .inl ⟨hchain, List.mem_cons_self⟩
      · refine (ih hname).imp ?_ ?_
        · exact fun ⟨hchain, hmem⟩ => ⟨hchain, List.mem_cons_of_mem _ hmem⟩
        · exact fun ⟨hnew, inner, hinner, hsub⟩ =>
            ⟨hnew, inner, hinner, List.subset_cons_of_subset _ hsub⟩
  | descended hsource' hnew hinner _ _ ih =>
      rcases List.mem_cons.mp hname with rfl | hname
      · obtain rfl := Option.some.inj (hsource.symm.trans hsource')
        exact .inr ⟨hnew, _, hinner, List.subset_append_left _ _⟩
      · refine (ih hname).imp ?_ ?_
        · exact fun ⟨hchain, hmem⟩ => ⟨hchain, List.mem_append_right _ hmem⟩
        · exact fun ⟨hnew, inner, hinner, hsub⟩ =>
            ⟨hnew, inner, hinner, List.subset_append_of_subset_right _ hsub⟩

end Reported

/-! ## Walks that come back -/

/-- The source of the first name refers to the second one. -/
def Cites (found? : Text → Option Text) (caller callee : Text) : Prop :=
  ∃ source, found? caller = some source ∧ callee ∈ source.references

/-- A walk along references from one of the names: the names on it are distinct and not on the
chain, and the reference after it leads back to the walk or to the chain. -/
structure ComesBack (found? : Text → Option Text) (chain names walk : List Text) (again : Text) :
    Prop where
  starts : ∃ first ∈ names, (walk ++ [again]).head? = some first
  cites : (walk ++ [again]).IsChain (Cites found?)
  nodup : walk.Nodup
  fresh : ∀ name ∈ walk, name ∉ chain
  back : again ∈ walk ∨ again ∈ chain

theorem ComesBack.mono {names' walk : List Text} {again : Text}
    (h : ComesBack found? chain names walk again) (hsub : names ⊆ names') :
    ComesBack found? chain names' walk again := by
  obtain ⟨first, hfirst, hhead⟩ := h.starts
  exact ⟨⟨first, hsub hfirst, hhead⟩, h.cites, h.nodup, h.fresh, h.back⟩

/-- Before a walk that comes back to it, a name makes a walk that comes back. -/
theorem ComesBack.cons {name source again : Text} {walk : List Text}
    (h : ComesBack found? (name :: chain) source.references walk again)
    (hsource : found? name = some source) (hnew : name ∉ chain) (hname : name ∈ names) :
    ComesBack found? chain names (name :: walk) again where
  starts := ⟨name, hname, rfl⟩
  cites := by
    obtain ⟨first, hfirst, hhead⟩ := h.starts
    refine List.isChain_cons.mpr ⟨fun next hnext => ?_, h.cites⟩
    obtain rfl := Option.some.inj (hhead.symm.trans hnext)
    exact ⟨source, hsource, hfirst⟩
  nodup := List.nodup_cons.mpr ⟨fun hmem => h.fresh name hmem List.mem_cons_self, h.nodup⟩
  fresh := by
    refine List.forall_mem_cons.mpr ⟨hnew, fun other hother hchain => ?_⟩
    exact h.fresh other hother (List.mem_cons_of_mem _ hchain)
  back := by
    rcases h.back with hwalk | hchain
    · exact .inl (List.mem_cons_of_mem _ hwalk)
    · rcases List.mem_cons.mp hchain with rfl | hchain
      · exact .inl List.mem_cons_self
      · exact .inr hchain

/-- Every reported path is a walk that comes back. -/
theorem Reported.comesBack (h : Reported found? skip chain names ds) {path : List Text}
    (hpath : .recursivePartial path ∈ ds) :
    ∃ walk again, path = chain.reverse ++ (walk ++ [again]) ∧
      ComesBack found? chain names walk again := by
  induction h generalizing path with
  | nil => cases hpath
  | missing hnone _ ih =>
      rcases List.mem_append.mp hpath with hpath | hpath
      · split at hpath
        · cases hpath
        · cases List.mem_singleton.mp hpath
      · obtain ⟨walk, again, hwalk, hback⟩ := ih hpath
        exact ⟨walk, again, hwalk, hback.mono (List.subset_cons_self _ _)⟩
  | @repeated chain name source names ds hsource hchain _ ih =>
      rcases List.mem_cons.mp hpath with hpath | hpath
      · obtain rfl := Diagnostic.recursivePartial.inj hpath
        exact ⟨[], name, rfl, ⟨name, List.mem_cons_self, rfl⟩, List.isChain_singleton _,
          List.nodup_nil, fun _ hmem => absurd hmem List.not_mem_nil, .inr hchain⟩
      · obtain ⟨walk, again, hwalk, hback⟩ := ih hpath
        exact ⟨walk, again, hwalk, hback.mono (List.subset_cons_self _ _)⟩
  | @descended chain name source names inner ds hsource hnew _ _ ih₁ ih₂ =>
      rcases List.mem_append.mp hpath with hpath | hpath
      · obtain ⟨walk, again, rfl, hback⟩ := ih₁ hpath
        refine ⟨name :: walk, again, ?_, hback.cons hsource hnew List.mem_cons_self⟩
        rw [List.reverse_cons, List.append_assoc]
        rfl
      · obtain ⟨walk, again, hwalk, hback⟩ := ih₂ hpath
        exact ⟨walk, again, hwalk, hback.mono (List.subset_cons_self _ _)⟩

/-- Every walk that comes back is reported. -/
theorem Reported.mem_of_comesBack {walk : List Text} {again : Text}
    (h : Reported found? skip chain names ds) (hback : ComesBack found? chain names walk again)
    (hchain : ∀ name ∈ chain, found? name ≠ none) :
    .recursivePartial (chain.reverse ++ (walk ++ [again])) ∈ ds := by
  induction walk generalizing chain names ds with
  | nil =>
      obtain ⟨first, hfirst, hhead⟩ := hback.starts
      obtain rfl := Option.some.inj hhead
      have hmem := hback.back.resolve_left List.not_mem_nil
      obtain ⟨source, hsource⟩ := Option.ne_none_iff_exists'.mp (hchain again hmem)
      rcases h.of_mem hfirst hsource with ⟨-, hreported⟩ | ⟨hnew, -⟩
      · exact hreported
      · exact absurd hmem hnew
  | cons name walk ih =>
      obtain ⟨first, hfirst, hhead⟩ := hback.starts
      obtain rfl := Option.some.inj hhead
      have hnew := hback.fresh name List.mem_cons_self
      obtain ⟨hnext, hcites⟩ := List.isChain_cons.mp hback.cites
      obtain ⟨next, hhead'⟩ : ∃ next, (walk ++ [again]).head? = some next := by
        cases walk with
        | nil => exact ⟨_, rfl⟩
        | cons next walk => exact ⟨_, rfl⟩
      obtain ⟨source, hsource, hcited⟩ := hnext next hhead'
      obtain ⟨hnotin, hnodup⟩ := List.nodup_cons.mp hback.nodup
      rcases h.of_mem hfirst hsource with ⟨hmem, -⟩ | ⟨-, inner, hinner, hsub⟩
      · exact absurd hmem hnew
      · have hrest : ComesBack found? (name :: chain) source.references walk again := by
          refine ⟨⟨next, hcited, hhead'⟩, hcites, hnodup, fun other hother hmem => ?_, ?_⟩
          · rcases List.mem_cons.mp hmem with rfl | hmem
            · exact hnotin hother
            · exact hback.fresh other (List.mem_cons_of_mem _ hother) hmem
          · rcases hback.back with hwalk | hmem
            · rcases List.mem_cons.mp hwalk with rfl | hwalk
              · exact .inr List.mem_cons_self
              · exact .inl hwalk
            · exact .inr (List.mem_cons_of_mem _ hmem)
        have hfound : ∀ other ∈ name :: chain, found? other ≠ none := by
          refine List.forall_mem_cons.mpr ⟨?_, hchain⟩
          rw [hsource]
          exact Option.some_ne_none source
        have hreported := ih hinner hrest hfound
        rw [List.reverse_cons, List.append_assoc] at hreported
        exact hsub hreported

/-! ## Cycles -/

/-- A way that leads into a set leads into it by distinct names before. -/
theorem exists_distinct_way {r : Text → Text → Prop} {start finish : Text} (into : Text → Prop)
    (h : Relation.ReflTransGen r start finish) (hfinish : into finish) : ∃ before entry,
    into entry ∧ (before ++ [entry]).head? = some start ∧ (before ++ [entry]).IsChain r ∧
      before.Nodup ∧ ∀ name ∈ before, ¬ into name := by
  induction h using Relation.ReflTransGen.head_induction_on with
  | refl =>
      exact ⟨[], finish, hfinish, rfl, List.isChain_singleton _, List.nodup_nil,
        fun _ hmem => absurd hmem List.not_mem_nil⟩
  | @head start next hstep _ ih =>
      by_cases hinto : into start
      · exact ⟨[], start, hinto, rfl, List.isChain_singleton _, List.nodup_nil,
          fun _ hmem => absurd hmem List.not_mem_nil⟩
      obtain ⟨before, entry, hentry, hhead, hway, hnodup, hout⟩ := ih
      by_cases hmem : start ∈ before
      · -- the way comes by the start again, and goes on from there
        obtain ⟨front, back, rfl⟩ := List.append_of_mem hmem
        rw [List.append_assoc] at hway
        exact ⟨start :: back, entry, hentry, rfl, hway.right_of_append,
          (List.nodup_append.mp hnodup).2.1, fun name hname =>
            hout name (List.mem_append_right _ hname)⟩
      · refine ⟨start :: before, entry, hentry, rfl, ?_, List.nodup_cons.mpr ⟨hmem, hnodup⟩,
          List.forall_mem_cons.mpr ⟨hinto, hout⟩⟩
        refine List.isChain_cons.mpr ⟨fun other hother => ?_, hway⟩
        obtain rfl := Option.some.inj (hhead.symm.trans hother)
        exact hstep

/-- A cycle of distinct names that can be reached is the end of a walk that comes back. -/
theorem exists_comesBack_of_cycle {cycle : Cycle Text} (hnodup : cycle.Nodup)
    (hcites : cycle.Chain (Cites found?)) {start member : Text} (hstart : start ∈ names)
    (hreach : Relation.ReflTransGen (Cites found?) start member) (hmember : member ∈ cycle) :
    ∃ before entry rest, (entry :: rest : List Text) = cycle ∧
      ComesBack found? [] names (before ++ entry :: rest) entry := by
  obtain ⟨before, entry, hentry, hhead, hway, hbefore, hout⟩ :=
    exists_distinct_way (· ∈ cycle) hreach hmember
  induction cycle using Quotient.inductionOn with
  | h members =>
      obtain ⟨front, back, rfl⟩ := List.append_of_mem hentry
      have hrotated : ((entry :: (back ++ front) : List Text) : Cycle Text) =
          ((front ++ entry :: back : List Text) : Cycle Text) :=
        Cycle.coe_eq_coe.mpr (List.isRotated_append (l := entry :: back))
      refine ⟨before, entry, back ++ front, hrotated, ?_⟩
      have hround : (entry :: ((back ++ front) ++ [entry])).IsChain (Cites found?) := by
        rw [← Cycle.chain_coe_cons, hrotated]
        exact hcites
      have hdistinct : (entry :: (back ++ front)).Nodup := by
        rw [← Cycle.nodup_coe_iff, hrotated]
        exact hnodup
      refine ⟨⟨start, hstart, ?_⟩, ?_, ?_, fun _ _ => List.not_mem_nil, ?_⟩
      · cases before with
        | nil => exact hhead
        | cons first before => exact hhead
      · rw [List.append_assoc, List.cons_append]
        exact List.isChain_split.mpr ⟨hway, hround⟩
      · refine List.nodup_append.mpr ⟨hbefore, hdistinct, fun a ha b hb hab => ?_⟩
        refine hout a ha ?_
        show a ∈ ((front ++ entry :: back : List Text) : Cycle Text)
        rw [← hrotated, hab]
        exact hb
      · exact .inl (List.mem_append_right _ List.mem_cons_self)

end Search

/-! ## Runs -/

namespace Text

theorem references_nodes (s : Text) : s.nodes.flatMap Node.references = s.references := by
  unfold references Node.references
  rw [← tags_nodes, List.filterMap_flatMap]

/-- Embedding changes no name in a source. -/
theorem references_embedded {v : View} (h : ∀ d ∈ v.lineIndent, isBlank d = true) (source : Text) :
    (embedded v source).references = source.references := by
  unfold embedded
  split
  · rfl
  · exact references_indentLines h source

end Text

namespace Handlebars

open Compilation

/-- The escaped source of a partial. -/
def escapedSource? (fs : FileSystem) (c : Context) (name : Text) : Option Text :=
  (c.rawSource? fs name).map Text.escape

/-- A state on the way of a hook-free compilation that embeds plain sources: only the chain and
the indentation of the line differ from the context `c` that it started in, and what is cached
are escaped sources. -/
structure Visiting (fs : FileSystem) (c : Context) (s : Compilation) : Prop where
  scope : s.scope = { c with chain := s.view.chain, lineIndent := s.view.lineIndent }
  aliases : s.view.aliases = ∅
  cached : ∀ name source, s.view.cached.get? name = some source →
    escapedSource? fs c name = some source
  nodup : s.view.chain.Nodup

variable {fs : FileSystem} {c : Context}

namespace Visiting

variable {s t : Compilation} (h : Visiting fs c s)

include h

theorem flags_eq : s.view.flags = c.flags :=
  congrArg (fun c => c.flags) h.scope

theorem rawSource?_eq (name : Text) : s.context.rawSource? fs name = c.rawSource? fs name := by
  show s.scope.rawSource? fs name = _
  rw [h.scope]
  rfl

theorem hookFree (hhook : c.hook = none) : s.HookFree :=
  ⟨(congrArg (fun c => c.hook) h.scope).trans hhook, h.aliases⟩

theorem atIndent (w : Text) : Visiting fs c (atIndent w s) := by
  refine ⟨?_, h.aliases, h.cached, h.nodup⟩
  rw [scope_atIndent, h.scope]
  rfl

theorem enter {name : Text} (hnew : name ∉ s.view.chain) : Visiting fs c (s.enter name) := by
  refine ⟨?_, h.aliases, h.cached, List.nodup_cons.mpr ⟨hnew, h.nodup⟩⟩
  rw [scope_enter, h.scope]
  rfl

/-- A state with the same scope is on the way as well, if only escaped sources were cached. -/
theorem of_scope (hscope : t.scope = s.scope) (haliases : t.view.aliases = ∅)
    (hcached : ∀ name source, t.view.cached.get? name = some source →
      escapedSource? fs c name = some source) : Visiting fs c t := by
  have hchain : t.view.chain = s.view.chain := congrArg (fun c => c.chain) hscope
  have hindent : t.view.lineIndent = s.view.lineIndent := congrArg (fun c => c.lineIndent) hscope
  refine ⟨?_, haliases, hcached, hchain ▸ h.nodup⟩
  rw [hscope, h.scope, hchain, hindent]

theorem escapedSource?_eq (name : Text) :
    escapedSource? fs c name = (s.context.rawSource? fs name).map Text.escape := by
  rw [h.rawSource?_eq]
  rfl

theorem counted (counter : Text) : Visiting fs c (s.counted counter) :=
  ⟨h.scope, h.aliases, h.cached, h.nodup⟩

/-- A source that is found is cached. -/
theorem cache (hhook : c.hook = none) {name raw : Text}
    (hfound : escapedSource? fs c name = some raw.escape) : Visiting fs c (s.cache name name raw) :=
  h.of_scope rfl ((h.hookFree hhook).cache name raw).aliases
    (OrderedMap.forall_insertIfNew h.cached hfound)

/-- Nothing is cached for a partial that is missing. -/
theorem missed (name : Text) : Visiting fs c (s.missed name) := by
  have hnames := names_missed name s
  refine h.of_scope (scope_missed ..) ((congrArg Names.aliases hnames).trans h.aliases) ?_
  rw [cached_missed]
  exact h.cached

end Visiting

/-- From `s` to `t` this is reported for references with these names. -/
def Reports (fs : FileSystem) (c : Context) (names : List Text) (s t : Compilation) : Prop :=
  Visiting fs c t ∧ ∃ ds, t.view.diagnostics = s.view.diagnostics ++ ds ∧
    Reported (escapedSource? fs c) c.flags.skipMissing s.view.chain names ds

/-- What a task reports. -/
def Task.Reports (fs : FileSystem) (c : Context) (s t : Compilation) : Task → Prop
  | .text source => (source.Plain fun _ => True) → Handlebars.Reports fs c source.references s t
  | .nodes ns => (∀ n ∈ ns, n.Plain fun _ => True) →
      Handlebars.Reports fs c (ns.flatMap Node.references) s t
  | .node n => (n.Plain fun _ => True) → Handlebars.Reports fs c n.references s t
  | .read name => Visiting fs c t ∧ t.view.cached.get? name = escapedSource? fs c name ∧
      t.view.diagnostics = s.view.diagnostics ++
        if escapedSource? fs c name = none ∧ c.flags.skipMissing = false then [.missingPartial name]
        else []
  | .unit _ => t = s
  | .apart _ => True
  | .embed name => (∀ d ∈ s.view.lineIndent, isBlank d = true) →
      s.view.cached.get? name = escapedSource? fs c name →
      (escapedSource? fs c name = none →
        c.flags.skipMissing = true ∨ .missingPartial name ∈ s.view.diagnostics) →
      Visiting fs c t ∧ ∃ ds, t.view.diagnostics = s.view.diagnostics ++ ds ∧
        (escapedSource? fs c name = none → ds = []) ∧
        ∀ source, escapedSource? fs c name = some source →
          (name ∈ s.view.chain ∧ ds = [.recursivePartial (s.view.chain.reverse ++ [name])]) ∨
          (name ∉ s.view.chain ∧ Reported (escapedSource? fs c) c.flags.skipMissing
            (name :: s.view.chain) source.references ds)

theorem plain_embedded {v : View} (h : ∀ d ∈ v.lineIndent, isBlank d = true) {source : Text}
    (hsource : source.Plain fun _ => True) : (embedded v source).Plain fun _ => True := by
  unfold embedded
  split
  · exact hsource
  · exact hsource.indentLines h

/-- What reading and embedding report makes up what the reference reports. -/
theorem reported_reference {found? : Text → Option Text} {skip : Bool} {chain : List Text}
    {name : Text} {ds : List Diagnostic} (hmissing : found? name = none → ds = [])
    (hfound : ∀ source, found? name = some source →
      (name ∈ chain ∧ ds = [.recursivePartial (chain.reverse ++ [name])]) ∨
      (name ∉ chain ∧ Reported found? skip (name :: chain) source.references ds)) :
    Reported found? skip chain [name]
      ((if found? name = none ∧ skip = false then [.missingPartial name] else []) ++ ds) := by
  cases hsource : found? name with
  | none =>
      rw [hmissing hsource]
      have hreported : Reported found? skip chain [name]
          ((if skip then [] else [.missingPartial name]) ++ []) := .missing hsource .nil
      cases skip with
      | true => exact hreported
      | false => exact hreported
  | some source =>
      rw [if_neg fun h => by cases h.1]
      rcases hfound source hsource with ⟨hmem, rfl⟩ | ⟨hnew, hinner⟩
      · exact .repeated hsource hmem .nil
      · have hreported := Reported.descended hsource hnew hinner .nil
        rwa [List.append_nil] at hreported

theorem Runs.reports (hplain : ∀ name raw, c.rawSource? fs name = some raw → raw.Plain fun _ => True)
    (hhook : c.hook = none) (hembeds : c.flags.runtime = false) {task : Task} {s t : Compilation}
    {code : Text} (h : Runs fs task s code t) (hs : Visiting fs c s) : task.Reports fs c s t := by
  have hembeds' : ∀ {s : Compilation}, Visiting fs c s → s.view.flags.runtime = false :=
    fun hs => (congrArg Flags.runtime hs.flags_eq).trans hembeds
  induction h with
  | @text source s code t _ ih =>
      intro hsource
      rw [← Text.references_nodes]
      exact ih ⟨hs.scope, hs.aliases, hs.cached, hs.nodup⟩ fun n hn => hsource.node hn
  | nil => exact fun _ => ⟨hs, [], (List.append_nil _).symm, .nil⟩
  | @cons n ns s a s₁ b t h₁ _ ih₁ ih₂ =>
      intro hnodes
      obtain ⟨hn, hns⟩ := List.forall_mem_cons.mp hnodes
      obtain ⟨hs₁, ds₁, hdiagnostics₁, hds₁⟩ := ih₁ hs hn
      obtain ⟨ht, ds₂, hdiagnostics₂, hds₂⟩ := ih₂ hs₁ hns
      rw [h₁.chain_eq] at hds₂
      refine ⟨ht, ds₁ ++ ds₂, ?_, hds₁.append hds₂⟩
      rw [hdiagnostics₂, hdiagnostics₁, List.append_assoc]
  | literal => exact fun _ => ⟨hs, [], (List.append_nil _).symm, .nil⟩
  | «variable» => exact fun _ => ⟨hs, [], (List.append_nil _).symm, .nil⟩
  | dispatched h₁ hruntime ih => simp [hembeds' (ih (hs.atIndent _)).1] at hruntime
  | @embedded name indent s u s₁ code t h₁ _ h₂ ih₁ ih₂ =>
      intro hn
      obtain ⟨hs₁, hcached, hread⟩ := ih₁ (hs.atIndent _)
      have hresolved : s₁.view.resolvedName (s₁.view.resolvedName name) = name := by
        rw [(hs₁.hookFree hhook).resolvedName_eq, (hs₁.hookFree hhook).resolvedName_eq]
      rw [hresolved] at ih₂
      have hblank : ∀ d ∈ s₁.view.lineIndent, isBlank d = true := by
        have hindent : s₁.view.lineIndent = indent.getD [] :=
          congrArg (fun c => c.lineIndent) h₁.scope_eq
        exact fun d hd => isBlank_of_space_or_tab (hn.2 d (hindent ▸ hd))
      -- a partial that is missing is reported when it is read, and not again when it is embedded
      have htold : escapedSource? fs c name = none →
          c.flags.skipMissing = true ∨ .missingPartial name ∈ s₁.view.diagnostics := by
        intro hnone
        cases hskip : c.flags.skipMissing with
        | true => exact .inl rfl
        | false =>
            rw [hread, if_pos ⟨hnone, hskip⟩]
            exact .inr (List.mem_append_right _ List.mem_cons_self)
      obtain ⟨ht, ds, hdiagnostics, hmissing, hfound⟩ := ih₂ hs₁ hblank hcached htold
      rw [show s₁.view.chain = s.view.chain from h₁.chain_eq] at hfound
      refine ⟨ht.atIndent _, _, ?_, reported_reference hmissing hfound⟩
      show t.view.diagnostics = _
      rw [hdiagnostics, hread, List.append_assoc]
      rfl
  | dynamic => exact fun hn => hn.elim
  | enclosed => exact fun hn => hn.elim
  | enclosedCall => exact fun hn => hn.elim
  | notEnclosed => exact fun hn => hn.elim
  | blockDispatched => exact fun hn => hn.elim
  | blockEmbedded => exact fun hn => hn.elim
  | inlineKnown => exact fun hn => hn.elim
  | inlineNew => exact fun hn => hn.elim
  | strayClose => exact fun hn => hn.elim
  | @readKnown name s hknown =>
      rw [(hs.hookFree hhook).resolvedName_eq] at hknown
      obtain ⟨source, hsource⟩ := OrderedMap.mem_iff_exists_get?.mp hknown
      have hfound := hs.cached name source hsource
      refine ⟨hs.counted _, hsource.trans hfound.symm, ?_⟩
      rw [hfound, if_neg fun h => by cases h.1]
      exact (List.append_nil _).symm
  | @readMissing name s hunknown hnone =>
      rw [(hs.hookFree hhook).resolvedName_eq] at hunknown
      have hfound : escapedSource? fs c name = none := by
        rw [hs.escapedSource?_eq, hnone, Option.map_none]
      have hcounted := hs.counted Counter.references
      refine ⟨hcounted.missed name, ?_, ?_⟩
      · rw [cached_missed, hfound]
        exact OrderedMap.get?_eq_none_iff.mpr hunknown
      · rw [diagnostics_missed, hcounted.flags_eq, hfound]
        cases c.flags.skipMissing with
        | true => rfl
        | false => rfl
  | @readFound name s raw source target u t hunknown hraw hparts h ih =>
      have hcounted := hs.counted Counter.references
      have hfree := hcounted.hookFree hhook
      obtain ⟨rfl, rfl⟩ := hfree.parts_eq hparts
      rw [(hs.hookFree hhook).resolvedName_eq] at hunknown
      have hfound : escapedSource? fs c name = some raw.escape := by
        rw [hs.escapedSource?_eq, hraw, Option.map_some]
      rw [hfree.preprocessed_eq] at ih
      have hcache := hcounted.cache hhook hfound
      obtain rfl : t = _ := ih hcache
      refine ⟨hcache, ?_, ?_⟩
      · rw [hfound]
        exact OrderedMap.get?_insertIfNew_self hunknown _
      · rw [hfound, if_neg fun h => by cases h.1]
        exact (List.append_nil _).symm
  | unitIdle => rfl
  | unitNew hruntime => simp [hembeds' hs] at hruntime
  | apart => trivial
  | @embedMissing name s hnone =>
      intro _ hcached htold
      have hfound : escapedSource? fs c name = none := hcached.symm.trans hnone
      rw [missedOnce_eq_self (hs.flags_eq ▸ htold hfound)]
      refine ⟨hs, [], (List.append_nil _).symm, fun _ => rfl, fun source hsource => ?_⟩
      rw [hfound] at hsource
      cases hsource
  | embedOpen _ hruntime => simp [hembeds' hs] at hruntime
  | @embedGuarded name s source code t hsource _ hnodup h ih =>
      intro hblank hcached _
      have hfound : escapedSource? fs c name = some source := hcached.symm.trans hsource
      have hnew := (List.nodup_cons.mp hnodup).1
      obtain ⟨raw, hraw, rfl⟩ := Option.map_eq_some_iff.mp hfound
      have hescaped : raw.escape.Plain fun _ => True :=
        (hplain name raw hraw).escaped fun _ _ => trivial
      obtain ⟨ht, ds, hdiagnostics, hds⟩ := ih (hs.enter hnew) (plain_embedded hblank hescaped)
      rw [Text.references_embedded hblank] at hds
      refine ⟨hs.of_scope ?_ ht.aliases ht.cached, ds, hdiagnostics, fun hnone => ?_,
        fun other hother => .inr ⟨hnew, ?_⟩⟩
      · rw [scope_leave, h.scope_eq]
        rfl
      · rw [hfound] at hnone
        cases hnone
      · obtain rfl := Option.some.inj (hfound.symm.trans hother)
        exact hds
  | @embedRepeated name s source hsource _ hrepeated =>
      intro _ hcached _
      have hfound : escapedSource? fs c name = some source := hcached.symm.trans hsource
      have hmem : name ∈ s.view.chain := by
        by_contra hnew
        exact hrepeated (List.nodup_cons.mpr ⟨hnew, hs.nodup⟩)
      refine ⟨⟨hs.scope, hs.aliases, hs.cached, hs.nodup⟩, _, rfl, fun hnone => ?_,
        fun other _ => .inl ⟨hmem, ?_⟩⟩
      · rw [hfound] at hnone
        cases hnone
      · rw [List.reverse_cons]

/-- Reading partials that have sources reports nothing. -/
theorem ReadsAll.diagnostics_eq
    (hplain : ∀ name raw, c.rawSource? fs name = some raw → raw.Plain fun _ => True)
    (hhook : c.hook = none) (hembeds : c.flags.runtime = false) {names : List Text}
    {s t : Compilation} (h : ReadsAll fs names s t) (hs : Visiting fs c s)
    (hnames : ∀ name ∈ names, escapedSource? fs c name ≠ none) :
    t.view.diagnostics = s.view.diagnostics := by
  induction h with
  | nil => rfl
  | cons hread _ ih =>
      obtain ⟨hname, hnames⟩ := List.forall_mem_cons.mp hnames
      obtain ⟨hs₁, -, hdiagnostics⟩ := hread.reports hplain hhook hembeds hs
      rw [ih hs₁ hnames, hdiagnostics, if_neg fun h => hname h.1, List.append_nil]

/-- What is reported where partials are embedded and all texts are plain, in terms of the names
in escaped texts. The diagnostics are what a depth-first search through the references reports.
The reported paths are the walks that come back to themselves, and every cycle that the template
reaches is the end of one of them. -/
theorem static_diagnostics_exact (fs : FileSystem) (options : Options) (template : Text)
    (hembeds : options.flags.runtime = false) (htemplate : template.Plain fun _ => True)
    (hplain : ∀ name raw, (Context.start options none fs).rawSource? fs name = some raw →
      raw.Plain fun _ => True) :
    ∃ outcome, compile fs options none template = some outcome ∧
      (∀ ds, Reported (escapedSource? fs (Context.start options none fs)) options.flags.skipMissing
        [] template.escape.references ds ↔ ds = outcome.diagnostics) ∧
      (∀ path, .recursivePartial path ∈ outcome.diagnostics ↔ ∃ walk again,
        path = walk ++ [again] ∧
          ComesBack (escapedSource? fs (Context.start options none fs)) []
            template.escape.references walk again) ∧
      (∀ path, .recursivePartial path ∈ outcome.diagnostics →
        List.intercalate " -> ".toList path <:+: (Diagnostic.recursivePartial path).message) ∧
      ∀ cycle : Cycle Text, cycle.Nodup →
        cycle.Chain (Cites (escapedSource? fs (Context.start options none fs))) →
        ∀ start ∈ template.escape.references, ∀ member ∈ cycle,
        Relation.ReflTransGen (Cites (escapedSource? fs (Context.start options none fs)))
          start member →
        ∃ before entry rest, (entry :: rest : List Text) = cycle ∧
          .recursivePartial (before ++ entry :: rest ++ [entry]) ∈ outcome.diagnostics := by
  obtain ⟨code, middle, final, hrun, hcompiles⟩ := exists_compiles fs options template
  have hs : Visiting fs (initial options none fs).scope (initial options none fs) :=
    ⟨rfl, rfl, fun _ _ h => (nomatch h), List.nodup_nil⟩
  have hplain : ∀ name raw, (initial options none fs).scope.rawSource? fs name = some raw →
      raw.Plain fun _ => True := hplain
  have hescaped : template.escape.Plain fun _ => True := htemplate.escaped fun _ _ => trivial
  obtain ⟨hmiddle, ds, hds, hreported⟩ := hcompiles.runs.reports hplain rfl hembeds hs hescaped
  have hpreloaded : ∀ name ∈ preloaded middle.view,
      escapedSource? fs (initial options none fs).scope name ≠ none := by
    intro name hname hnone
    have hregistered : HasSource fs middle.context name :=
      hasSource_of_mem_partials (mem_partials_of_mem_preloaded hname)
    exact hregistered ((hmiddle.rawSource?_eq name).trans (Option.map_eq_none_iff.mp hnone))
  have hfinal : final.view.diagnostics = ds :=
    (hcompiles.reads.diagnostics_eq hplain rfl hembeds hmiddle hpreloaded).trans hds
  have hexact : Reported (escapedSource? fs (Context.start options none fs))
      options.flags.skipMissing [] template.escape.references final.view.diagnostics :=
    hfinal ▸ hreported
  refine ⟨Outcome.ofRun (code, final), by unfold compile; rw [hrun]; rfl, fun other => ?_,
    fun path => ?_, fun path _ => ?_, ?_⟩
  · constructor
    · exact hexact.unique
    · rintro rfl
      exact hexact
  · constructor
    · exact hexact.comesBack
    · rintro ⟨walk, again, rfl, hback⟩
      exact hexact.mem_of_comesBack hback fun _ h => absurd h List.not_mem_nil
  · exact ⟨_, _, rfl⟩
  · intro cycle hnodup hcites start hstart member hmember hreach
    obtain ⟨before, entry, rest, hcycle, hback⟩ :=
      exists_comesBack_of_cycle hnodup hcites hstart hreach hmember
    exact ⟨before, entry, rest, hcycle,
      hexact.mem_of_comesBack hback fun _ h => absurd h List.not_mem_nil⟩

/-- Two partials that refer to each other, and one of them to a partial that is not there. -/
def circularOptions : Options :=
  { Options.standard with
    partials := .ofList
      [("a".toList, "\x7b\x7b> b\x7d\x7d".toList),
        ("b".toList, "\x7b\x7b> a\x7d\x7d \x7b\x7b> c\x7d\x7d".toList)] }

theorem static_diagnostics_exact_circular :
    circularOptions.flags.runtime = false ∧
    (∀ source ∈ rawTexts (.emptyAt ['/'])
      (Context.start circularOptions none (.emptyAt ['/'])).toView "\x7b\x7b> a\x7d\x7d".toList,
      source.Plain fun _ => True) ∧
    ∃ outcome, compile (.emptyAt ['/']) circularOptions none "\x7b\x7b> a\x7d\x7d".toList =
        some outcome ∧
      (∀ ds, Reported (escapedSource? (.emptyAt ['/'])
        (Context.start circularOptions none (.emptyAt ['/']))) false []
        (Text.escape "\x7b\x7b> a\x7d\x7d".toList).references ds ↔ ds = outcome.diagnostics) ∧
      ∀ path, .recursivePartial path ∈ outcome.diagnostics ↔ ∃ walk again,
        path = walk ++ [again] ∧ ComesBack (escapedSource? (.emptyAt ['/'])
          (Context.start circularOptions none (.emptyAt ['/']))) []
          (Text.escape "\x7b\x7b> a\x7d\x7d".toList).references walk again := by
  have hplain : ∀ source ∈ rawTexts (.emptyAt ['/'])
      (Context.start circularOptions none (.emptyAt ['/'])).toView "\x7b\x7b> a\x7d\x7d".toList,
      source.Plain fun _ => True := by
    decide +kernel
  obtain ⟨outcome, hcompile, hexact, hpaths, -⟩ :=
    static_diagnostics_exact (.emptyAt ['/']) circularOptions "\x7b\x7b> a\x7d\x7d".toList rfl
      (hplain _ List.mem_cons_self) fun name raw h => hplain raw (mem_rawTexts_of_rawSource? h _)
  exact ⟨rfl, hplain, outcome, hcompile, hexact, hpaths⟩

/-- The example reports the cycle along the path to it, and the missing partial once. -/
example : (compile (.emptyAt ['/']) circularOptions none "\x7b\x7b> a\x7d\x7d".toList).map
    (fun o => o.diagnostics) = some [.recursivePartial ["a".toList, "b".toList, "a".toList],
      .missingPartial "c".toList] := by
  decide +kernel

end Handlebars

end Inlay
