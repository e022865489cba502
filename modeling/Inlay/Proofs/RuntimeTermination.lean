import Inlay.Proofs.Frame
import Inlay.Proofs.Masking
import Inlay.Proofs.References

/-!
# Dispatching comes to an end

Where partials are dispatched, a source is compiled apart once its name is
cached, and the body of a block or an inline definition is shorter than the
text around it. So each call of the host has fewer names left that are not
cached, or as many names and a shorter text. A text that is compiled apart is
masked, and masking such a text again changes nothing.
-/

namespace Inlay.Handlebars

open Compilation

variable {fs : FileSystem} {c : Context} {names : List Text} {limit : Nat}

/-! ## Texts that are compiled apart -/

/-- A masked text that refers to listed names only and is not too long. -/
structure UnitText (names : List Text) (limit : Nat) (source : Text) : Prop where
  masked : ¬ Keyword.word <:+: source
  references : source.references ⊆ names
  length : source.length ≤ limit

/-- What a node needs for its texts to be compiled apart: its names are listed, and
its body is shorter than `size` when it is masked. -/
structure NodeFits (names : List Text) (limit size : Nat) (n : Node) : Prop where
  references : n.references ⊆ names
  body : ∀ body, n.body? = some body →
    UnitText names limit (Keyword.mask body) ∧ (Keyword.mask body).length < size
  source : ∀ body, n.body? = some body →
    UnitText names limit (Keyword.mask (Keyword.unmask body)) ∧
      (Keyword.mask (Keyword.unmask body)).length < size

theorem UnitText.nodes {source : Text} (h : UnitText names limit source) :
    ∀ n ∈ source.nodes, NodeFits names limit source.length n := by
  intro n hn
  have href := Node.references_subset hn
  have hbody : ∀ body, n.body? = some body →
      UnitText names limit body ∧ body.length < source.length := by
    intro body hb
    obtain ⟨hinside, hless⟩ := Node.body?_isInfix hn hb
    refine ⟨⟨fun hw => h.masked (hw.trans hinside), ?_, ?_⟩, hless⟩
    · exact List.Subset.trans (List.Subset.trans (Node.references_body_subset hb) href) h.references
    · exact (Nat.le_of_lt hless).trans h.length
  refine ⟨List.Subset.trans href h.references, fun body hb => ?_, fun body hb => ?_⟩
  · rw [Keyword.mask_of_not_isInfix (hbody body hb).1.masked]
    exact hbody body hb
  · rw [Keyword.mask_unmask (hbody body hb).1.masked]
    exact hbody body hb

/-- The sources that can be found are within the limits. -/
def SourcesFit (fs : FileSystem) (names : List Text) (limit : Nat) (c : Context) : Prop :=
  ∀ name raw, c.rawSource? fs name = some raw → UnitText names limit (Keyword.mask raw.escape)

/-! ## Names without a source -/

/-- The names that have no source yet. -/
def missing (names : List Text) (s : Compilation) : Nat :=
  names.countP fun name => name ∉ s.view.cached

theorem missing_le_of_grows (names : List Text) {s t : Compilation} (h : s.Grows t) :
    missing names t ≤ missing names s := by
  refine List.countP_mono_left fun name _ hname => ?_
  simp only [decide_eq_true_eq] at hname ⊢
  exact fun hs => hname (h.cached.mem hs)

theorem missing_cache_lt {name raw : Text} {s : Compilation} (hname : name ∈ names)
    (hnew : name ∉ s.view.cached) :
    missing names (s.cache name name raw) < missing names s := by
  obtain ⟨front, back, rfl⟩ := List.append_of_mem hname
  have hgrows := grows_cache name name raw s
  have hfront : missing front (s.cache name name raw) ≤ missing front s :=
    missing_le_of_grows _ hgrows
  have hback : missing back (s.cache name name raw) ≤ missing back s :=
    missing_le_of_grows _ hgrows
  have hcached : name ∈ (s.cache name name raw).view.cached :=
    OrderedMap.mem_insertIfNew.mpr (.inr rfl)
  unfold missing at hfront hback ⊢
  rw [List.countP_append, List.countP_append, List.countP_cons_of_neg (by simpa using hcached),
    List.countP_cons_of_pos (by simpa using hnew)]
  omega

/-! ## Enough calls -/

/-- The host gives a result on masked texts as long as the names that have no source
yet and the length of the text are below the bound. -/
def DispatchesBelow (fs : FileSystem) (c : Context) (names : List Text) (limit bound : Nat)
    (self : Host) : Prop :=
  ∀ ⦃source s⦄, Dispatching fs c s → UnitText names limit source →
    missing names s * (limit + 1) + source.length < bound →
    ∃ code t, self source fs s = some (code, t)

section Step

variable {self : Host} {bound : Nat} {s : Compilation}
  (hself : DispatchesBelow fs c names limit bound self)

include hself

theorem exists_apart {template : Text} (hs : Dispatching fs c s.isolated)
    (htext : UnitText names limit (Keyword.mask template))
    (hbound : missing names s * (limit + 1) + (Keyword.mask template).length < bound) :
    ∃ unit t, compileLocal self template fs s = some (unit, t) := by
  obtain ⟨code, t, h⟩ := hself (hs.emit
    (.compile s.isolated.view (Keyword.mask template))) htext hbound
  rw [compileLocal_apply, compile_apply, h]
  exact ⟨_, _, rfl⟩

theorem exists_unit {name source : Text} (hs : Dispatching fs c s)
    (hsource : s.view.cached.get? name = some source)
    (htext : UnitText names limit (Keyword.mask source))
    (hbound : missing names s * (limit + 1) + (Keyword.mask source).length < bound) :
    ∃ u t, compileUnit self name fs s = some (u, t) := by
  obtain ⟨unit, t, h⟩ := exists_apart hself hs.isolated htext hbound
  rw [compileUnit_apply]
  split
  · exact ⟨_, _, rfl⟩
  · rw [hsource]
    simp only [h]
    exact ⟨_, _, rfl⟩

variable (hc : SourcesFit fs names limit c)

include hc

theorem exists_read_of_cache {name : Text} (hs : Dispatching fs c s)
    (hbound : ∀ raw, name ∉ s.view.cached →
      missing names ((s.counted Counter.references).cache name name raw) * (limit + 1) + limit <
        bound) :
    ∃ u t, readPartial self name fs s = some (u, t) := by
  have hcounted := hs.counted Counter.references
  rw [readPartial_apply, readCounted, hcounted.hookFree.resolvedName_eq]
  split
  · exact ⟨_, _, rfl⟩
  · rename_i hnew
    split
    · exact ⟨_, _, rfl⟩
    · rename_i raw hraw
      have htext := hc name raw ((hs.raw name).symm.trans hraw)
      have hlen := htext.length
      have hless := hbound raw hnew
      rw [hcounted.hookFree.preprocess_eq, hcounted.hookFree.preprocessed_eq]
      show ∃ u t, compileUnit self name fs ((s.counted Counter.references).cache name name raw) =
        some (u, t)
      refine exists_unit hself (hcounted.cache name raw)
        (OrderedMap.get?_insertIfNew_self hnew _) htext ?_
      omega

/-- Reading a listed name takes one of the names that have no source. -/
theorem exists_read {name : Text} (hs : Dispatching fs c s) (hname : name ∈ names)
    (hbound : missing names s * (limit + 1) ≤ bound) :
    ∃ u t, readPartial self name fs s = some (u, t) := by
  refine exists_read_of_cache hself hc hs fun raw hnew => ?_
  have hless : missing names ((s.counted Counter.references).cache name name raw) <
      missing names s :=
    missing_cache_lt (s := s.counted Counter.references) hname hnew
  have hmul := Nat.mul_le_mul_right (limit + 1) hless
  rw [Nat.succ_mul] at hmul
  omega

theorem exists_reads (hsound : Sound fs self) (registered : List Text)
    (hs : Dispatching fs c s)
    (hbound : missing names s * (limit + 1) + limit < bound) :
    ∃ t, readAll self registered fs s = some ((), t) := by
  induction registered generalizing s with
  | nil => exact ⟨_, rfl⟩
  | cons name registered ih =>
      have hread : ∃ u t, readPartial self name fs s = some (u, t) := by
        refine exists_read_of_cache hself hc hs fun raw _ => ?_
        have hle : missing names ((s.counted Counter.references).cache name name raw) ≤
            missing names s :=
          missing_le_of_grows _ ((grows_counted ..).trans (grows_cache name name raw _))
        have hmul := Nat.mul_le_mul_right (limit + 1) hle
        omega
      obtain ⟨u, s₁, hread⟩ := hread
      have hruns := hsound.runs_read hread
      have hmul : missing names s₁ * (limit + 1) ≤ missing names s * (limit + 1) :=
        Nat.mul_le_mul_right _ (missing_le_of_grows _ hruns.grows)
      obtain ⟨t, hrest⟩ := ih (hs.after hruns) (by omega)
      rw [readAll_cons_apply, hread, Option.bind_some, hrest]
      exact ⟨_, rfl⟩

variable {size : Nat}

theorem exists_dispatch_reference {target : Reference} {indent : Option Text}
    (hs : Dispatching fs c s) (hn : NodeFits names limit size (.reference target indent))
    (hbound : missing names s * (limit + 1) ≤ bound) (hsound : Sound fs self) :
    ∃ code t, reference self target indent fs s = some (code, t) := by
  have hs' := hs.atIndent (indent.getD [])
  unfold reference
  rw [withLineIndent_apply]
  cases target with
  | named name =>
      obtain ⟨u, t, hread⟩ := exists_read hself hc hs' (hn.references List.mem_cons_self) hbound
      have ht := hs'.after (hsound.runs_read hread)
      have h := namedReference_apply self fs (atIndent (indent.getD []) s) name indent
      rw [hread, Option.bind_some, if_pos ht.dispatches] at h
      exact ⟨_, _, congrArg (Option.map _) h⟩
  | dynamic expr =>
      exact ⟨_, _, congrArg (Option.map _) (dynamicReference_apply ..)⟩
  | block =>
      have h := enclosingBlock_apply self fs (atIndent (indent.getD []) s) indent
      rw [hs'.blocks] at h
      simp only [hs'.dispatches, if_true] at h
      exact ⟨_, _, congrArg (Option.map _) h⟩

theorem exists_dispatch_block {name body : Text} (hs : Dispatching fs c s)
    (hname : name ∈ names) (hbody : UnitText names limit (Keyword.mask body))
    (hless : (Keyword.mask body).length < size)
    (hbound : missing names s * (limit + 1) + size ≤ bound) (hsound : Sound fs self) :
    ∃ code t, partialBlock self name body fs s = some (code, t) := by
  have hs' := hs.atIndent []
  obtain ⟨u, t, hread⟩ := exists_read hself hc hs' hname (Nat.le_of_add_right_le hbound)
  have hruns := hsound.runs_read hread
  have ht := hs'.after hruns
  have hle : missing names t ≤ missing names (atIndent [] s) := missing_le_of_grows _ hruns.grows
  have hmul : missing names t * (limit + 1) ≤ missing names s * (limit + 1) :=
    Nat.mul_le_mul_right _ hle
  obtain ⟨unit, r, hunit⟩ := exists_apart hself ht.isolated hbody (by omega)
  rw [partialBlock_apply, hread, Option.bind_some, blockRead, if_pos ht.dispatches, hunit]
  exact ⟨_, _, rfl⟩

omit hc in
theorem exists_dispatch_inline {name body : Text} (hs : Dispatching fs c s)
    (hbody : UnitText names limit (Keyword.mask (Keyword.unmask body)))
    (hless : (Keyword.mask (Keyword.unmask body)).length < size)
    (hbound : missing names s * (limit + 1) + size ≤ bound) :
    ∃ t, defineInline self name body fs s = some ((), t) := by
  have hnoted := hs.inlineNoted name (Keyword.unmask body)
  rw [defineInline_apply, defineNoted]
  split
  · exact ⟨_, rfl⟩
  · rename_i hnew
    have hcached : (inlineCached name (Keyword.unmask body)
        (inlineNoted name (Keyword.unmask body) s)).view.cached.get? name =
          some (Keyword.unmask body) := by
      refine (OrderedMap.get?_insert ..).trans ?_
      rw [if_pos rfl]
    have hmul : missing names (inlineCached name (Keyword.unmask body)
        (inlineNoted name (Keyword.unmask body) s)) * (limit + 1) ≤
          missing names s * (limit + 1) := by
      refine Nat.mul_le_mul_right _ (missing_le_of_grows _ ?_)
      exact (grows_inlineNoted ..).trans (grows_inlineCached hnew _)
    obtain ⟨u, t, hunit⟩ := exists_unit hself (hnoted.inlineCached name (Keyword.unmask body))
      hcached hbody (by omega)
    rw [hunit]
    exact ⟨_, rfl⟩

theorem exists_dispatch_node {n : Node} (hs : Dispatching fs c s)
    (hn : NodeFits names limit size n) (hbound : missing names s * (limit + 1) + size ≤ bound)
    (hsound : Sound fs self) : ∃ code t, node self n fs s = some (code, t) := by
  cases n with
  | literal text => exact ⟨_, _, rfl⟩
  | «variable» name => exact ⟨_, _, rfl⟩
  | reference target indent =>
      exact exists_dispatch_reference hself hc hs hn (Nat.le_of_add_right_le hbound) hsound
  | block name body closed =>
      have hmissing : missing names (closeChecked name closed s) = missing names s := by
        cases closed <;> rfl
      obtain ⟨hbody, hless⟩ := hn.body body rfl
      simp only [node, CompileM.bind_apply, checkClosed_apply, Option.bind_some]
      exact exists_dispatch_block hself hc (hs.closeChecked name closed)
        (hn.references List.mem_cons_self) hbody hless (hmissing ▸ hbound) hsound
  | inlinePartial name body closed =>
      have hmissing : missing names (closeChecked "inline".toList closed s) = missing names s := by
        cases closed <;> rfl
      obtain ⟨hbody, hless⟩ := hn.source body rfl
      obtain ⟨t, h⟩ : ∃ t, defineInline self name body fs (closeChecked "inline".toList closed s) =
          some ((), t) :=
        exists_dispatch_inline hself (hs.closeChecked "inline".toList closed) hbody hless
          (hmissing ▸ hbound)
      simp only [node, CompileM.bind_apply, checkClosed_apply, Option.bind_some,
        CompileM.pure_apply]
      rw [h]
      exact ⟨_, _, rfl⟩
  | strayClose name => exact ⟨_, _, rfl⟩

theorem exists_dispatch_nodes {ns : List Node} (hs : Dispatching fs c s)
    (hns : ∀ n ∈ ns, NodeFits names limit size n)
    (hbound : missing names s * (limit + 1) + size ≤ bound) (hsound : Sound fs self) :
    ∃ code t, nodes self ns fs s = some (code, t) := by
  induction ns generalizing s with
  | nil => exact ⟨_, _, rfl⟩
  | cons n ns ih =>
      obtain ⟨hn, hns⟩ := List.forall_mem_cons.mp hns
      obtain ⟨a, s₁, hnode⟩ := exists_dispatch_node hself hc hs hn hbound hsound
      have hruns := hsound.runs_node hnode
      have hmul : missing names s₁ * (limit + 1) ≤ missing names s * (limit + 1) :=
        Nat.mul_le_mul_right _ (missing_le_of_grows _ hruns.grows)
      obtain ⟨b, t, hrest⟩ := ih (hs.after hruns) hns (by omega)
      rw [nodes_cons_apply, hnode, Option.bind_some, hrest]
      exact ⟨_, _, rfl⟩

end Step

/-- A host that may nest deep enough gives a result. -/
theorem dispatchesBelow_host (hc : SourcesFit fs names limit c) (depth : Nat) :
    DispatchesBelow fs c names limit depth (host depth) := by
  induction depth with
  | zero =>
      intro source s _ _ hbound
      exact absurd hbound (Nat.not_lt_zero _)
  | succ depth ih =>
      intro source s hs hsource hbound
      exact exists_dispatch_nodes ih hc hs hsource.nodes (Nat.le_of_lt_succ hbound)
        (sound_host fs depth)

end Inlay.Handlebars
