import Inlay.Proofs.Accounting
import Inlay.Proofs.BellFree
import Inlay.Proofs.LexedUnits
import Inlay.Proofs.Preloading

/-!
# Marks that are shown

The keyword is masked before a text is compiled apart, and the code is
unmasked. The names that are cached or reported meanwhile are not: they keep
the mask. So the mask is shown exactly if such a name has the keyword, in a
source that gets a unit or in the body of a block. Nothing else shows a mark,
and the mark of self-indented code is shown nowhere.
-/

namespace Inlay

open Keyword Callable

/-! ## Names that are shown -/

/-- The name of a node that is cached, or reported if nothing has the name. With `skip` a partial
that is missing is not reported. -/
def Node.shown? (skip : Bool) : Node → Option Text
  | .reference (.named name) _ => if skip then none else some name
  | .block name _ closed => if skip && closed then none else some name
  | .inlinePartial name _ _ => some name
  | .strayClose name => some name
  | _ => none

/-- A name of this kind is shown when the text is compiled, or the body of a block in it. -/
inductive Text.Exposes (P : Text → Prop) (skip : Bool) : Text → Prop
  | shown {text n name} : n ∈ text.nodes → n.shown? skip = some name → P name →
      Text.Exposes P skip text
  | inside {text name body closed} : .block name body closed ∈ text.nodes →
      Text.Exposes P skip body → Text.Exposes P skip text

theorem Node.shown?_map (f : Text → Text) (skip : Bool) (n : Node) :
    (n.map f).shown? skip = (n.shown? skip).map f := by
  cases n with
  | reference target indent =>
      cases target with
      | named name => cases skip <;> rfl
      | _ => rfl
  | block name body closed => cases skip <;> cases closed <;> rfl
  | _ => rfl

/-- A name that is shown is a text of the node. -/
theorem Node.mem_texts_of_shown? {skip : Bool} {n : Node} {name : Text}
    (h : n.shown? skip = some name) : name ∈ n.texts := by
  cases n with
  | reference target indent =>
      cases target with
      | named other =>
          simp only [shown?] at h
          split at h
          · cases h
          · exact Option.some.inj h ▸ List.mem_cons_self
      | _ => cases h
  | block other body closed =>
      simp only [shown?] at h
      split at h
      · cases h
      · exact Option.some.inj h ▸ List.mem_cons_self
  | inlinePartial other body closed => exact Option.some.inj h ▸ List.mem_cons_self
  | strayClose other => exact Option.some.inj h ▸ List.mem_cons_self
  | literal text => cases h
  | «variable» other => cases h

namespace Text.Exposes

variable {P Q : Text → Prop} {skip : Bool} {text : Text}

theorem iff_exists_mem : text.Exposes P skip ↔ ∃ n ∈ text.nodes,
    (∃ name, n.shown? skip = some name ∧ P name) ∨
      ∃ name body closed, n = .block name body closed ∧ body.Exposes P skip := by
  constructor
  · rintro (⟨hn, hshown, hname⟩ | ⟨hn, hbody⟩)
    · exact ⟨_, hn, .inl ⟨_, hshown, hname⟩⟩
    · exact ⟨_, hn, .inr ⟨_, _, _, rfl, hbody⟩⟩
  · rintro ⟨n, hn, ⟨name, hshown, hname⟩ | ⟨name, body, closed, rfl, hbody⟩⟩
    · exact .shown hn hshown hname
    · exact .inside hn hbody

theorem imp (h : text.Exposes P skip) (htext : bell ∉ text)
    (hPQ : ∀ name, bell ∉ name → P name → Q name) : text.Exposes Q skip := by
  induction h with
  | shown hn hshown hname =>
      have hbell := Handlebars.bell_not_mem_texts htext hn _ (Node.mem_texts_of_shown? hshown)
      exact .shown hn hshown (hPQ _ hbell hname)
  | inside hn _ ih => exact .inside hn (ih (Node.not_mem_body htext hn rfl))

theorem congr (htext : bell ∉ text) (hPQ : ∀ name, bell ∉ name → (P name ↔ Q name)) :
    text.Exposes P skip ↔ text.Exposes Q skip :=
  ⟨fun h => h.imp htext fun name hname => (hPQ name hname).mp,
    fun h => h.imp htext fun name hname => (hPQ name hname).mpr⟩

theorem exists_name (h : text.Exposes P skip) : ∃ name, P name := by
  induction h with
  | shown _ _ hname => exact ⟨_, hname⟩
  | inside _ _ ih => exact ih

end Text.Exposes

/-! ## Marks in outcomes -/

/-- The text is in what a compilation yields: in its code, or in a name, a source, a unit or a
message. -/
def Outcome.Shows (o : Outcome) (mark : Text) : Prop :=
  mark <:+: o.code ∨
    (∃ name source, o.cached.get? name = some source ∧ (mark <:+: name ∨ mark <:+: source)) ∨
    (∃ name entry, o.table.get? name = some entry ∧ (mark <:+: name ∨ mark <:+: entry)) ∨
    ∃ message ∈ o.messages, mark <:+: message

/-- No code of the outcome and no source has a bell. -/
structure Outcome.Unmarked (o : Outcome) : Prop where
  code : bell ∉ o.code
  sources : ∀ name source, o.cached.get? name = some source → bell ∉ source
  units : ∀ name entry, o.table.get? name = some entry →
    ∃ unit, entry = tableEntry name unit ∧ bell ∉ unit

namespace Handlebars

open Compilation

/-! ## Marks in masked names -/

/-- The mark is in the name once keywords are masked. -/
def Spells (mark name : Text) : Prop :=
  mark <:+: mask name

theorem unmask_eq_self {s : Text} (h : bell ∉ s) : unmask s = s :=
  (Veils.refl s).unmask_eq h

theorem spells_sentinel_iff {name : Text} (h : bell ∉ name) : Spells sentinel name ↔ word <:+: name := by
  unfold Spells
  constructor
  · intro hsentinel
    by_contra hword
    rw [mask_of_not_isInfix hword] at hsentinel
    exact h (hsentinel.subset (by decide))
  · intro hword
    by_contra hsentinel
    have hkept : unmask (mask name) = mask name :=
      Text.replace_of_not_infix sentinel_ne_nil hsentinel
    rw [unmask_mask h] at hkept
    exact not_word_infix_mask name (hkept ▸ hword)

theorem not_spells_selfIndented {name : Text} (h : bell ∉ name) : ¬ Spells selfIndented name := by
  rintro ⟨a, b, heq⟩
  have hsplit : mask name = (a ++ "!!".toList) ++ bell :: ('S' :: (markWord ++ b)) := by
    rw [← heq, selfIndented_eq]
    simp
  obtain ⟨c, rest, hrest, hc⟩ := (Veils.mask name).unmarked h _ _ hsplit
  exact hc (List.cons.inj hrest).1.symm

theorem exposes_sentinel_iff {skip : Bool} {text : Text} (h : bell ∉ text) :
    text.Exposes (Spells sentinel) skip ↔ text.Exposes (word <:+: ·) skip :=
  Text.Exposes.congr h fun _ hname => spells_sentinel_iff hname

theorem not_exposes_selfIndented {skip : Bool} {text : Text} (h : bell ∉ text) :
    ¬ text.Exposes (Spells selfIndented) skip := by
  intro hexposes
  have hnone : text.Exposes (fun _ => False) skip :=
    hexposes.imp h fun _ hname => not_spells_selfIndented hname
  exact hnone.exists_name.elim fun _ => id

section

variable {mark : Text} (hmark : mark ∈ privateMarks)

include hmark

theorem bell_mem_of_isInfix {s : Text} (h : mark <:+: s) : bell ∈ s := by
  obtain ⟨rest, rfl⟩ := Whole.exists_eq_of_mem mark hmark
  exact h.subset (by simp)

/-- A mark in a quoted name is in the name. -/
theorem isInfix_around_iff {x name y : Text} (hx : bell ∉ x) (hy : bell ∉ y) :
    mark <:+: x ++ '\'' :: (name ++ '\'' :: y) ↔ mark <:+: name := by
  have hquote : '\'' ∉ mark := Whole.not_mem_mark mark hmark _ (by decide)
  constructor
  · intro h
    rcases infix_of_infix_append_cons hquote h with h | h
    · exact absurd (bell_mem_of_isInfix hmark h) hx
    · rcases infix_of_infix_append_cons hquote h with h | h
      · exact h
      · exact absurd (bell_mem_of_isInfix hmark h) hy
  · intro h
    exact h.trans ⟨x ++ ['\''], '\'' :: y, by simp⟩

theorem isInfix_quoted_iff {x name y : Text} (hx : bell ∉ x) (hy : bell ∉ y) :
    mark <:+: (x ++ ['\'']) ++ name ++ ('\'' :: y) ↔ mark <:+: name := by
  rw [List.append_assoc, List.append_assoc]
  exact isInfix_around_iff hmark hx hy

theorem isInfix_missingPartial_iff (name : Text) :
    mark <:+: (Diagnostic.missingPartial name).message ↔ mark <:+: name := by
  have hx : bell ∉ "Cannot find partial ".toList := by decide
  have hy : bell ∉ ", check the basedir and fileext options".toList := by decide
  exact isInfix_quoted_iff hmark hx hy

theorem isInfix_unclosedBlock_iff (name : Text) :
    mark <:+: (Diagnostic.unclosedBlock name).message ↔ mark <:+: name := by
  have hx : bell ∉ "Unclosed block ".toList := by decide
  exact isInfix_quoted_iff hmark hx List.not_mem_nil

theorem isInfix_unexpectedClose_iff (name : Text) :
    mark <:+: (Diagnostic.unexpectedClose name).message ↔ mark <:+: name := by
  have hx : bell ∉ "Unexpected closing tag ".toList := by decide
  exact isInfix_quoted_iff hmark hx List.not_mem_nil

theorem isInfix_tableEntry_iff (name : Text) {unit : Text} (hunit : bell ∉ unit) :
    mark <:+: tableEntry name unit ↔ mark <:+: name := by
  have harrow : bell ∉ " => ".toList := by decide
  rw [tableEntry, List.append_assoc]
  exact isInfix_quoted_iff hmark List.not_mem_nil (List.not_mem_append harrow hunit)

end

/-! ## Leaks -/

variable {fs : FileSystem} {flags : Flags} {fragments : Fragments} {mark : Text} {skip : Bool}

/-- The mark is in a cached name or in a message. -/
def Leaks (mark : Text) (s : Compilation) : Prop :=
  (∃ name ∈ s.view.cached, mark <:+: name) ∨ ∃ d ∈ s.view.diagnostics, mark <:+: d.message

/-- A source that exposes the mark was cached in the meantime. -/
def Adds (mark : Text) (skip : Bool) (s t : Compilation) : Prop :=
  ∃ name source, name ∉ s.view.cached ∧ t.view.cached.get? name = some source ∧
    source.Exposes (Spells mark) skip

/-- The mark leaks in the second state if it leaked in the first one, or for this reason, or as
a source was cached that exposes it. -/
def Reveals (mark : Text) (skip : Bool) (p : Prop) (s t : Compilation) : Prop :=
  Leaks mark t ↔ Leaks mark s ∨ p ∨ Adds mark skip s t

theorem not_adds_of_cached_eq {s t : Compilation} (h : t.view.cached = s.view.cached) :
    ¬ Adds mark skip s t := by
  rintro ⟨name, source, hnew, hsource, -⟩
  exact hnew (h ▸ OrderedMap.mem_of_get? hsource)

theorem adds_iff {s s₁ t : Compilation} (h₁ : s.view.cached.Below s₁.view.cached)
    (h₂ : s₁.view.cached.Below t.view.cached) :
    Adds mark skip s t ↔ Adds mark skip s s₁ ∨ Adds mark skip s₁ t := by
  constructor
  · rintro ⟨name, source, hnew, hsource, hexposes⟩
    by_cases hknown : name ∈ s₁.view.cached
    · obtain ⟨found, hfound⟩ := OrderedMap.mem_iff_exists_get?.mp hknown
      obtain rfl := Option.some.inj (hsource.symm.trans (h₂ name found hfound))
      exact .inl ⟨name, source, hnew, hfound, hexposes⟩
    · exact .inr ⟨name, source, hknown, hsource, hexposes⟩
  · rintro (⟨name, source, hnew, hsource, hexposes⟩ | ⟨name, source, hnew, hsource, hexposes⟩)
    · exact ⟨name, source, hnew, h₂ name source hsource, hexposes⟩
    · exact ⟨name, source, fun hknown => hnew (h₁.mem hknown), hsource, hexposes⟩

namespace Reveals

variable {p q : Prop} {s s₁ t : Compilation}

theorem congr (h : Reveals mark skip p s t) (hpq : p ↔ q) : Reveals mark skip q s t := by
  unfold Reveals at h ⊢
  rw [h, hpq]

theorem trans (h₁ : Reveals mark skip p s s₁) (h₂ : Reveals mark skip q s₁ t)
    (hs : s.view.cached.Below s₁.view.cached) (ht : s₁.view.cached.Below t.view.cached) :
    Reveals mark skip (p ∨ q) s t := by
  unfold Reveals at h₁ h₂ ⊢
  rw [h₂, h₁, adds_iff hs ht]
  simp only [or_assoc, or_left_comm]

theorem of_eq (hcached : t.view.cached = s.view.cached)
    (hdiagnostics : t.view.diagnostics = s.view.diagnostics) : Reveals mark skip False s t := by
  have hadds : ¬ Adds mark skip s t := not_adds_of_cached_eq hcached
  unfold Reveals Leaks
  rw [hcached, hdiagnostics]
  simp only [hadds, or_false]

theorem report (d : Diagnostic) (s : Compilation) :
    Reveals mark skip (mark <:+: d.message) s (s.mapView (·.report d)) := by
  have hadds : ¬ Adds mark skip s (s.mapView (·.report d)) := not_adds_of_cached_eq rfl
  have hmem : (∃ other ∈ s.view.diagnostics ++ [d], mark <:+: other.message) ↔
      (∃ other ∈ s.view.diagnostics, mark <:+: other.message) ∨ mark <:+: d.message := by
    simp only [List.mem_append, List.mem_singleton, or_and_right, exists_or, exists_eq_left]
  have hleaks : Leaks mark (s.mapView (·.report d)) ↔ (∃ name ∈ s.view.cached, mark <:+: name) ∨
      ∃ other ∈ s.view.diagnostics ++ [d], mark <:+: other.message := Iff.rfl
  unfold Reveals
  rw [hleaks, hmem]
  unfold Leaks
  simp only [hadds, or_false, or_assoc]

/-- A name that is cached already shows the mark before. -/
theorem of_known (h : Reveals mark skip False s t) {name : Text} (hname : name ∈ s.view.cached)
    (hp : p → mark <:+: name) : Reveals mark skip p s t := by
  have hleaks : p → Leaks mark s := fun hp' => .inl ⟨name, hname, hp hp'⟩
  constructor
  · exact fun ht => (h.mp ht).imp_right fun hmore => .inr (hmore.resolve_left id)
  · rintro (hs | hp' | hadds)
    · exact h.mpr (.inl hs)
    · exact h.mpr (.inl (hleaks hp'))
    · exact h.mpr (.inr (.inr hadds))

/-- A source that is cached is compiled into a unit. -/
theorem of_cached {name source : Text} (hnew : name ∉ s.view.cached)
    (hcached : s₁.view.cached = s.view.cached.insertIfNew name source)
    (hdiagnostics : s₁.view.diagnostics = s.view.diagnostics)
    (h : Reveals mark skip (source.Exposes (Spells mark) skip) s₁ t)
    (ht : s₁.view.cached.Below t.view.cached) : Reveals mark skip (mark <:+: name) s t := by
  have hleaks : Leaks mark s₁ ↔ Leaks mark s ∨ mark <:+: name := by
    unfold Leaks
    rw [hcached, hdiagnostics]
    simp only [OrderedMap.mem_insertIfNew, or_and_right, exists_or, exists_eq_left]
    exact or_right_comm
  have hsource : t.view.cached.get? name = some source := by
    apply ht
    rw [hcached]
    exact OrderedMap.get?_insertIfNew_self hnew source
  have hadds : Adds mark skip s t ↔ source.Exposes (Spells mark) skip ∨ Adds mark skip s₁ t := by
    constructor
    · rintro ⟨other, found, hother, hfound, hexposes⟩
      by_cases hsame : other = name
      · rw [hsame, hsource] at hfound
        exact .inl (Option.some.inj hfound ▸ hexposes)
      · refine .inr ⟨other, found, fun hknown => ?_, hfound, hexposes⟩
        rw [hcached] at hknown
        exact (OrderedMap.mem_insertIfNew.mp hknown).elim hother hsame
    · rintro (hexposes | ⟨other, found, hother, hfound, hexposes⟩)
      · exact ⟨name, source, hnew, hsource, hexposes⟩
      · refine ⟨other, found, fun hknown => hother ?_, hfound, hexposes⟩
        rw [hcached]
        exact OrderedMap.mem_insertIfNew.mpr (.inl hknown)
  unfold Reveals at h ⊢
  rw [h, hleaks, hadds, or_assoc]

/-- What leaks in a copy leaks when it is merged back. -/
theorem merge (h : Reveals mark skip p s.isolated t) (happends : Appends s.isolated t) :
    Reveals mark skip p s (s.merge t) := by
  have hcached : (s.merge t).view.cached = t.view.cached :=
    OrderedMap.absorb_of_prefix happends.cached
  have hdiagnostics : (s.merge t).view.diagnostics = t.view.diagnostics := by
    obtain ⟨added, hadded⟩ := happends.diagnostics
    have hadded : s.view.diagnostics ++ added = t.view.diagnostics := hadded
    show s.view.diagnostics ++ t.view.diagnostics.drop s.view.diagnostics.length = _
    rw [← hadded, List.drop_left]
  unfold Reveals Leaks Adds at h ⊢
  rw [hcached, hdiagnostics]
  exact h

end Reveals

theorem cached_closeChecked (name : Text) (closed : Bool) (s : Compilation) :
    (closeChecked name closed s).view.cached = s.view.cached := by
  cases closed <;> rfl

theorem dynamicNoted_of_runtime {s : Compilation} (h : s.view.flags.runtime = true) (expr : Text) :
    dynamicNoted expr s = s := by
  unfold dynamicNoted
  rw [h]
  rfl

section

variable (hmark : mark ∈ privateMarks)

include hmark

theorem reveals_missed {s : Compilation} (hskip : s.view.flags.skipMissing = skip) (name : Text) :
    Reveals mark skip (skip = false ∧ mark <:+: name) s (s.missed name) := by
  unfold missed
  rw [hskip]
  cases skip with
  | true => exact (Reveals.of_eq rfl rfl).congr (by simp)
  | false =>
      refine (Reveals.report (.missingPartial name) s).congr ?_
      rw [isInfix_missingPartial_iff hmark]
      simp

theorem reveals_closeChecked (name : Text) (closed : Bool) (s : Compilation) :
    Reveals mark skip (closed = false ∧ mark <:+: name) s (closeChecked name closed s) := by
  cases closed with
  | true => exact (Reveals.of_eq rfl rfl).congr (by simp)
  | false =>
      refine (Reveals.report (.unclosedBlock name) s).congr ?_
      rw [isInfix_unclosedBlock_iff hmark]
      simp

theorem reveals_inlineNoted (name source : Text) (closed : Bool) (s : Compilation) :
    Reveals mark skip False s (inlineNoted name source (closeChecked "inline".toList closed s)) := by
  have hword : bell ∉ "inline".toList := by decide
  have hclosed : Reveals mark skip False s (closeChecked "inline".toList closed s) :=
    (reveals_closeChecked hmark "inline".toList closed s).congr
      ⟨fun htells => hword (bell_mem_of_isInfix hmark htells.2), False.elim⟩
  exact hclosed

end

/-! ## Tasks -/

/-- The node shows the mark, or the body of a block does. -/
def NodeTells (mark : Text) (skip : Bool) (n : Node) : Prop :=
  (∃ name, n.shown? skip = some name ∧ mark <:+: name) ∨
    ∃ name body closed, n = .block name body closed ∧ (unmask body).Exposes (Spells mark) skip

/-- The task shows the mark when it starts in the state. -/
def Task.Tells (mark : Text) (skip : Bool) (s : Compilation) : Task → Prop
  | .text source => ∃ n ∈ source.nodes, NodeTells mark skip n
  | .nodes ns => ∃ n ∈ ns, NodeTells mark skip n
  | .node n => NodeTells mark skip n
  | .read name => skip = false ∧ mark <:+: name
  | .unit name => name ∉ s.view.table ∧ ∃ source, s.view.cached.get? name = some source ∧
      source.Exposes (Spells mark) skip
  | .apart template => (unmask template).Exposes (Spells mark) skip
  | .embed _ => False

theorem tells_named (name : Text) (indent : Option Text) :
    NodeTells mark skip (.reference (.named name) indent) ↔ skip = false ∧ mark <:+: name := by
  cases skip <;> simp [NodeTells, Node.shown?]

theorem tells_block (name body : Text) (closed : Bool) :
    NodeTells mark skip (.block name body closed) ↔
      ((closed = false ∧ mark <:+: name) ∨ skip = false ∧ mark <:+: name) ∨
        (unmask body).Exposes (Spells mark) skip := by
  have hbody : (∃ name' body' closed', Node.block name body closed = .block name' body' closed' ∧
      (unmask body').Exposes (Spells mark) skip) ↔ (unmask body).Exposes (Spells mark) skip := by
    constructor
    · rintro ⟨_, _, _, heq, hexposes⟩
      cases heq
      exact hexposes
    · exact fun hexposes => ⟨name, body, closed, rfl, hexposes⟩
  unfold NodeTells
  rw [hbody]
  cases closed <;> cases skip <;> simp [Node.shown?]

theorem tells_inlinePartial (name body : Text) (closed : Bool) :
    NodeTells mark skip (.inlinePartial name body closed) ↔ mark <:+: name := by
  simp [NodeTells, Node.shown?]

theorem tells_unit_iff {s : Compilation} {name source : Text} (htable : name ∉ s.view.table)
    (hsource : s.view.cached.get? name = some source) :
    (Task.unit name).Tells mark skip s ↔ source.Exposes (Spells mark) skip := by
  refine ⟨?_, fun hexposes => ⟨htable, source, hsource, hexposes⟩⟩
  rintro ⟨-, found, hfound, hexposes⟩
  exact Option.some.inj (hsource.symm.trans hfound) ▸ hexposes

/-- A node of a masked text tells what the text exposes. -/
theorem nodeTells_map_mask {n : Node} (hbody : ∀ body, n.body? = some body → bell ∉ body) :
    NodeTells mark skip (n.map mask) ↔
      (∃ name, n.shown? skip = some name ∧ Spells mark name) ∨
        ∃ name body closed, n = .block name body closed ∧ body.Exposes (Spells mark) skip := by
  unfold NodeTells
  apply or_congr
  · rw [Node.shown?_map]
    simp only [Option.map_eq_some_iff]
    constructor
    · rintro ⟨_, ⟨name, hshown, rfl⟩, hname⟩
      exact ⟨name, hshown, hname⟩
    · rintro ⟨name, hshown, hname⟩
      exact ⟨_, ⟨name, hshown, rfl⟩, hname⟩
  · constructor
    · rintro ⟨_, _, _, hblock, hexposes⟩
      cases n with
      | block name body closed =>
          cases hblock
          rw [unmask_mask (hbody body rfl)] at hexposes
          exact ⟨name, body, _, rfl, hexposes⟩
      | _ => cases hblock
    · rintro ⟨name, body, closed, rfl, hexposes⟩
      refine ⟨mask name, mask body, closed, rfl, ?_⟩
      rwa [unmask_mask (hbody body rfl)]

theorem tells_mask_iff {template : Text} (h : Clear template) :
    (∃ n ∈ (mask template).nodes, NodeTells mark skip n) ↔
      (unmask template).Exposes (Spells mark) skip := by
  obtain ⟨w, hw, hmask, hunmask⟩ : ∃ w, bell ∉ w ∧ mask template = mask w ∧ unmask template = w := by
    obtain ⟨w, hw, rfl | rfl⟩ := h
    · exact ⟨template, hw, rfl, unmask_eq_self hw⟩
    · exact ⟨w, hw, mask_mask w, unmask_mask hw⟩
  rw [hmask, hunmask, nodes_mask hw, Text.Exposes.iff_exists_mem]
  simp only [List.mem_map, exists_exists_and_eq_and]
  exact exists_congr fun n => and_congr_right fun hn =>
    nodeTells_map_mask fun body hbody => Node.not_mem_body hw hn hbody

/-! ## Runs -/

section

variable (hmark : mark ∈ privateMarks)

include hmark

/-- A block shows the mark where it is not closed, where its partial is read, and in its body. -/
theorem reveals_block {name body : Text} {closed : Bool} {s s₁ t : Compilation}
    (hread : Reveals mark skip (skip = false ∧ mark <:+: name) (closeChecked name closed s) s₁)
    (hbody : Reveals mark skip ((unmask body).Exposes (Spells mark) skip) s₁ t)
    (h₁ : (closeChecked name closed s).view.cached.Below s₁.view.cached)
    (h₂ : s₁.view.cached.Below t.view.cached) :
    Reveals mark skip (NodeTells mark skip (.block name body closed)) s t := by
  have hbelow : s.view.cached.Below (closeChecked name closed s).view.cached := by
    rw [cached_closeChecked]
    exact .refl _
  have hfront := (reveals_closeChecked hmark name closed s).trans hread hbelow h₁
  have hblock := hfront.trans hbody (hbelow.trans h₁) h₂
  exact hblock.congr (tells_block name body closed).symm

/-- A new inline definition shows the mark in its name, and in what it exposes once its unit is
made. -/
theorem reveals_inlineNew {name body : Text} {closed : Bool} {s t : Compilation}
    (hnew : name ∉ s.view.cached)
    (hunit : Reveals mark skip ((unmask body).Exposes (Spells mark) skip)
      (inlineCached name (unmask body) (inlineNoted name (unmask body)
        (closeChecked "inline".toList closed s))) t)
    (ht : (inlineCached name (unmask body) (inlineNoted name (unmask body)
      (closeChecked "inline".toList closed s))).view.cached.Below t.view.cached) :
    Reveals mark skip (NodeTells mark skip (.inlinePartial name body closed)) s t := by
  have hnew₀ : name ∉ (closeChecked "inline".toList closed s).view.cached := by
    rwa [cached_closeChecked]
  have hcached : (inlineCached name (unmask body) (inlineNoted name (unmask body)
      (closeChecked "inline".toList closed s))).view.cached =
        (closeChecked "inline".toList closed s).view.cached.insertIfNew name (unmask body) :=
    if_neg hnew₀
  have hdefined : Reveals mark skip (mark <:+: name)
      (inlineNoted name (unmask body) (closeChecked "inline".toList closed s)) t :=
    .of_cached hnew₀ hcached rfl hunit ht
  have hnoted : Reveals mark skip False s _ :=
    reveals_inlineNoted hmark name (unmask body) closed s
  have hbefore : s.view.cached.Below (closeChecked "inline".toList closed s).view.cached := by
    rw [cached_closeChecked]
    exact .refl _
  have hbelow := (grows_inlineCached (s := inlineNoted name (unmask body)
    (closeChecked "inline".toList closed s)) hnew₀ (unmask body)).cached
  refine (hnoted.trans hdefined hbefore (hbelow.trans ht)).congr ?_
  rw [false_or]
  exact (tells_inlinePartial name body closed).symm

end

section

variable {first : Compilation} (hmark : mark ∈ privateMarks) (hmuted : Muted fs first)
  (hnamed : ∀ name raw, first.context.rawSource? fs name = some raw → bell ∉ name)

include hmark hmuted hnamed

theorem Runs.reveals {task : Task} {s t : Compilation} {code : Text} (h : Runs fs task s code t)
    (hs : Steady flags fragments s) (hfinds : FindsAlike fs first s) (hclear : ClearNames s.names)
    (htask : task.Clear) :
    Reveals mark flags.skipMissing (task.Tells mark flags.skipMissing s) s t := by
  induction h with
  | text _ ih =>
      exact ih (hs.emit _) ⟨hfinds.raw, hfinds.hook⟩ hclear
        fun n hn body hbody => Clear.body htask hn hbody
  | nil => exact (Reveals.of_eq rfl rfl).congr (by simp [Task.Tells])
  | @cons n ns s a s₁ b t h₁ h₂ ih₁ ih₂ =>
      obtain ⟨hn, hns⟩ := List.forall_mem_cons.mp htask
      have hclear₁ := h₁.clearNames hs.calling (hmuted.of_findsAlike hfinds) hn hclear
      have hnode := ih₁ hs hfinds hclear hn
      have hnodes := ih₂ (hs.after h₁) (hfinds.of_scope h₁.scope_eq) hclear₁ hns
      refine (hnode.trans hnodes h₁.grows.cached h₂.grows.cached).congr ?_
      simp [Task.Tells]
  | literal => exact (Reveals.of_eq rfl rfl).congr (by simp [Task.Tells, NodeTells, Node.shown?])
  | «variable» => exact (Reveals.of_eq rfl rfl).congr (by simp [Task.Tells, NodeTells, Node.shown?])
  | @dispatched name indent s u s₁ h₁ _ ih =>
      have hread : Reveals mark flags.skipMissing (flags.skipMissing = false ∧ mark <:+: name) s s₁ :=
        ih (hs.atIndent _) ⟨hfinds.raw, hfinds.hook⟩ hclear trivial
      exact hread.congr (tells_named name indent).symm
  | embedded h₁ hruntime =>
      have hread := ((hs.atIndent _).after h₁).calling
      simp [hread.dispatches] at hruntime
  | @dynamic expr indent s =>
      have hcounted := (hs.atIndent (indent.getD [])).counted Counter.dynamicReferences
      rw [dynamicNoted_of_runtime hcounted.calling.dispatches]
      exact (Reveals.of_eq rfl rfl).congr (by simp [Task.Tells, NodeTells, Node.shown?])
  | enclosed hblocks => simp [hs.calling.blocks] at hblocks
  | enclosedCall => exact (Reveals.of_eq rfl rfl).congr (by simp [Task.Tells, NodeTells, Node.shown?])
  | notEnclosed _ hruntime => simp [hs.calling.dispatches] at hruntime
  | @blockDispatched name body closed s u s₁ unit t h₁ _ h₂ ih₁ ih₂ =>
      have hs₀ := (hs.closeChecked name closed).atIndent []
      have hclosed := hfinds.of_scope (scope_closeChecked name closed s)
      have hfinds₀ : FindsAlike fs first (atIndent [] (closeChecked name closed s)) :=
        ⟨hclosed.raw, hclosed.hook⟩
      have hclear₀ : ClearNames (atIndent [] (closeChecked name closed s)).names := by
        rw [← names_closeChecked name closed s] at hclear
        exact hclear
      have hclear₁ := h₁.clearNames hs₀.calling (hmuted.of_findsAlike hfinds₀) trivial hclear₀
      have hread : Reveals mark flags.skipMissing (flags.skipMissing = false ∧ mark <:+: name)
        (closeChecked name closed s) s₁ := ih₁ hs₀ hfinds₀ hclear₀ trivial
      have hbody := ih₂ (hs₀.after h₁) (hfinds₀.of_scope h₁.scope_eq) hclear₁ (htask body rfl)
      exact reveals_block hmark hread hbody h₁.grows.cached h₂.grows.cached
  | blockEmbedded h₁ hruntime =>
      have hread := (((hs.closeChecked _ _).atIndent []).after h₁).calling
      simp [hread.dispatches] at hruntime
  | @inlineKnown name body closed s hknown =>
      have hnoted : Reveals mark flags.skipMissing False s _ :=
        reveals_inlineNoted hmark name (unmask body) closed s
      exact (hnoted.of_known hknown id).congr (tells_inlinePartial name body closed).symm
  | @inlineNew name body closed s u t hnew h ih =>
      have hbody : bell ∉ unmask body := (htask body rfl).bell_not_mem_unmask
      have hs₀ := hs.closeChecked "inline".toList closed
      have hnew₀ : name ∉ (closeChecked "inline".toList closed s).view.cached := by
        rwa [cached_closeChecked]
      have hs₁ := hs₀.inlineCached hnew₀ (unmask body)
      have hscope : (inlineCached name (unmask body) (inlineNoted name (unmask body)
          (closeChecked "inline".toList closed s))).scope = s.scope := by
        rw [scope_inlineCached, scope_inlineNoted, scope_closeChecked]
      have hclear₁ : ClearNames (inlineCached name (unmask body) (inlineNoted name (unmask body)
          (closeChecked "inline".toList closed s))).names := by
        rw [names_inlineCached, names_closeChecked]
        exact hclear.insert hbody
      have hsource : (inlineCached name (unmask body) (inlineNoted name (unmask body)
          (closeChecked "inline".toList closed s))).view.cached.get? name = some (unmask body) :=
        (OrderedMap.get?_insert ..).trans (if_pos rfl)
      have hunit := (ih hs₁ (hfinds.of_scope hscope) hclear₁ trivial).congr
        (tells_unit_iff (hs₀.not_mem_table hnew₀) hsource)
      exact reveals_inlineNew hmark hnew hunit h.grows.cached
  | @strayClose name s =>
      refine (Reveals.report (.unexpectedClose name) s).congr ?_
      rw [isInfix_unexpectedClose_iff hmark]
      simp [Task.Tells, NodeTells, Node.shown?]
  | @readKnown name s hknown =>
      rw [hs.hookFree.resolvedName_eq] at hknown
      have hcounted : Reveals mark flags.skipMissing False s (s.counted Counter.references) :=
        .of_eq rfl rfl
      exact hcounted.of_known hknown fun htells => htells.2
  | @readMissing name s _ _ =>
      have hmissed := reveals_missed hmark (s := s.counted Counter.references)
        (congrArg Flags.skipMissing hs.calling.flags) name
      exact hmissed
  | @readFound name s raw source target u t hnew hraw hparts h ih =>
      have hcounted := hs.counted Counter.references
      obtain ⟨rfl, rfl⟩ := hcounted.hookFree.parts_eq hparts
      rw [hs.hookFree.resolvedName_eq] at hnew
      rw [hcounted.hookFree.preprocessed_eq] at h ih
      have hraw₀ : first.context.rawSource? fs name = some raw := (hfinds.raw name).symm.trans hraw
      -- a name that has a source was given, and has no bell
      have hname : ¬ mark <:+: name := fun hinside =>
        hnamed name raw hraw₀ (bell_mem_of_isInfix hmark hinside)
      have hclear₁ : ClearNames ((s.counted Counter.references).cache name name raw).names := by
        exact hclear.cache (hmuted.raw name raw hraw₀) id
      have htells : (Task.unit name).Tells mark flags.skipMissing
          ((s.counted Counter.references).cache name name raw) ↔
            raw.escape.Exposes (Spells mark) flags.skipMissing :=
        tells_unit_iff (hs.not_mem_table hnew) (OrderedMap.get?_insertIfNew_self hnew raw.escape)
      have hunit := (ih (hcounted.cache name raw) ⟨hfinds.raw, hfinds.hook⟩ hclear₁ trivial).congr
        htells
      have hcached : ((s.counted Counter.references).cache name name raw).view.cached =
        s.view.cached.insertIfNew name raw.escape := rfl
      have hread : Reveals mark flags.skipMissing (mark <:+: name) s t :=
        .of_cached hnew hcached rfl hunit h.grows.cached
      exact hread.congr ⟨fun hinside => absurd hinside hname, fun htells => htells.2⟩
  | @unitIdle name s hidle =>
      refine (Reveals.of_eq rfl rfl).congr ⟨False.elim, ?_⟩
      rintro ⟨htable, source, hsource, -⟩
      rcases hidle with hruntime | hmem | hnone
      · simp [hs.calling.dispatches] at hruntime
      · exact htable hmem
      · simp [hsource] at hnone
  | @unitNew name s source unit t _ htable hsource h ih =>
      have hbell : bell ∉ source := hclear.sources name source hsource
      have hunit := ih hs hfinds hclear (.of_not_mem hbell)
      have happ : Reveals mark flags.skipMissing ((unmask source).Exposes (Spells mark) flags.skipMissing)
        s (t.enroll name unit) := hunit
      rw [unmask_eq_self hbell] at happ
      exact happ.congr (tells_unit_iff htable hsource).symm
  | @apart template s code t h ih =>
      have hcopy := ih hs.isolated ⟨hfinds.raw, hfinds.hook⟩ hclear (Clear.masked htask)
      exact (hcopy.merge h.works.appends).congr (tells_mask_iff htask)
  | embedMissing => exact htask.elim
  | embedOpen => exact htask.elim
  | embedGuarded => exact htask.elim
  | embedRepeated => exact htask.elim

theorem ReadsAll.reveals {names : List Text} {s t : Compilation} (h : ReadsAll fs names s t)
    (hs : Steady flags fragments s) (hfinds : FindsAlike fs first s) (hclear : ClearNames s.names)
    (hnames : ∀ name ∈ names, bell ∉ name) : Reveals mark flags.skipMissing False s t := by
  induction h with
  | nil => exact .of_eq rfl rfl
  | @cons name names s u s₁ t hread hreads ih =>
      obtain ⟨hname, hnames⟩ := List.forall_mem_cons.mp hnames
      have hclear₁ := hread.clearNames hs.calling (hmuted.of_findsAlike hfinds) trivial hclear
      have hfirst := hread.reveals hmark hmuted hnamed hs hfinds hclear trivial
      have hrest := ih (hs.after hread) (hfinds.of_scope hread.scope_eq) hclear₁ hnames
      refine (hfirst.trans hrest hread.grows.cached hreads.grows.cached).congr ?_
      exact ⟨fun htells => hname (bell_mem_of_isInfix hmark (htells.resolve_right id).2), False.elim⟩

end

/-! ## Whole compilations -/

theorem clearNames_initial (fs : FileSystem) (options : Options) :
    ClearNames (initial options none fs).names :=
  ⟨fun _ _ hsource => (by cases hsource), fun _ _ htarget => (by cases htarget)⟩

theorem BellFree.muted {options : Options} {template : Text} (h : BellFree fs options template) :
    Muted fs (initial options none fs) :=
  ⟨fun _ _ hraw => (h.of_rawSource? hraw).2, fun _ hhook => (by cases hhook)⟩

section

variable {options : Options} {template code : Text} {middle final : Compilation}
  (hgiven : BellFree fs options template) (h : Compiles fs options none template code middle final)

include hgiven h

theorem Compiles.bell_not_mem_preloaded : ∀ name ∈ preloaded middle.view, bell ∉ name := by
  intro name hname
  have hpartials : middle.view.partials = options.partials :=
    congrArg (fun c => c.partials) h.runs.scope_eq
  have hmem : name ∈ options.partials := hpartials ▸ mem_partials_of_mem_preloaded hname
  obtain ⟨source, hsource⟩ := OrderedMap.mem_iff_exists_get?.mp hmem
  exact (hgiven.partials name source hsource).1

/-! ### Embedding -/

theorem Compiles.hushed (hruntime : options.flags.runtime = false) :
    Hushed fs final ∧ bell ∉ code := by
  have hstart : Hushed fs (initial options none fs) :=
    { embeds := hruntime
      hookFree := ⟨rfl, rfl⟩
      unbound := rfl
      fragments := hgiven.fragments
      raw := fun name raw hraw => (hgiven.of_rawSource? hraw).2
      cached := fun _ _ hsource => by cases hsource
      diagnostics := fun _ hd => absurd hd List.not_mem_nil
      chain := fun _ hname => absurd hname List.not_mem_nil
      blocks := fun _ hbody => absurd hbody List.not_mem_nil
      lineIndent := List.not_mem_nil }
  obtain ⟨hmiddle, hcode⟩ := h.runs.hushed hstart (bell_not_mem_escape hgiven.template)
  exact ⟨h.reads.hushed hmiddle (h.bell_not_mem_preloaded hgiven), hcode⟩

/-! ### Dispatching -/

theorem Compiles.clearNames_final (hruntime : options.flags.runtime = true) :
    ClearNames final.names := by
  have hmuted := hgiven.muted
  exact h.upheld hmuted.upheld hruntime (.of_not_mem (bell_not_mem_escape hgiven.template))
    (clearNames_initial fs options)

theorem Compiles.unmarked (hruntime : options.flags.runtime = true) :
    (Outcome.ofRun (code, final)).Unmarked where
  code := by
    have htemplate := bell_not_mem_escape hgiven.template
    show bell ∉ code
    rw [h.code_eq hruntime]
    intro hbell
    obtain ⟨n, hn, hbell⟩ := List.mem_flatMap.mp hbell
    refine bell_not_mem_nodeCode (v := (initial options none fs).view) hgiven.fragments rfl
      (bell_not_mem_texts htemplate hn) (Node.blankIndent_of_mem hn) (fun body hbody => ?_) hbell
    exact bell_not_mem_unitCode hgiven.fragments _
      (.of_not_mem (Node.not_mem_body htemplate hn hbody))
  sources := (h.clearNames_final hgiven hruntime).sources
  units := by
    intro name entry hentry
    obtain ⟨htable, hunits⟩ := h.canonical hruntime
    obtain ⟨source, hsource⟩ :=
      OrderedMap.mem_iff_exists_get?.mp ((htable name).mp (OrderedMap.mem_of_get? hentry))
    have hunit := hunits name source hsource
    rw [h.resolve_eq_id, renamedUnit_id] at hunit
    refine ⟨_, Option.some.inj (hentry.symm.trans hunit), ?_⟩
    have hbell := (h.clearNames_final hgiven hruntime).sources name source hsource
    exact bell_not_mem_unitCode hgiven.fragments _ (.of_not_mem hbell)

/-- Where partials are dispatched a mark leaks from a body of the template, or from a source. -/
theorem Compiles.leaks_iff (hruntime : options.flags.runtime = true) (hmark : mark ∈ privateMarks) :
    Leaks mark final ↔
      (∃ name body closed, .block name body closed ∈ template.escape.nodes ∧
        body.Exposes (Spells mark) options.flags.skipMissing) ∨
      ∃ name source, final.view.cached.get? name = some source ∧
        source.Exposes (Spells mark) options.flags.skipMissing := by
  have htemplate := bell_not_mem_escape hgiven.template
  have hmuted := hgiven.muted
  have hnamed : ∀ name raw, (initial options none fs).context.rawSource? fs name = some raw →
      bell ∉ name := fun name raw hraw => (hgiven.of_rawSource? hraw).1
  have hs := steady_initial fs hruntime
  have hclear := clearNames_initial fs options
  have hclear₁ := h.runs.clearNames hs.calling hmuted (.of_not_mem htemplate) hclear
  have hruns := h.runs.reveals hmark hmuted hnamed hs (.refl _) hclear (.of_not_mem htemplate)
  have hreads := h.reads.reveals hmark hmuted hnamed (hs.after h.runs)
    ((FindsAlike.refl _).of_scope h.runs.scope_eq) hclear₁ (h.bell_not_mem_preloaded hgiven)
  have hwhole := hruns.trans hreads h.runs.grows.cached h.reads.grows.cached
  have hstart : ¬ Leaks mark (initial options none fs) := by
    rintro (⟨name, hname, -⟩ | ⟨d, hd, -⟩)
    · exact OrderedMap.not_mem_empty name hname
    · cases hd
  have hadds : Adds mark options.flags.skipMissing (initial options none fs) final ↔
      ∃ name source, final.view.cached.get? name = some source ∧
        source.Exposes (Spells mark) options.flags.skipMissing :=
    exists_congr fun name => exists_congr fun source =>
      and_iff_right (OrderedMap.not_mem_empty name)
  have htells : (Task.text template.escape).Tells mark options.flags.skipMissing
      (initial options none fs) ↔ ∃ name body closed, .block name body closed ∈
        template.escape.nodes ∧ body.Exposes (Spells mark) options.flags.skipMissing := by
    constructor
    · rintro ⟨n, hn, ⟨name, hshown, hname⟩ | ⟨name, body, closed, rfl, hexposes⟩⟩
      · have hbell := bell_not_mem_texts htemplate hn _ (Node.mem_texts_of_shown? hshown)
        exact absurd (bell_mem_of_isInfix hmark hname) hbell
      · rw [unmask_eq_self (Node.not_mem_body htemplate hn rfl)] at hexposes
        exact ⟨name, body, closed, hn, hexposes⟩
    · rintro ⟨name, body, closed, hn, hexposes⟩
      refine ⟨_, hn, .inr ⟨name, body, closed, rfl, ?_⟩⟩
      rwa [unmask_eq_self (Node.not_mem_body htemplate hn rfl)]
  unfold Reveals at hwhole
  rw [hwhole, hadds, htells, or_false]
  exact or_iff_right hstart

end

/-- An outcome that shows a mark shows it in a name. -/
theorem shows_iff_leaks (hmark : mark ∈ privateMarks) {code : Text} {final : Compilation}
    (hunmarked : (Outcome.ofRun (code, final)).Unmarked)
    (htable : ∀ name ∈ final.view.table, name ∈ final.view.cached) :
    (Outcome.ofRun (code, final)).Shows mark ↔ Leaks mark final := by
  constructor
  · rintro (hcode | ⟨name, source, hsource, hname | hinside⟩ | ⟨name, entry, hentry, hshown⟩ |
      ⟨message, hmessage, hinside⟩)
    · exact absurd (bell_mem_of_isInfix hmark hcode) hunmarked.code
    · exact .inl ⟨name, OrderedMap.mem_of_get? hsource, hname⟩
    · exact absurd (bell_mem_of_isInfix hmark hinside) (hunmarked.sources name source hsource)
    · obtain ⟨unit, rfl, hunit⟩ := hunmarked.units name entry hentry
      rw [isInfix_tableEntry_iff hmark name hunit, or_self] at hshown
      exact .inl ⟨name, htable name (OrderedMap.mem_of_get? hentry), hshown⟩
    · obtain ⟨d, hd, rfl⟩ := List.mem_map.mp hmessage
      exact .inr ⟨d, hd, hinside⟩
  · rintro (⟨name, hname, hinside⟩ | ⟨d, hd, hinside⟩)
    · obtain ⟨source, hsource⟩ := OrderedMap.mem_iff_exists_get?.mp hname
      exact .inr (.inl ⟨name, source, hsource, .inl hinside⟩)
    · exact .inr (.inr (.inr ⟨_, List.mem_map_of_mem hd, hinside⟩))

/-- Where partials are embedded no mark is shown. -/
theorem Compiles.not_shows {options : Options} {template code : Text} {middle final : Compilation}
    (hgiven : BellFree fs options template) (h : Compiles fs options none template code middle final)
    (hruntime : options.flags.runtime = false) :
    (Outcome.ofRun (code, final)).Unmarked ∧
      ∀ mark ∈ privateMarks, ¬ (Outcome.ofRun (code, final)).Shows mark := by
  obtain ⟨hhushed, hcode⟩ := h.hushed hgiven hruntime
  have htable : final.view.table = ∅ := h.lets.table hruntime
  have hunmarked : (Outcome.ofRun (code, final)).Unmarked := by
    refine ⟨hcode, fun name source hsource => (hhushed.cached name source hsource).2,
      fun name entry hentry => ?_⟩
    have hentry : final.view.table.get? name = some entry := hentry
    rw [htable] at hentry
    cases hentry
  refine ⟨hunmarked, fun mark hmark hshown => ?_⟩
  rw [shows_iff_leaks hmark hunmarked (by simp [htable, OrderedMap.not_mem_empty])] at hshown
  rcases hshown with ⟨name, hname, hinside⟩ | ⟨d, hd, hinside⟩
  · obtain ⟨source, hsource⟩ := OrderedMap.mem_iff_exists_get?.mp hname
    exact (hhushed.cached name source hsource).1 (bell_mem_of_isInfix hmark hinside)
  · exact hhushed.diagnostics d hd (bell_mem_of_isInfix hmark hinside)

/-- If nothing that is given has a bell, then no code and no source has one, and the mark of
self-indented code is shown nowhere. The mask of the keyword is shown exactly if partials are
dispatched and a source, or the body of a block in the template, has a name with the keyword that is
defined there, or reported if it is missing or has no matching tag. -/
theorem marks_shown_iff (fs : FileSystem) (options : Options) (template : Text)
    (hgiven : BellFree fs options template) :
    ∃ outcome, compile fs options none template = some outcome ∧ outcome.Unmarked ∧
      ¬ outcome.Shows selfIndented ∧
      (outcome.Shows sentinel ↔ options.flags.runtime = true ∧
        ((∃ name body closed, .block name body closed ∈ template.escape.nodes ∧
          body.Exposes (word <:+: ·) options.flags.skipMissing) ∨
        ∃ name source, outcome.cached.get? name = some source ∧
          source.Exposes (word <:+: ·) options.flags.skipMissing)) := by
  obtain ⟨code, middle, final, hrun, h⟩ := exists_compiles fs options template
  have hcompile : compile fs options none template = some (Outcome.ofRun (code, final)) := by
    unfold compile
    rw [hrun]
    rfl
  refine ⟨_, hcompile, ?_⟩
  have hself : selfIndented ∈ privateMarks := List.mem_cons_of_mem _ List.mem_cons_self
  have hsentinel : sentinel ∈ privateMarks := List.mem_cons_self
  cases hruntime : options.flags.runtime with
  | false =>
      obtain ⟨hunmarked, hnone⟩ := h.not_shows hgiven hruntime
      refine ⟨hunmarked, hnone _ hself, fun hshown => absurd hshown (hnone _ hsentinel), ?_⟩
      rintro ⟨hfalse, -⟩
      cases hfalse
  | true =>
      have hunmarked := h.unmarked hgiven hruntime
      have htable : ∀ name ∈ final.view.table, name ∈ final.view.cached :=
        fun name => ((h.canonical hruntime).1 name).mp
      have htemplate := bell_not_mem_escape hgiven.template
      have hsources := (h.clearNames_final hgiven hruntime).sources
      refine ⟨hunmarked, ?_, ?_⟩
      · rw [shows_iff_leaks hself hunmarked htable, h.leaks_iff hgiven hruntime hself]
        rintro (⟨name, body, closed, hn, hexposes⟩ | ⟨name, source, hsource, hexposes⟩)
        · exact not_exposes_selfIndented (Node.not_mem_body htemplate hn rfl) hexposes
        · exact not_exposes_selfIndented (hsources name source hsource) hexposes
      · rw [shows_iff_leaks hsentinel hunmarked htable, h.leaks_iff hgiven hruntime hsentinel]
        refine Iff.trans (or_congr ?_ ?_) (and_iff_right rfl).symm
        · exact exists_congr fun name => exists_congr fun body => exists_congr fun closed =>
            and_congr_right fun hn => exposes_sentinel_iff (Node.not_mem_body htemplate hn rfl)
        · exact exists_congr fun name => exists_congr fun source =>
            and_congr_right fun hsource => exposes_sentinel_iff (hsources name source hsource)

/-- A partial whose source is the text, and nothing else. -/
def leakingOptions (source : Text) : Options :=
  { Options.standard with
    flags := ⟨false, true, false, false⟩
    partials := .ofList [("p".toList, source)] }

/-- A reference to a partial with the name of the keyword. -/
def keywordReference : Text :=
  "\x7b\x7b> function\x7d\x7d".toList

/-- The partial is missing, and is reported under its masked name. -/
theorem marks_shown_iff_missing :
    BellFree (.emptyAt ['/']) (leakingOptions keywordReference) "\x7b\x7b> p\x7d\x7d".toList ∧
    ∃ outcome, compile (.emptyAt ['/']) (leakingOptions keywordReference) none
        "\x7b\x7b> p\x7d\x7d".toList = some outcome ∧
      outcome.Unmarked ∧ ¬ outcome.Shows selfIndented ∧ outcome.Shows sentinel := by
  have hgiven : BellFree (.emptyAt ['/']) (leakingOptions keywordReference)
      "\x7b\x7b> p\x7d\x7d".toList := by
    refine ⟨by decide, ⟨by decide, by decide, by decide⟩, fun name source hsource => ?_, ⟨?_, ?_⟩⟩
    · have hentries : ∀ entry ∈ (leakingOptions keywordReference).partials.entries,
          bell ∉ entry.1 ∧ bell ∉ entry.2 := by decide +kernel
      exact hentries _ (OrderedMap.mem_entries_of_get? hsource)
    · exact fun e he => absurd he (by decide +revert)
    · exact fun e he => absurd he (by decide +revert)
  obtain ⟨outcome, hcompile, hunmarked, hself, hshown⟩ :=
    marks_shown_iff (.emptyAt ['/']) (leakingOptions keywordReference) _ hgiven
  refine ⟨hgiven, outcome, hcompile, hunmarked, hself, hshown.mpr ⟨rfl, .inr ?_⟩⟩
  have hcached : (compile (.emptyAt ['/']) (leakingOptions keywordReference) none
      "\x7b\x7b> p\x7d\x7d".toList).map (fun outcome => outcome.cached.get? "p".toList) =
        some (some keywordReference) := by
    decide +kernel
  have hnode : Node.reference (.named word) (some []) ∈ keywordReference.nodes := by decide +kernel
  rw [hcompile, Option.map_some, Option.some.injEq] at hcached
  exact ⟨_, _, hcached, .shown hnode rfl (List.infix_refl word)⟩

/-- A definition in a unit is cached and dispatched under its masked name. -/
theorem definition_shows_sentinel :
    (compile (.emptyAt ['/'])
        (leakingOptions "\x7b\x7b#*inline \"function\"\x7d\x7dx\x7b\x7b/inline\x7d\x7d".toList) none
        "\x7b\x7b> p\x7d\x7d".toList).map
      (fun outcome => (outcome.cached.keys, outcome.table.keys)) =
        some (["p".toList, sentinel], [sentinel, "p".toList]) := by
  decide +kernel

end Handlebars

end Inlay
