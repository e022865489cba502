import Inlay.Proofs.References

/-!
# Plain templates

A plain text has no tags but variables and references by name. Its nodes
are literals, variables and such references. A replacement that leaves tags
alone commutes with their scan, lines included, and indentation keeps a text
plain.
-/

namespace Inlay

/-- A variable, or a reference whose name is of the given kind. -/
def Tag.Plain (P : Text → Prop) : Tag → Prop
  | .variable _ => True
  | .reference (.named name) => P name
  | _ => False

/-- Whether a tag is plain can be told from its outline. -/
theorem Tag.plain_outline {P : Text → Prop} (tag : Tag) : tag.outline.Plain P ↔ tag.Plain P := by
  cases tag with
  | reference target => cases target <;> rfl
  | _ => rfl

/-- All tags are variables, or references whose names are of the given kind. -/
def Text.Plain (P : Text → Prop) (s : Text) : Prop :=
  ∀ tag ∈ s.tags, tag.Plain P

instance (P : Text → Prop) [DecidablePred P] (tag : Tag) : Decidable (tag.Plain P) :=
  match tag with
  | .variable _ => isTrue trivial
  | .reference (.named name) => inferInstanceAs (Decidable (P name))
  | .reference (.dynamic _) => isFalse id
  | .reference .block => isFalse id
  | .openBlock _ => isFalse id
  | .openInline _ => isFalse id
  | .close _ => isFalse id

instance (P : Text → Prop) [DecidablePred P] (s : Text) : Decidable (s.Plain P) :=
  inferInstanceAs (Decidable (∀ tag ∈ s.tags, tag.Plain P))

/-- A literal, a variable, or a reference whose name is of the given kind, indented by
spaces and tabs. -/
def Node.Plain (P : Text → Prop) : Node → Prop
  | .literal _ => True
  | .variable _ => True
  | .reference (.named name) indent => P name ∧ ∀ c ∈ indent.getD [], c = ' ' ∨ c = '\t'
  | _ => False

/-- The node with its text changed. -/
def Node.map (f : Text → Text) : Node → Node
  | .literal text => .literal (f text)
  | .variable name => .variable (f name)
  | .reference target indent => .reference (target.map f) indent
  | .block name body closed => .block (f name) (f body) closed
  | .inlinePartial name body closed => .inlinePartial (f name) (f body) closed
  | .strayClose name => .strayClose (f name)

theorem Node.Plain.map {P : Text → Prop} {n : Node} (h : n.Plain P) (f : Text → Text) :
    (n.map f).Plain fun _ => True := by
  cases n with
  | reference target indent =>
      cases target with
      | named name => exact ⟨trivial, h.2⟩
      | _ => exact h
  | _ => exact h

namespace Text

variable {P : Text → Prop} {s : Text}

theorem Plain.node (h : s.Plain P) {n : Node} (hn : n ∈ s.nodes) : n.Plain P := by
  have htags : ∀ tag ∈ n.tags, tag.Plain P := fun tag htag => h tag (Node.tags_subset hn htag)
  cases n with
  | literal => trivial
  | «variable» => trivial
  | reference target indent =>
      have htag := htags (.reference target) List.mem_cons_self
      cases target with
      | named name =>
          refine ⟨htag, ?_⟩
          cases indent with
          | none => exact fun c hc => absurd hc List.not_mem_nil
          | some w => exact Node.indent?_of_mem_scan hn rfl
      | _ => exact htag
  | block name => exact htags (.openBlock name) List.mem_cons_self
  | inlinePartial name => exact htags (.openInline name) List.mem_cons_self
  | strayClose name => exact htags (.close name) List.mem_cons_self

/-- Indentation keeps a text plain. -/
theorem Plain.indentLines (h : s.Plain P) {w : Text} (hw : ∀ c ∈ w, isBlank c = true) :
    (Text.indentLines w s).Plain P := by
  intro tag htag
  have hmem : tag.outline ∈ (Text.indentLines w s).tags.map Tag.outline :=
    List.mem_map_of_mem htag
  rw [map_outline_tags_indentLines hw] at hmem
  obtain ⟨other, hother, heq⟩ := List.mem_map.mp hmem
  rw [← Tag.plain_outline, ← heq, Tag.plain_outline]
  exact h other hother

end Text

/-! ## The line of a tag -/

namespace Node

/-- What stands on the last line of a text, and what stands before it. -/
def lastLine (s : Text) : Text :=
  (s.reverse.takeWhile (· != '\n')).reverse

def beforeLastLine (s : Text) : Text :=
  (s.reverse.dropWhile (· != '\n')).reverse

theorem lineIndent?_eq (atStart : Bool) (before : Text) :
    lineIndent? atStart before =
      if (lastLine before).all (fun c => c == ' ' || c == '\t') &&
          (atStart || !(beforeLastLine before).isEmpty) then
        some (beforeLastLine before, lastLine before)
      else none := rfl

theorem beforeLastLine_append_lastLine (s : Text) : beforeLastLine s ++ lastLine s = s := by
  rw [beforeLastLine, lastLine, ← List.reverse_append, List.takeWhile_append_dropWhile,
    List.reverse_reverse]

theorem newline_not_mem_lastLine (s : Text) : '\n' ∉ lastLine s := by
  intro h
  have hne := List.mem_takeWhile_imp (List.mem_reverse.mp h)
  simp at hne

theorem beforeLastLine_cases (s : Text) :
    beforeLastLine s = [] ∨ ∃ k, beforeLastLine s = k ++ ['\n'] := by
  unfold beforeLastLine
  cases hs : s.reverse.dropWhile (· != '\n') with
  | nil => exact .inl rfl
  | cons c t =>
      have hc := List.head?_dropWhile_not (· != '\n') s.reverse
      rw [hs] at hc
      obtain rfl : c = '\n' := by simpa using hc
      exact .inr ⟨t.reverse, List.reverse_cons⟩

theorem takeWhile_reverse_of_not_mem {line : Text} (hline : '\n' ∉ line) (k : Text) :
    (line.reverse ++ '\n' :: k).takeWhile (· != '\n') = line.reverse ∧
      (line.reverse ++ '\n' :: k).dropWhile (· != '\n') = '\n' :: k := by
  have hall : ∀ c ∈ line.reverse, (c != '\n') = true := by
    intro c hc
    have hne : c ≠ '\n' := fun e => hline (e ▸ List.mem_reverse.mp hc)
    simpa using hne
  rw [List.takeWhile_append_of_pos hall, List.dropWhile_append_of_pos hall]
  simp

/-- The last line starts behind the last newline, or is the whole text. -/
theorem lastLine_append {kept line : Text} (hkept : kept = [] ∨ ∃ k, kept = k ++ ['\n'])
    (hline : '\n' ∉ line) :
    lastLine (kept ++ line) = line ∧ beforeLastLine (kept ++ line) = kept := by
  unfold lastLine beforeLastLine
  rcases hkept with rfl | ⟨k, rfl⟩
  · have hall : ∀ c ∈ line.reverse, (c != '\n') = true := by
      intro c hc
      have hne : c ≠ '\n' := fun e => hline (e ▸ List.mem_reverse.mp hc)
      simpa using hne
    rw [List.nil_append, List.takeWhile_eq_self_iff.mpr hall, List.dropWhile_eq_nil_iff.mpr hall]
    simp
  · have hparts := takeWhile_reverse_of_not_mem hline k.reverse
    have hreverse : (k ++ ['\n'] ++ line).reverse = line.reverse ++ '\n' :: k.reverse := by simp
    rw [hreverse, hparts.1, hparts.2]
    simp

end Node

/-! ## Scanning a plain text -/

namespace Node

theorem scan_of_none {s : Text} (h : Tag.next? s = none) (atStart : Bool) :
    scan atStart s = [.literal s] := by
  rw [scan]
  split
  · rfl
  · rename_i hs
    rw [h] at hs
    cases hs

theorem scan_of_variable {s before inside rest name : Text}
    (h : Tag.next? s = some (before, inside, rest)) (ht : Tag.ofText inside = .variable name)
    (atStart : Bool) :
    scan atStart s = .literal before :: .variable name :: scan false rest := by
  rw [scan]
  split
  · rename_i hs
    rw [h] at hs
    cases hs
  · rename_i hs
    rw [h] at hs
    obtain ⟨rfl, rfl, rfl⟩ := by simpa using hs
    rw [ht]

theorem scan_of_reference {s before inside rest : Text} {target : Reference}
    (h : Tag.next? s = some (before, inside, rest)) (ht : Tag.ofText inside = .reference target)
    (atStart : Bool) :
    scan atStart s =
      .literal (standalone atStart before rest).1 ::
        .reference target (standalone atStart before rest).2.1 ::
          scan (standalone atStart before rest).2.1.isSome (standalone atStart before rest).2.2 := by
  rw [scan]
  split
  · rename_i hs
    rw [h] at hs
    cases hs
  · rename_i hs
    rw [h] at hs
    obtain ⟨rfl, rfl, rfl⟩ := by simpa using hs
    rw [ht]

end Node

namespace Text

variable {P : Text → Prop}

theorem Plain.rest {s before inside rest : Text} (hs : s.Plain P)
    (h : Tag.next? s = some (before, inside, rest)) : rest.Plain P := by
  intro tag htag
  apply hs
  rw [tags_of_next? h]
  exact List.mem_cons_of_mem _ htag

theorem Plain.head {s before inside rest : Text} (hs : s.Plain P)
    (h : Tag.next? s = some (before, inside, rest)) : (Tag.ofText inside).Plain P := by
  apply hs
  rw [tags_of_next? h]
  exact List.mem_cons_self

theorem Plain.standalone {rest : Text} (hs : rest.Plain P) (atStart : Bool) (before : Text) :
    (Node.standalone atStart before rest).2.2.Plain P := by
  intro tag htag
  rw [Node.tags_standalone] at htag
  exact hs tag htag

/-- A plain text is scanned from one variable or reference by name to the next. -/
theorem Plain.induction {motive : Bool → Text → Prop}
    (ending : ∀ atStart s, Tag.next? s = none → motive atStart s)
    (reference : ∀ atStart s before inside rest name,
      Tag.next? s = some (before, inside, rest) → Tag.ofText inside = .reference (.named name) →
      P name →
      motive (Node.standalone atStart before rest).2.1.isSome
        (Node.standalone atStart before rest).2.2 →
      motive atStart s)
    («variable» : ∀ atStart s before inside rest name,
      Tag.next? s = some (before, inside, rest) → Tag.ofText inside = .variable name →
      motive false rest → motive atStart s)
    {s : Text} (hs : s.Plain P) (atStart : Bool) : motive atStart s := by
  fun_induction Node.scan atStart s with
  | case1 atStart s hnext => exact ending atStart s hnext
  | case2 atStart s before inside rest hnext target htag line ih =>
      have htarget := hs.head hnext
      rw [htag] at htarget
      have hline : line.2.2.Plain P := (hs.rest hnext).standalone atStart before
      cases target with
      | named name => exact reference atStart s before inside rest name hnext htag htarget (ih hline)
      | dynamic expr => exact htarget.elim
      | block => exact htarget.elim
  | case3 atStart s before inside rest hnext name htag =>
      have htarget := hs.head hnext
      rw [htag] at htarget
      exact htarget.elim
  | case4 atStart s before inside rest hnext name htag =>
      have htarget := hs.head hnext
      rw [htag] at htarget
      exact htarget.elim
  | case5 atStart s before inside rest hnext name htag =>
      have htarget := hs.head hnext
      rw [htag] at htarget
      exact htarget.elim
  | case6 atStart s before inside rest hnext name htag ih =>
      exact «variable» atStart s before inside rest name hnext htag (ih (hs.rest hnext))

end Text

/-! ## Characters of names and literals -/

/-- The name of a variable is the trimmed inside of its tag. -/
theorem Tag.trim_of_variable {inside name : Text} (h : ofText inside = .variable name) :
    inside.trim = name := by
  unfold ofText ofInside at h
  split at h
  · cases h
  · split at h
    · cases h
    · split at h
      · cases h
      · split at h
        · cases h
        · exact Tag.variable.inj h

/-- The names of references are first words. -/
theorem Tag.not_isBlank_of_refersTo? {inside name : Text}
    (h : (ofText inside).refersTo? = some name) : ∀ c ∈ name, isBlank c = false := by
  unfold ofText ofInside at h
  split at h
  · rename_i s _
    obtain rfl : s.firstWord = name := Option.some.inj h
    exact fun c hc => Text.isBlank_of_mem_firstWord hc
  · split at h
    · rename_i s _
      unfold referenceOf at h
      split at h
      · cases h
      · split at h
        · cases h
        · obtain rfl : s.firstWord = name := Option.some.inj h
          exact fun c hc => Text.isBlank_of_mem_firstWord hc
    · split at h
      · cases h
      · split at h <;> cases h

/-- Names that are referred to have no blanks. -/
theorem Text.not_isBlank_of_mem_references {s name : Text} (h : name ∈ s.references) :
    ∀ c ∈ name, isBlank c = false := by
  obtain ⟨tag, htag, hname⟩ := List.mem_filterMap.mp h
  clear h
  fun_induction tags s with
  | case1 => cases htag
  | case2 s before inside rest hs ih =>
      rcases List.mem_cons.mp htag with rfl | htag
      · exact Tag.not_isBlank_of_refersTo? hname
      · exact ih htag

theorem Text.Plain.firstWords {P : Text → Prop} {s : Text} (hs : s.Plain P) :
    s.Plain fun name => ∀ c ∈ name, isBlank c = false := by
  unfold Text.Plain at hs ⊢
  fun_induction tags s with
  | case1 => exact fun tag htag => absurd htag List.not_mem_nil
  | case2 s before inside rest hnext ih =>
      obtain ⟨htag, hrest⟩ := List.forall_mem_cons.mp hs
      refine List.forall_mem_cons.mpr ⟨?_, ih hrest⟩
      have hwords : ∀ name, (Tag.ofText inside).refersTo? = some name → ∀ c ∈ name, isBlank c = false :=
        fun name hname => Tag.not_isBlank_of_refersTo? hname
      cases hinside : Tag.ofText inside with
      | reference target =>
          rw [hinside] at htag hwords
          cases target with
          | named name => exact hwords name rfl
          | _ => exact htag
      | «variable» name => trivial
      | _ =>
          rw [hinside] at htag
          exact htag

theorem Node.standalone_subset (atStart : Bool) (before rest : Text) :
    (standalone atStart before rest).1 ⊆ before := by
  unfold standalone
  split
  · rename_i hi _
    rw [lineIndent?_eq] at hi
    split at hi
    · obtain ⟨rfl, -⟩ := Prod.mk.injEq .. ▸ Option.some.inj hi
      intro c hc
      rw [← beforeLastLine_append_lastLine before]
      exact List.mem_append_left _ hc
    · cases hi
  · exact List.Subset.refl before

/-! ## Replacements that leave tags alone -/

namespace Inert

open Text

variable {old new : Text} (h : Inert old new) {p : Char → Bool}

include h

theorem all_replace (hp : ∀ c, isTagMark c = false → p c = false) (s : Text) :
    (replace old new s).all p = s.all p := by
  induction s using replaceInduction h.old_ne with
  | nil => rw [h.replace_nil]
  | hit s ih =>
      rw [replace_append h.old_ne]
      obtain ⟨a, x, rfl⟩ := List.exists_cons_of_ne_nil h.old_ne
      obtain ⟨b, y, rfl⟩ := List.exists_cons_of_ne_nil h.new_ne
      simp [hp a (h.old_marks a (by simp)), hp b (h.new_marks b (by simp))]
  | miss c s hc ih => rw [Text.replace_cons hc, List.all_cons, List.all_cons, ih]

theorem newline_not_mem_replace {s : Text} (hs : '\n' ∉ s) : '\n' ∉ replace old new s := by
  have hp : ∀ c, isTagMark c = false → (c != '\n') = true := by
    intro c hc
    simpa using ne_of_isTagMark hc (d := '\n') (by decide)
  have hall : ∀ c ∈ s, (c != '\n') = true := by
    intro c hc
    have hne : c ≠ '\n' := fun e => hs (e ▸ hc)
    simpa using hne
  have hself := h.takeWhile_replace_of_true hp s
  rw [List.takeWhile_eq_self_iff.mpr hall] at hself
  intro hmem
  have hne := List.takeWhile_eq_self_iff.mp hself _ hmem
  simp at hne

theorem lastLine_replace (s : Text) :
    Node.lastLine (replace old new s) = replace old new (Node.lastLine s) ∧
      Node.beforeLastLine (replace old new s) = replace old new (Node.beforeLastLine s) := by
  have hline := h.newline_not_mem_replace (Node.newline_not_mem_lastLine s)
  have hsplit : replace old new s =
      replace old new (Node.beforeLastLine s) ++ replace old new (Node.lastLine s) := by
    conv_lhs => rw [← Node.beforeLastLine_append_lastLine s]
    rcases Node.beforeLastLine_cases s with hk | ⟨k, hk⟩
    · rw [hk, h.replace_nil, List.nil_append, List.nil_append]
    · have hnewline : '\n' ∉ old := h.not_mem_old (by decide)
      rw [hk, replace_append_cons h.old_ne hnewline, h.replace_nil, List.append_assoc,
        List.singleton_append, replace_append_cons h.old_ne hnewline, List.append_assoc,
        List.singleton_append]
  have hkept : replace old new (Node.beforeLastLine s) = [] ∨
      ∃ k, replace old new (Node.beforeLastLine s) = k ++ ['\n'] := by
    rcases Node.beforeLastLine_cases s with hk | ⟨k, hk⟩
    · rw [hk]
      exact .inl h.replace_nil
    · rw [hk, replace_append_cons h.old_ne (h.not_mem_old (by decide)), h.replace_nil]
      exact .inr ⟨_, rfl⟩
  rw [hsplit]
  exact Node.lastLine_append hkept hline

theorem lineIndent?_replace (atStart : Bool) (before : Text) :
    Node.lineIndent? atStart (replace old new before) =
      (Node.lineIndent? atStart before).map fun parts => (replace old new parts.1, parts.2) := by
  obtain ⟨hline, hkept⟩ := h.lastLine_replace before
  have hp : ∀ c, isTagMark c = false → (c == ' ' || c == '\t') = false := by
    intro c hc
    have h₁ : c ≠ ' ' := ne_of_isTagMark hc (by decide)
    have h₂ : c ≠ '\t' := ne_of_isTagMark hc (by decide)
    simp [h₁, h₂]
  rw [Node.lineIndent?_eq, Node.lineIndent?_eq, hline, hkept, h.all_replace hp, h.isEmpty_replace]
  split
  · rename_i hall
    have hblank := List.all_eq_true.mp (Bool.and_eq_true_iff.mp hall).1
    have hkeep : replace old new (Node.lastLine before) = Node.lastLine before := by
      refine replace_of_disjoint h.old_ne fun c hc hold => ?_
      exact Bool.false_ne_true ((hp c (h.old_marks c hold)).symm.trans (hblank c hc))
    rw [hkeep]
    rfl
  · rfl

theorem lineRest?_replace (s : Text) :
    Node.lineRest? (replace old new s) = (Node.lineRest? s).map (replace old new) := by
  have hp : ∀ c, isTagMark c = false → (c != '\n') = true := by
    intro c hc
    simpa using ne_of_isTagMark hc (d := '\n') (by decide)
  unfold Node.lineRest? Text.blank
  rw [h.takeWhile_replace_of_true hp, h.dropWhile_replace_of_true hp,
    h.all_replace fun _ => isBlank_eq_false_of_isTagMark]
  split
  · rw [Option.map_some]
    cases hs : s.dropWhile (· != '\n') with
    | nil => rw [h.replace_nil, List.tail_nil, h.replace_nil]
    | cons c t =>
        have hc := List.head?_dropWhile_not (· != '\n') s
        rw [hs] at hc
        obtain rfl : c = '\n' := by simpa using hc
        rw [h.replace_cons (by decide)]
        rfl
  · rfl

theorem standalone_replace (atStart : Bool) (before rest : Text) :
    Node.standalone atStart (replace old new before) (replace old new rest) =
      (replace old new (Node.standalone atStart before rest).1,
        (Node.standalone atStart before rest).2.1,
        replace old new (Node.standalone atStart before rest).2.2) := by
  unfold Node.standalone
  rw [h.lineIndent?_replace, h.lineRest?_replace]
  cases Node.lineIndent? atStart before with
  | none => rfl
  | some parts =>
      cases Node.lineRest? rest with
      | none => rfl
      | some next => rfl

/-- The scan of a plain text commutes with the replacement. -/
theorem scan_replace {P : Text → Prop} (atStart : Bool) {s : Text} (hs : s.Plain P) :
    Node.scan atStart (replace old new s) =
      (Node.scan atStart s).map (Node.map (replace old new)) := by
  refine hs.induction (motive := fun atStart s => Node.scan atStart (replace old new s) =
    (Node.scan atStart s).map (Node.map (replace old new))) ?_ ?_ ?_ atStart
  · intro atStart s hnext
    have hnone : Tag.next? (replace old new s) = none := by rw [h.next?_replace, hnext, Option.map_none]
    rw [Node.scan_of_none hnext, Node.scan_of_none hnone]
    rfl
  · intro atStart s before inside rest name hnext htag _ ih
    have hsome : Tag.next? (replace old new s) =
        some (replace old new before, replace old new inside, replace old new rest) := by
      rw [h.next?_replace, hnext, Option.map_some]
    have hname : Tag.ofText (replace old new inside) =
        .reference (.named (replace old new name)) := by
      rw [h.ofText_replace, htag]
      rfl
    rw [Node.scan_of_reference hnext htag, Node.scan_of_reference hsome hname,
      h.standalone_replace, ih]
    rfl
  · intro atStart s before inside rest name hnext htag ih
    have hsome : Tag.next? (replace old new s) =
        some (replace old new before, replace old new inside, replace old new rest) := by
      rw [h.next?_replace, hnext, Option.map_some]
    have hname : Tag.ofText (replace old new inside) = .variable (replace old new name) := by
      rw [h.ofText_replace, htag]
      rfl
    rw [Node.scan_of_variable hnext htag, Node.scan_of_variable hsome hname, ih]
    rfl

theorem nodes_replace {P : Text → Prop} {s : Text} (hs : s.Plain P) :
    (replace old new s).nodes = s.nodes.map (Node.map (replace old new)) :=
  h.scan_replace true hs

end Inert

namespace Text

theorem Plain.replaced {P Q : Text → Prop} {s : Text} (hs : s.Plain P) {old new : Text}
    (h : Inert old new) (hPQ : ∀ name, P name → Q (replace old new name)) :
    (replace old new s).Plain Q := by
  intro tag htag
  rw [tags_replace h] at htag
  obtain ⟨other, hother, rfl⟩ := List.mem_map.mp htag
  have hplain := hs other hother
  cases other with
  | reference target =>
      cases target with
      | named name => exact hPQ name hplain
      | _ => exact hplain
  | _ => exact hplain

theorem Plain.escaped {P Q : Text → Prop} {s : Text} (hs : s.Plain P)
    (hPQ : ∀ name, P name → Q name.escape) : s.escape.Plain Q := by
  rw [escape_eq_replace]
  exact hs.replaced inert_escape fun name hname => escape_eq_replace name ▸ hPQ name hname

/-- Escaping a plain text escapes its nodes. -/
theorem Plain.nodes_escape {P : Text → Prop} {s : Text} (hs : s.Plain P) :
    s.escape.nodes = s.nodes.map (Node.map escape) := by
  have hescape : escape = replace ['\\'] ['\\', '\\'] := funext escape_eq_replace
  rw [hescape]
  exact inert_escape.nodes_replace hs

end Text

end Inlay
