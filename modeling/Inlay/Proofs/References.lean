import Inlay.Proofs.Loosening

/-!
# What the nodes of a template are made of

The names that a text refers to, in order, and how escaping, masking and
indentation change them. A body stands in the text of its block and is
shorter, and only spaces and tabs indent a tag.
-/

namespace Inlay

/-! ## Names referred to -/

/-- The partial that a tag refers to by name. -/
def Tag.refersTo? : Tag → Option Text
  | .reference (.named name) => some name
  | .openBlock name => some name
  | _ => none

theorem Tag.refersTo?_map (f : Text → Text) (tag : Tag) :
    (tag.map f).refersTo? = tag.refersTo?.map f := by
  cases tag with
  | reference target => cases target <;> rfl
  | _ => rfl

theorem Tag.refersTo?_outline (tag : Tag) : tag.outline.refersTo? = tag.refersTo? := by
  cases tag with
  | reference target => cases target <;> rfl
  | _ => rfl

/-- The partials that a text refers to by name, in order, those in the bodies of
blocks included. -/
def Text.references (s : Text) : List Text :=
  s.tags.filterMap Tag.refersTo?

namespace Text

theorem length_references_le (s : Text) : 4 * s.references.length ≤ s.length := by
  have h₁ := length_tags_le s
  have h₂ : s.references.length ≤ s.tags.length := List.length_filterMap_le _ _
  omega

theorem references_replace {old new : Text} (h : Inert old new) (s : Text) :
    (replace old new s).references = s.references.map (replace old new) := by
  unfold references
  rw [tags_replace h, List.filterMap_map, List.map_filterMap]
  congr 1
  funext tag
  exact Tag.refersTo?_map _ tag

theorem references_mask (s : Text) :
    (Keyword.mask s).references = s.references.map Keyword.mask :=
  references_replace inert_mask s

theorem references_unmask (s : Text) :
    (Keyword.unmask s).references = s.references.map Keyword.unmask :=
  references_replace inert_unmask s

/-- Indentation changes no name. -/
theorem references_indentLines {w : Text} (hw : ∀ c ∈ w, isBlank c = true) (s : Text) :
    (indentLines w s).references = s.references := by
  have houtline : ∀ tags : List Tag,
      tags.filterMap Tag.refersTo? = (tags.map Tag.outline).filterMap Tag.refersTo? := by
    intro tags
    rw [List.filterMap_map]
    congr 1
    funext tag
    exact (Tag.refersTo?_outline tag).symm
  unfold references
  rw [houtline, houtline s.tags, map_outline_tags_indentLines hw]

end Text

/-! ## Infixes -/

namespace Tag

theorem inside_isInfix {s before inside rest : Text} (h : next? s = some (before, inside, rest)) :
    inside <:+: s := by
  refine ⟨before ++ opening, closing ++ rest, ?_⟩
  rw [eq_append_of_next? h]
  simp

theorem rest_isSuffix {s before inside rest : Text} (h : next? s = some (before, inside, rest)) :
    rest <:+ s := by
  refine ⟨before ++ (opening ++ (inside ++ closing)), ?_⟩
  rw [eq_append_of_next? h]
  simp

theorem after?_isSuffix {mark s rest : Text} (h : Text.after? mark s = some rest) : rest <:+ s :=
  ⟨mark, (Text.eq_append_of_after? h).symm⟩

/-- The name of a reference stands in its tag. -/
theorem refersTo?_isInfix {inside name : Text} (h : (ofText inside).refersTo? = some name) :
    name <:+: inside := by
  refine List.IsInfix.trans ?_ (Text.trim_isInfix inside)
  unfold ofText ofInside at h
  split at h
  · rename_i s hs
    obtain rfl : s.firstWord = name := Option.some.inj h
    exact (Text.firstWord_isInfix s).trans (after?_isSuffix hs).isInfix
  · split at h
    · rename_i s hs
      unfold referenceOf at h
      split at h
      · cases h
      · split at h
        · cases h
        · obtain rfl : s.firstWord = name := Option.some.inj h
          exact (Text.firstWord_isInfix s).trans (after?_isSuffix hs).isInfix
    · split at h
      · cases h
      · split at h <;> cases h

end Tag

theorem Text.isInfix_of_mem_references {s name : Text} (h : name ∈ s.references) :
    name <:+: s := by
  unfold references at h
  fun_induction tags s with
  | case1 => cases h
  | case2 s before inside rest hs ih =>
      obtain ⟨tag, htag, hname⟩ := List.mem_filterMap.mp h
      rcases List.mem_cons.mp htag with rfl | htag
      · exact (Tag.refersTo?_isInfix hname).trans (Tag.inside_isInfix hs)
      · have hrest := ih (List.mem_filterMap.mpr ⟨tag, htag, hname⟩)
        exact hrest.trans (Tag.rest_isSuffix hs).isInfix

theorem Tag.isInfix_of_inlineName? {inside name : Text} (h : inlineName? inside = some name) :
    name <:+: inside := by
  simp only [inlineName?, Option.bind_eq_bind, Option.bind_eq_some_iff] at h
  obtain ⟨rest, hrest, h⟩ := h
  refine List.IsInfix.trans ?_ (after?_isSuffix hrest).isInfix
  split at h
  · split at h
    · rename_i q s hdrop
      split at h
      · obtain rfl := Option.some.inj h
        have hs : s <:+ rest.dropWhile isBlank := hdrop ▸ List.suffix_cons q s
        refine (List.takeWhile_prefix _).isInfix.trans ?_
        exact (hs.trans (List.dropWhile_suffix _)).isInfix
      · cases h
    · cases h
  · cases h

/-- The name of an inline definition stands in its tag. -/
theorem Tag.isInfix_of_openInline {inside name : Text} (h : ofText inside = .openInline name) :
    name <:+: inside := by
  refine List.IsInfix.trans ?_ (Text.trim_isInfix inside)
  unfold ofText ofInside at h
  split at h
  · cases h
  · split at h
    · cases h
    · split at h
      · rename_i hname
        obtain rfl := Tag.openInline.inj h
        exact isInfix_of_inlineName? hname
      · split at h <;> cases h

theorem Text.isInfix_of_openInline {s name : Text} (h : Tag.openInline name ∈ s.tags) :
    name <:+: s := by
  fun_induction tags s with
  | case1 => cases h
  | case2 s before inside rest hs ih =>
      rcases List.mem_cons.mp h with h | h
      · exact (Tag.isInfix_of_openInline h.symm).trans (Tag.inside_isInfix hs)
      · exact (ih h).trans (Tag.rest_isSuffix hs).isInfix

namespace Node

/-- The partials that a node refers to by name, those in its body included. -/
def references (n : Node) : List Text :=
  n.tags.filterMap Tag.refersTo?

theorem references_subset {n : Node} {s : Text} (hn : n ∈ s.nodes) :
    n.references ⊆ s.references :=
  List.filterMap_subset _ (tags_subset hn)

/-- The body of a block or of an inline definition. -/
def body? : Node → Option Text
  | .block _ body _ => some body
  | .inlinePartial _ body _ => some body
  | _ => none

theorem references_body_subset {n : Node} {body : Text} (h : n.body? = some body) :
    body.references ⊆ n.references := by
  have hsub : body.tags ⊆ n.tags := by
    cases n with
    | block name b closed =>
        obtain rfl := Option.some.inj h
        exact fun tag ht => List.mem_cons_of_mem _ (List.mem_append_left _ ht)
    | inlinePartial name b closed =>
        obtain rfl := Option.some.inj h
        exact fun tag ht => List.mem_cons_of_mem _ (List.mem_append_left _ ht)
    | _ => cases h
  exact List.filterMap_subset _ hsub

theorem eq_append_of_findClose? {name s inner rest : Text}
    (h : findClose? name s = some (inner, rest)) :
    ∃ inside, s = inner ++ (Tag.opening ++ (inside ++ (Tag.closing ++ rest))) := by
  fun_induction findClose? name s generalizing inner with
  | case1 => simp at h
  | case2 s before inside r hs hc =>
      obtain ⟨rfl, rfl⟩ := Prod.mk.injEq .. ▸ Option.some.inj h
      exact ⟨inside, Tag.eq_append_of_next? hs⟩
  | case3 s before inside r hs hc ih =>
      obtain ⟨⟨i, t⟩, ht, hp⟩ := Option.map_eq_some_iff.mp h
      obtain ⟨rfl, rfl⟩ := Prod.mk.injEq .. ▸ hp
      obtain ⟨last, hlast⟩ := ih ht
      refine ⟨last, ?_⟩
      rw [Tag.eq_append_of_next? hs, hlast]
      simp

theorem body_isPrefix (name s : Text) : (body name s).1 <+: s := by
  unfold body
  split
  · rename_i hb
    obtain ⟨inside, hs⟩ := eq_append_of_findClose? hb
    exact ⟨_, hs.symm⟩
  · exact List.prefix_rfl

theorem body_rest_isSuffix (name s : Text) : (body name s).2.1 <:+ s := by
  unfold body
  split
  · rename_i inner rest hb
    obtain ⟨inside, hs⟩ := eq_append_of_findClose? hb
    refine ⟨inner ++ (Tag.opening ++ (inside ++ Tag.closing)), ?_⟩
    rw [hs]
    simp
  · exact List.nil_suffix

theorem standalone_rest_isSuffix (atStart : Bool) (before rest : Text) :
    (standalone atStart before rest).2.2 <:+ rest := by
  unfold standalone
  split
  · rename_i hr
    unfold lineRest? at hr
    split at hr
    · obtain rfl := Option.some.inj hr
      exact (List.tail_suffix _).trans (List.dropWhile_suffix _)
    · cases hr
  · exact List.suffix_rfl

theorem isInfix_of_next? {s before inside rest x : Text}
    (hs : Tag.next? s = some (before, inside, rest)) (hx : x <:+: rest) :
    x <:+: s ∧ x.length < s.length :=
  ⟨hx.trans (Tag.rest_isSuffix hs).isInfix,
    Nat.lt_of_le_of_lt hx.length_le (Tag.length_of_next? hs)⟩

theorem mem_cons_cons {a b n : Node} {ns : List Node} (h : n ∈ a :: b :: ns) :
    n = a ∨ n = b ∨ n ∈ ns := by
  simpa only [List.mem_cons] using h

/-- The body of a node stands in the text and is shorter. -/
theorem body?_isInfix {atStart : Bool} {s body : Text} {n : Node} (hn : n ∈ scan atStart s)
    (hb : n.body? = some body) : body <:+: s ∧ body.length < s.length := by
  fun_induction scan atStart s with
  | case1 atStart s hs =>
      obtain rfl := List.mem_singleton.mp hn
      cases hb
  | case2 atStart s before inside rest hs target ht line ih =>
      apply isInfix_of_next? hs
      rcases mem_cons_cons hn with rfl | rfl | hn
      · cases hb
      · cases hb
      · exact (ih hn).1.trans (standalone_rest_isSuffix atStart before rest).isInfix
  | case3 atStart s before inside rest hs name ht parts ih =>
      apply isInfix_of_next? hs
      rcases mem_cons_cons hn with rfl | rfl | hn
      · cases hb
      · obtain rfl := Option.some.inj hb
        exact (body_isPrefix name rest).isInfix
      · exact (ih hn).1.trans (body_rest_isSuffix name rest).isInfix
  | case4 atStart s before inside rest hs name ht parts ih =>
      apply isInfix_of_next? hs
      rcases mem_cons_cons hn with rfl | rfl | hn
      · cases hb
      · obtain rfl := Option.some.inj hb
        exact (body_isPrefix "inline".toList rest).isInfix
      · exact (ih hn).1.trans (body_rest_isSuffix "inline".toList rest).isInfix
  | case5 atStart s before inside rest hs name ht ih =>
      apply isInfix_of_next? hs
      rcases mem_cons_cons hn with rfl | rfl | hn
      · cases hb
      · cases hb
      · exact (ih hn).1
  | case6 atStart s before inside rest hs name ht ih =>
      apply isInfix_of_next? hs
      rcases mem_cons_cons hn with rfl | rfl | hn
      · cases hb
      · cases hb
      · exact (ih hn).1

/-- The indentation of a tag. -/
def indent? : Node → Option Text
  | .reference _ indent => indent
  | _ => none

theorem isBlank_of_lineIndent? {atStart : Bool} {before kept w : Text}
    (h : lineIndent? atStart before = some (kept, w)) : ∀ c ∈ w, c = ' ' ∨ c = '\t' := by
  simp only [lineIndent?] at h
  split at h
  · rename_i hline
    obtain ⟨-, rfl⟩ := Prod.mk.injEq .. ▸ Option.some.inj h
    intro c hc
    have hall := List.all_eq_true.mp (Bool.and_eq_true_iff.mp hline).1 c hc
    simpa using hall
  · cases h

/-- Only spaces and tabs indent a tag. -/
theorem indent?_of_mem_scan {atStart : Bool} {s w : Text} {n : Node} (hn : n ∈ scan atStart s)
    (hw : n.indent? = some w) : ∀ c ∈ w, c = ' ' ∨ c = '\t' := by
  fun_induction scan atStart s with
  | case1 atStart s hs =>
      obtain rfl := List.mem_singleton.mp hn
      cases hw
  | case2 atStart s before inside rest hs target ht line ih =>
      rcases mem_cons_cons hn with rfl | rfl | hn
      · cases hw
      · have hline : (standalone atStart before rest).2.1 = some w := hw
        unfold standalone at hline
        split at hline
        · rename_i hi _
          obtain rfl := Option.some.inj hline
          exact isBlank_of_lineIndent? hi
        · cases hline
      · exact ih hn
  | case3 atStart s before inside rest hs name ht parts ih =>
      rcases mem_cons_cons hn with rfl | rfl | hn
      · cases hw
      · cases hw
      · exact ih hn
  | case4 atStart s before inside rest hs name ht parts ih =>
      rcases mem_cons_cons hn with rfl | rfl | hn
      · cases hw
      · cases hw
      · exact ih hn
  | case5 atStart s before inside rest hs name ht ih =>
      rcases mem_cons_cons hn with rfl | rfl | hn
      · cases hw
      · cases hw
      · exact ih hn
  | case6 atStart s before inside rest hs name ht ih =>
      rcases mem_cons_cons hn with rfl | rfl | hn
      · cases hw
      · cases hw
      · exact ih hn

/-- Only spaces and tabs indent the node. -/
def BlankIndent (n : Node) : Prop :=
  ∀ w, n.indent? = some w → ∀ c ∈ w, c = ' ' ∨ c = '\t'

theorem blankIndent_of_mem {s : Text} {n : Node} (hn : n ∈ s.nodes) : n.BlankIndent :=
  fun _ hw => indent?_of_mem_scan hn hw

theorem BlankIndent.isBlank {n : Node} (h : n.BlankIndent) :
    ∀ c ∈ n.indent?.getD [], isBlank c = true := by
  cases hw : n.indent? with
  | none => simp
  | some w => exact fun c hc => isBlank_of_space_or_tab (h w hw c hc)

theorem not_mem_body {c : Char} {s body : Text} {n : Node} (hs : c ∉ s) (hn : n ∈ s.nodes)
    (hbody : n.body? = some body) : c ∉ body :=
  fun h => hs ((body?_isInfix hn hbody).1.subset h)

end Node

end Inlay
