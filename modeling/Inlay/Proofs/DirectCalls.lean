import Inlay.Proofs.DispatchClosure
import Inlay.Proofs.PlainText

/-!
# Calls outside of bodies

The calls of a text are those of its tags that no block and no inline
definition takes into its body. They can be read off the tags: after the
opening tag of a block they go on behind the first closing tag of its name.
Indentation does not change them.
-/

namespace Inlay

/-! ## Calls of tags -/

namespace Tag

/-- The tags behind the first closing tag of a name. -/
def pastClose (name : Text) (tags : List Tag) : List Tag :=
  (tags.dropWhile fun tag => tag ≠ .close name).tail

theorem length_pastClose_le (name : Text) (tags : List Tag) :
    (pastClose name tags).length ≤ tags.length := by
  unfold pastClose
  rw [List.length_tail]
  have h := (List.dropWhile_suffix (l := tags) fun tag => tag ≠ .close name).length_le
  omega

theorem pastClose_append {name : Text} {inner : List Tag} (h : .close name ∉ inner)
    (rest : List Tag) : pastClose name (inner ++ .close name :: rest) = rest := by
  unfold pastClose
  rw [List.dropWhile_append_of_pos fun tag htag => by
    simpa using fun heq : tag = .close name => h (heq ▸ htag)]
  simp

theorem pastClose_of_not_mem {name : Text} {tags : List Tag} (h : .close name ∉ tags) :
    pastClose name tags = [] := by
  have hall := pastClose_append h []
  unfold pastClose at hall ⊢
  rw [List.dropWhile_append_of_pos fun tag htag => by
    simpa using fun heq : tag = .close name => h (heq ▸ htag)] at hall
  rw [List.dropWhile_eq_nil_iff.mpr fun tag htag => by
    simpa using fun heq : tag = .close name => h (heq ▸ htag)]
  rfl

/-- The name of the closing tag that the body of a tag ends at. -/
def closedBy? : Tag → Option Text
  | .openBlock name => some name
  | .openInline _ => some "inline".toList
  | _ => none

theorem closedBy?_outline (tag : Tag) : tag.outline.closedBy? = tag.closedBy? := by
  cases tag with
  | reference target => cases target <;> rfl
  | _ => rfl

/-- The tags that follow a tag and its body. -/
def beyond (tag : Tag) (tags : List Tag) : List Tag :=
  match tag.closedBy? with
  | some name => pastClose name tags
  | none => tags

theorem length_beyond_le (tag : Tag) (tags : List Tag) :
    (tag.beyond tags).length ≤ tags.length := by
  unfold beyond
  split
  · exact length_pastClose_le _ _
  · exact Nat.le_refl _

/-- The names that the tags call outside of bodies. -/
def dispatched : List Tag → List Text
  | [] => []
  | tag :: tags => tag.refersTo?.toList ++ dispatched (tag.beyond tags)
termination_by tags => tags.length
decreasing_by exact Nat.lt_succ_of_le (length_beyond_le tag tags)

end Tag

namespace Node

/-- The body of a block ends before the first closing tag of its name. -/
theorem close_not_mem_of_findClose? {name s inner rest : Text}
    (h : findClose? name s = some (inner, rest)) : Tag.close name ∉ inner.tags := by
  fun_induction findClose? name s generalizing inner with
  | case1 => simp at h
  | case2 s before inside r hs hc =>
      obtain ⟨rfl, rfl⟩ := Prod.mk.injEq .. ▸ Option.some.inj h
      rw [Text.tags_of_next?_eq_none (Tag.next?_before hs)]
      exact List.not_mem_nil
  | case3 s before inside r hs hc ih =>
      obtain ⟨⟨i, t⟩, ht, hp⟩ := Option.map_eq_some_iff.mp h
      obtain ⟨rfl, rfl⟩ := Prod.mk.injEq .. ▸ hp
      have hnext := Tag.next?_append hs i
      simp only [List.append_assoc] at hnext ⊢
      rw [Text.tags_of_next? hnext]
      exact List.not_mem_cons_of_ne_of_not_mem (Ne.symm hc) (ih ht)

theorem close_not_mem_of_findClose?_eq_none {name s : Text} (h : findClose? name s = none) :
    Tag.close name ∉ s.tags := by
  fun_induction findClose? name s with
  | case1 s hs =>
      rw [Text.tags_of_next?_eq_none hs]
      exact List.not_mem_nil
  | case2 => cases h
  | case3 s before inside r hs hc ih =>
      rw [Text.tags_of_next? hs]
      exact List.not_mem_cons_of_ne_of_not_mem (Ne.symm hc) (ih (Option.map_eq_none_iff.mp h))

/-- What follows a body has the tags behind the closing tag. -/
theorem tags_rest (name s : Text) : (body name s).2.1.tags = Tag.pastClose name s.tags := by
  unfold body
  split
  · rename_i hclose
    rw [tags_of_findClose? hclose, Tag.pastClose_append (close_not_mem_of_findClose? hclose)]
  · rename_i hnone
    rw [Tag.pastClose_of_not_mem (close_not_mem_of_findClose?_eq_none hnone)]
    exact Text.tags_nil

theorem dispatched_scan (atStart : Bool) (s : Text) :
    (scan atStart s).filterMap dispatches? = Tag.dispatched s.tags := by
  fun_induction scan atStart s with
  | case1 atStart s hs =>
      rw [Text.tags_of_next?_eq_none hs, Tag.dispatched]
      rfl
  | case2 atStart s before inside rest hs target ht line ih =>
      rw [tags_standalone] at ih
      rw [Text.tags_of_next? hs, ht, Tag.dispatched]
      show _ = _ ++ Tag.dispatched rest.tags
      rw [← ih]
      cases target <;> rfl
  | case3 atStart s before inside rest hs name ht parts ih =>
      rw [tags_rest] at ih
      rw [Text.tags_of_next? hs, ht, Tag.dispatched]
      exact congrArg (name :: ·) ih
  | case4 atStart s before inside rest hs name ht parts ih =>
      rw [tags_rest] at ih
      rw [Text.tags_of_next? hs, ht, Tag.dispatched]
      exact ih
  | case5 atStart s before inside rest hs name ht ih =>
      rw [Text.tags_of_next? hs, ht, Tag.dispatched]
      exact ih
  | case6 atStart s before inside rest hs name ht ih =>
      rw [Text.tags_of_next? hs, ht, Tag.dispatched]
      exact ih

end Node

theorem Text.dispatched_eq_tags (s : Text) : s.dispatched = Tag.dispatched s.tags :=
  Node.dispatched_scan true s

/-! ## Calls of an indented text -/

/-- The tags are of one kind and refer to one name, and either both or none of them close a
block of a name without newlines. -/
structure Tag.Matches (tag other : Tag) : Prop where
  outline : other.outline = tag.outline
  close : ∀ name, '\n' ∉ name → (other = .close name ↔ tag = .close name)

namespace Loosened

variable {s t : Text}

theorem newline_mem (h : Loosened s t) (hs : '\n' ∈ s) : '\n' ∈ t := by
  induction h with
  | nil => exact hs
  | cons c _ ih =>
      rcases List.mem_cons.mp hs with hs | hs
      · exact List.mem_cons.mpr (.inl hs)
      · exact List.mem_cons_of_mem _ (ih hs)
  | gap => exact List.mem_cons_self

theorem closing (h : Loosened s t) {x : Text} (hs : Tag.ofText s = .close x) :
    ∃ y, Tag.ofText t = .close y ∧ Loosened x y := by
  have h := h.trim
  unfold Tag.ofText Tag.ofInside at hs ⊢
  rcases h.after? ['#', '>'] (by decide) with ⟨hs₁, ht₁⟩ | ⟨s', t', hs₁, ht₁, h'⟩
  · rw [hs₁] at hs
    rw [ht₁]
    rcases h.after? ['>'] (by decide) with ⟨hs₂, ht₂⟩ | ⟨s', t', hs₂, ht₂, h'⟩
    · rw [hs₂] at hs
      rw [ht₂]
      have hi := h.isSome_inlineName?
      cases hname : Tag.inlineName? s.trim with
      | some name => simp [hname] at hs
      | none =>
          rw [hname, Option.isSome_none, Option.isSome_eq_false_iff, Option.isNone_iff_eq_none] at hi
          rw [hname] at hs
          rw [hi]
          rcases h.after? ['/'] (by decide) with ⟨hs₃, ht₃⟩ | ⟨s', t', hs₃, ht₃, h'⟩
          · simp [hs₃] at hs
          · rw [hs₃] at hs
            rw [ht₃]
            obtain rfl := Tag.close.inj hs
            exact ⟨_, rfl, h'.trim⟩
    · simp [hs₂] at hs
  · simp [hs₁] at hs

theorem matches_ofText (h : Loosened s t) : (Tag.ofText s).Matches (Tag.ofText t) := by
  refine ⟨h.outline_ofText, fun name hname => ⟨fun ht => ?_, fun hs => ?_⟩⟩
  · have houtline := h.outline_ofText
    rw [ht] at houtline
    obtain ⟨x, hx⟩ : ∃ x, Tag.ofText s = .close x := by
      cases hs : Tag.ofText s with
      | close x => exact ⟨x, rfl⟩
      | reference target =>
          rw [hs] at houtline
          cases target <;> cases houtline
      | _ =>
          rw [hs] at houtline
          cases houtline
    obtain ⟨y, hy, hxy⟩ := h.closing hx
    obtain rfl := Tag.close.inj (hy.symm.trans ht)
    rw [hx, hxy.eq_of_not_mem fun hmem => hname (hxy.newline_mem hmem)]
  · obtain ⟨y, hy, hxy⟩ := h.closing hs
    rw [hy, hxy.eq_of_not_mem hname]

theorem forall₂_tags (h : Loosened s t) : List.Forall₂ Tag.Matches s.tags t.tags := by
  induction hn : s.length using Nat.strong_induction_on generalizing s t with
  | _ n ih =>
      rcases h.next? with ⟨hs, ht⟩ | ⟨b, i, r, b', i', r', hs, ht, _, hi, hr⟩
      · rw [Text.tags_of_next?_eq_none hs, Text.tags_of_next?_eq_none ht]
        exact .nil
      · have hlen := Tag.length_of_next? hs
        rw [Text.tags_of_next? hs, Text.tags_of_next? ht]
        exact .cons hi.matches_ofText (ih r.length (hn ▸ hlen) hr rfl)

end Loosened

namespace Tag

theorem forall₂_pastClose {name : Text} (hname : '\n' ∉ name) {tags others : List Tag}
    (h : List.Forall₂ Matches tags others) :
    List.Forall₂ Matches (pastClose name tags) (pastClose name others) := by
  induction h with
  | nil => exact .nil
  | @cons tag other tags others hmatches hrest ih =>
      unfold pastClose at ih ⊢
      by_cases hclose : tag = .close name
      · have hother := (hmatches.close name hname).mpr hclose
        rw [List.dropWhile_cons_of_neg (by simpa using hclose),
          List.dropWhile_cons_of_neg (by simpa using hother)]
        exact hrest
      · have hother : other ≠ .close name := fun h => hclose ((hmatches.close name hname).mp h)
        rw [List.dropWhile_cons_of_pos (by simpa using hclose),
          List.dropWhile_cons_of_pos (by simpa using hother)]
        exact ih

/-- The name of the closing tag has no newlines. -/
def ClosedByWord (tag : Tag) : Prop :=
  ∀ name ∈ tag.closedBy?, '\n' ∉ name

theorem beyond_subset (tag : Tag) (tags : List Tag) : tag.beyond tags ⊆ tags := by
  unfold beyond pastClose
  split
  · exact ((List.tail_suffix _).trans (List.dropWhile_suffix _)).subset
  · exact List.Subset.refl _

/-- Tags that match call the same names. -/
theorem dispatched_eq_of_matches {tags others : List Tag} (h : List.Forall₂ Matches tags others)
    (hwords : ∀ tag ∈ tags, tag.ClosedByWord) : dispatched others = dispatched tags := by
  fun_induction dispatched tags generalizing others with
  | case1 =>
      cases h
      rw [dispatched]
  | case2 tag tags ih =>
      obtain ⟨htag, hwords⟩ := List.forall_mem_cons.mp hwords
      cases h with
      | @cons _ other _ others hmatches hrest =>
          have hbeyond : List.Forall₂ Matches (tag.beyond tags) (other.beyond others) := by
            have hclosed : other.closedBy? = tag.closedBy? := by
              rw [← closedBy?_outline, hmatches.outline, closedBy?_outline]
            unfold beyond
            rw [hclosed]
            split
            · rename_i name hname
              exact forall₂_pastClose (htag name hname) hrest
            · exact hrest
          have hrefers : other.refersTo? = tag.refersTo? := by
            rw [← refersTo?_outline, hmatches.outline, refersTo?_outline]
          rw [dispatched, hrefers, ih hbeyond fun other hother =>
            hwords other (beyond_subset tag tags hother)]

theorem closedByWord_ofText (inside : Text) : (ofText inside).ClosedByWord := by
  intro name hname hmem
  cases htag : ofText inside with
  | openBlock other =>
      rw [htag] at hname
      obtain rfl := Option.some.inj hname
      have hblank := not_isBlank_of_refersTo? (by rw [htag]; rfl) _ hmem
      rw [isBlank_newline] at hblank
      cases hblank
  | openInline other =>
      rw [htag] at hname
      obtain rfl := Option.some.inj hname
      exact absurd hmem (by decide)
  | _ =>
      rw [htag] at hname
      cases hname

end Tag

namespace Text

theorem closedByWord_tags (s : Text) : ∀ tag ∈ s.tags, tag.ClosedByWord := by
  fun_induction tags s with
  | case1 => exact fun _ h => absurd h List.not_mem_nil
  | case2 s before inside rest hs ih =>
      exact List.forall_mem_cons.mpr ⟨Tag.closedByWord_ofText inside, ih⟩

/-- Indentation changes no call. -/
theorem dispatched_indentLines {w : Text} (hw : ∀ c ∈ w, isBlank c = true) (s : Text) :
    (indentLines w s).dispatched = s.dispatched := by
  have hbrace : '\x7b' ∉ w := fun h => absurd (hw _ h) (by decide)
  have hmatches := (Loosened.indentBreaks hw s).forall₂_tags
  unfold indentLines
  rw [dispatched_eq_tags, dispatched_eq_tags, tags_append_of_not_mem hbrace]
  exact Tag.dispatched_eq_of_matches hmatches s.closedByWord_tags

end Text

end Inlay
