import Inlay.Proofs.InertReplacement
import Inlay.Template.Node

/-!
# The tags of a text in order

Read from the left, a text is a sequence of tags between runs without tags.
The nodes of a template group these tags and lose none: what a block or an
inline definition takes as its body has the tags up to its closing tag, and
the blanks around a tag that is alone on its line have none.
-/

namespace Inlay

namespace Text

/-! ## The first occurrence of a mark -/

theorem after?_append_eq_none {mark x y z : Text} (hx : mark.length ≤ x.length)
    (h : after? mark (x ++ y) = none) : after? mark (x ++ z) = none := by
  induction mark generalizing x with
  | nil => simp at h
  | cons m mark ih =>
      cases x with
      | nil => simp at hx
      | cons c x =>
          rw [List.cons_append, after?] at h ⊢
          split
          · rename_i hc
            rw [if_pos hc] at h
            exact ih (by simpa using hx) h
          · rfl

theorem after?_of_append_eq_none {mark x y : Text} (h : after? mark (x ++ y) = none) :
    after? mark x = none := by
  cases hx : after? mark x with
  | none => rfl
  | some rest =>
      rw [eq_append_of_after? hx, List.append_assoc, after?_append] at h
      simp at h

theorem cut?_append_self {mark : Text} (rest : Text) :
    cut? mark (mark ++ rest) = some ([], rest) := by
  cases hs : mark ++ rest with
  | nil =>
      obtain ⟨rfl, rfl⟩ := List.append_eq_nil_iff.mp hs
      simp [cut?]
  | cons c s => rw [cut?, ← hs, after?_append]

/-- Where the first occurrence is does not depend on what follows it. -/
theorem cut?_append {mark s before rest : Text} (h : cut? mark s = some (before, rest))
    (other : Text) : cut? mark (before ++ (mark ++ other)) = some (before, other) := by
  induction s generalizing before with
  | nil =>
      obtain ⟨r, hr, hp⟩ := Option.map_eq_some_iff.mp h
      obtain ⟨rfl, rfl⟩ := Prod.mk.injEq .. ▸ hp
      exact cut?_append_self other
  | cons c s ih =>
      simp only [cut?] at h
      split at h
      · obtain ⟨rfl, rfl⟩ := Prod.mk.injEq .. ▸ Option.some.inj h
        exact cut?_append_self other
      · rename_i hnone
        obtain ⟨⟨b, r⟩, hr, hp⟩ := Option.map_eq_some_iff.mp h
        obtain ⟨rfl, rfl⟩ := Prod.mk.injEq .. ▸ hp
        rw [eq_append_of_cut? hr, ← List.append_assoc, ← List.cons_append] at hnone
        have hother := after?_append_eq_none (z := other) (by simp; omega) hnone
        rw [List.cons_append, List.append_assoc] at hother
        rw [List.cons_append, cut?, hother, ih hr]
        rfl

/-- Before its first occurrence a mark does not occur. -/
theorem cut?_before {mark s before rest : Text} (hmark : mark ≠ [])
    (h : cut? mark s = some (before, rest)) : cut? mark before = none := by
  have hempty : cut? mark [] = none := by
    cases mark with
    | nil => exact absurd rfl hmark
    | cons m mark => rfl
  induction s generalizing before with
  | nil => simp [hempty] at h
  | cons c s ih =>
      simp only [cut?] at h
      split at h
      · obtain ⟨rfl, rfl⟩ := Prod.mk.injEq .. ▸ Option.some.inj h
        exact hempty
      · rename_i hnone
        obtain ⟨⟨b, r⟩, hr, hp⟩ := Option.map_eq_some_iff.mp h
        obtain ⟨rfl, rfl⟩ := Prod.mk.injEq .. ▸ hp
        rw [eq_append_of_cut? hr, ← List.cons_append] at hnone
        rw [cut?, after?_of_append_eq_none hnone, ih hr]
        rfl

theorem cut?_append_of_not_mem {m : Char} {mark x : Text} (hx : m ∉ x) (s : Text) :
    cut? (m :: mark) (x ++ s) =
      (cut? (m :: mark) s).map fun parts => (x ++ parts.1, parts.2) := by
  induction x with
  | nil => simp
  | cons c x ih =>
      obtain ⟨hc, hx⟩ := not_or.mp (List.mem_cons.not.mp hx)
      simp [cut?, after?, hc, ih hx, Function.comp_def]

end Text

namespace Tag

/-- Where the next tag is does not depend on what follows it. -/
theorem next?_append {s before inside rest : Text} (h : next? s = some (before, inside, rest))
    (other : Text) :
    next? (before ++ (opening ++ (inside ++ (closing ++ other)))) =
      some (before, inside, other) := by
  simp only [next?, Option.bind_eq_bind, Option.bind_eq_some_iff] at h ⊢
  obtain ⟨⟨b, t⟩, hb, ⟨i, r⟩, hi, hp⟩ := h
  simp only [pure, Option.some.injEq, Prod.mk.injEq] at hp
  obtain ⟨rfl, rfl, rfl⟩ := hp
  exact ⟨_, Text.cut?_append hb _, _, Text.cut?_append hi other, rfl⟩

/-- Before the first tag there is none. -/
theorem next?_before {s before inside rest : Text}
    (h : next? s = some (before, inside, rest)) : next? before = none := by
  simp only [next?, Option.bind_eq_bind, Option.bind_eq_some_iff] at h
  obtain ⟨⟨b, t⟩, hb, ⟨i, r⟩, hi, hp⟩ := h
  simp only [pure, Option.some.injEq, Prod.mk.injEq] at hp
  obtain ⟨rfl, -, -⟩ := hp
  rw [next?, Text.cut?_before (by decide) hb]
  rfl

theorem next?_append_of_not_mem {x : Text} (hx : '\x7b' ∉ x) (s : Text) :
    next? (x ++ s) = (next? s).map fun parts => (x ++ parts.1, parts.2) := by
  unfold next?
  rw [opening, Text.cut?_append_of_not_mem hx]
  cases Text.cut? ['\x7b', '\x7b'] s with
  | none => rfl
  | some parts =>
      simp only [Option.map_some, Option.bind_eq_bind, Option.bind_some]
      cases Text.cut? closing parts.2 <;> rfl

end Tag

/-- The tags of a text from left to right. -/
def Text.tags (s : Text) : List Tag :=
  match _h : Tag.next? s with
  | none => []
  | some (_, inside, rest) => Tag.ofText inside :: Text.tags rest
termination_by s.length
decreasing_by exact Tag.length_of_next? _h

namespace Text

theorem tags_of_next?_eq_none {s : Text} (h : Tag.next? s = none) : s.tags = [] := by
  rw [tags]
  split
  · rfl
  · rename_i hs
    rw [h] at hs
    simp at hs

theorem tags_of_next? {s before inside rest : Text}
    (h : Tag.next? s = some (before, inside, rest)) :
    s.tags = Tag.ofText inside :: rest.tags := by
  rw [tags]
  split
  · rename_i hs
    rw [h] at hs
    simp at hs
  · rename_i hs
    rw [h] at hs
    obtain ⟨-, rfl, rfl⟩ := by simpa using hs
    rfl

@[simp] theorem tags_nil : tags [] = [] :=
  tags_of_next?_eq_none (by decide)

/-- A tag takes at least four characters. -/
theorem length_tags_le (s : Text) : 4 * s.tags.length ≤ s.length := by
  fun_induction tags s with
  | case1 => simp
  | case2 s before inside rest hs ih =>
      have hlen := congrArg List.length (Tag.eq_append_of_next? hs)
      simp only [List.length_append, Tag.opening, Tag.closing, List.length_cons,
        List.length_nil] at hlen
      rw [List.length_cons]
      omega

theorem tags_append_of_not_mem {x : Text} (hx : '\x7b' ∉ x) (s : Text) :
    (x ++ s).tags = s.tags := by
  cases hs : Tag.next? s with
  | none =>
      have hnone : Tag.next? (x ++ s) = none := by
        rw [Tag.next?_append_of_not_mem hx, hs, Option.map_none]
      rw [tags_of_next?_eq_none hs, tags_of_next?_eq_none hnone]
  | some parts =>
      have hsome : Tag.next? (x ++ s) = some (x ++ parts.1, parts.2.1, parts.2.2) := by
        rw [Tag.next?_append_of_not_mem hx, hs, Option.map_some]
      rw [tags_of_next? hs, tags_of_next? hsome]

theorem tags_replace {old new : Text} (h : Inert old new) (s : Text) :
    (replace old new s).tags = s.tags.map (Tag.map (replace old new)) := by
  fun_induction tags s with
  | case1 s hs =>
      apply tags_of_next?_eq_none
      rw [h.next?_replace, hs, Option.map_none]
  | case2 s before inside rest hs ih =>
      have hnext := h.next?_replace s
      rw [hs, Option.map_some] at hnext
      rw [tags_of_next? hnext, h.ofText_replace, ih, List.map_cons]

end Text

namespace Node

/-! ## Grouping -/

theorem tags_of_findClose? {name s inner rest : Text}
    (h : findClose? name s = some (inner, rest)) :
    s.tags = inner.tags ++ Tag.close name :: rest.tags := by
  fun_induction findClose? name s generalizing inner with
  | case1 => simp at h
  | case2 s before inside r hs hc =>
      obtain ⟨rfl, rfl⟩ := Prod.mk.injEq .. ▸ Option.some.inj h
      rw [Text.tags_of_next? hs, hc, Text.tags_of_next?_eq_none (Tag.next?_before hs),
        List.nil_append]
  | case3 s before inside r hs hc ih =>
      obtain ⟨⟨i, t⟩, ht, hp⟩ := Option.map_eq_some_iff.mp h
      obtain ⟨rfl, rfl⟩ := Prod.mk.injEq .. ▸ hp
      have hnext := Tag.next?_append hs i
      simp only [List.append_assoc] at hnext ⊢
      rw [Text.tags_of_next? hs, Text.tags_of_next? hnext, ih ht, List.cons_append]

/-- The tags that a node was made of. -/
def tags : Node → List Tag
  | .literal _ => []
  | .variable name => [.variable name]
  | .reference target _ => [.reference target]
  | .block name body closed =>
      .openBlock name :: (body.tags ++ if closed then [.close name] else [])
  | .inlinePartial name body closed =>
      .openInline name :: (body.tags ++ if closed then [.close "inline".toList] else [])
  | .strayClose name => [.close name]

theorem tags_body (name s : Text) :
    s.tags = (body name s).1.tags ++
      ((if (body name s).2.2 then [Tag.close name] else []) ++ (body name s).2.1.tags) := by
  unfold body
  split
  · rename_i hb
    simpa using tags_of_findClose? hb
  · simp

/-- The end of a line that is left out has no tags in it. -/
theorem exists_eq_append_of_lineRest? {s rest : Text} (h : lineRest? s = some rest) :
    ∃ x, '\x7b' ∉ x ∧ s = x ++ rest := by
  unfold lineRest? at h
  split at h
  · rename_i hblank
    obtain rfl := Option.some.inj h
    have hbrace : '\x7b' ∉ s.takeWhile (· != '\n') := by
      intro hm
      have hb := List.all_eq_true.mp hblank _ hm
      exact absurd hb (by decide)
    have hsplit := List.takeWhile_append_dropWhile (p := (· != '\n')) (l := s)
    cases hs : s.dropWhile (· != '\n') with
    | nil =>
        rw [hs, List.append_nil] at hsplit
        rw [hsplit] at hbrace
        exact ⟨s, hbrace, by simp⟩
    | cons c t =>
        have hc := List.head?_dropWhile_not (· != '\n') s
        rw [hs] at hc
        obtain rfl : c = '\n' := by simpa using hc
        refine ⟨s.takeWhile (· != '\n') ++ ['\n'], by simpa using hbrace, ?_⟩
        rw [List.append_assoc, List.singleton_append, List.tail_cons, ← hs, hsplit]
  · simp at h

theorem tags_of_lineRest? {s rest : Text} (h : lineRest? s = some rest) : s.tags = rest.tags := by
  obtain ⟨x, hx, rfl⟩ := exists_eq_append_of_lineRest? h
  exact Text.tags_append_of_not_mem hx rest

theorem tags_standalone (atStart : Bool) (before rest : Text) :
    (standalone atStart before rest).2.2.tags = rest.tags := by
  unfold standalone
  split
  · rename_i hr
    exact (tags_of_lineRest? hr).symm
  · rfl

/-- The nodes of a text hold its tags in order. -/
theorem tags_scan (atStart : Bool) (s : Text) : (scan atStart s).flatMap tags = s.tags := by
  fun_induction scan atStart s with
  | case1 atStart s hs => simp [tags, Text.tags_of_next?_eq_none hs]
  | case2 atStart s before inside rest hs target ht line ih =>
      have hrest : line.2.2.tags = rest.tags := tags_standalone atStart before rest
      simp [tags, ih, hrest, Text.tags_of_next? hs, ht]
  | case3 atStart s before inside rest hs name ht parts ih =>
      simp [tags, ih, Text.tags_of_next? hs, ht, tags_body name rest, parts]
  | case4 atStart s before inside rest hs name ht parts ih =>
      rw [Text.tags_of_next? hs, ht, tags_body "inline".toList rest, List.flatMap_cons,
        List.flatMap_cons, ih]
      simp only [tags, List.nil_append, List.cons_append, List.append_assoc, parts]
  | case5 atStart s before inside rest hs name ht ih =>
      simp [tags, ih, Text.tags_of_next? hs, ht]
  | case6 atStart s before inside rest hs name ht ih =>
      simp [tags, ih, Text.tags_of_next? hs, ht]

end Node

theorem Text.tags_nodes (s : Text) : s.nodes.flatMap Node.tags = s.tags :=
  Node.tags_scan true s

theorem Node.tags_subset {n : Node} {s : Text} (hn : n ∈ s.nodes) : n.tags ⊆ s.tags := by
  intro tag htag
  rw [← Text.tags_nodes]
  exact List.mem_flatMap.mpr ⟨n, hn, htag⟩

end Inlay
