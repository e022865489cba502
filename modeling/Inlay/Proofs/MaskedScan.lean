import Inlay.Proofs.MarkRemoval
import Inlay.Proofs.Margins

/-!
# Masking along the scan of a template

Where a replacement leaves tags alone and keeps different names different,
it is made in the texts of the nodes: bodies of blocks and of inline
definitions are found alike. So the nodes of a masked text are the masked
nodes of the text, if the text has no bells.

In code some keywords are masked and some are not. Unmasking finds the masked
ones and nothing else, and no bell in such code starts the mark of a call.
-/

namespace Inlay

/-! ## The texts of nodes -/

namespace Reference

/-- The text that a reference was made of. -/
def text : Reference → Text
  | .named name => name
  | .dynamic expr => expr
  | .block => []

end Reference

namespace Tag

def text : Tag → Text
  | .reference target => target.text
  | .openBlock name => name
  | .openInline name => name
  | .close name => name
  | .variable name => name

theorem parenthesized?_isInfix {s expr : Text} (h : parenthesized? s = some expr) : expr <:+: s := by
  unfold parenthesized? at h
  split at h
  · rename_i c s
    split at h
    · obtain rfl := Option.some.inj h
      exact (List.dropLast_prefix s).isInfix.trans (List.suffix_cons _ s).isInfix
    · cases h
  · cases h

theorem text_referenceOf_isInfix (s : Text) : (referenceOf s).text <:+: s := by
  unfold referenceOf
  split
  · rename_i expr hexpr
    exact (Text.trim_isInfix expr).trans ((parenthesized?_isInfix hexpr).trans (Text.trim_isInfix s))
  · split
    · exact List.nil_infix
    · exact Text.firstWord_isInfix s

/-- The text of a tag stands between its braces. -/
theorem text_isInfix (inside : Text) : (ofText inside).text <:+: inside := by
  refine List.IsInfix.trans ?_ (Text.trim_isInfix inside)
  unfold ofText ofInside
  split
  · rename_i s hs
    exact (Text.firstWord_isInfix s).trans (after?_isSuffix hs).isInfix
  · split
    · rename_i s hs
      exact (text_referenceOf_isInfix s).trans (after?_isSuffix hs).isInfix
    · split
      · rename_i hname
        exact isInfix_of_inlineName? hname
      · split
        · rename_i s hs
          exact (Text.trim_isInfix s).trans (after?_isSuffix hs).isInfix
        · exact List.infix_rfl

end Tag

namespace Node

/-- The literal text, the names and the bodies of a node. -/
def texts : Node → List Text
  | .literal text => [text]
  | .variable name => [name]
  | .reference target _ => [target.text]
  | .block name body _ => [name, body]
  | .inlinePartial name body _ => [name, body]
  | .strayClose name => [name]

theorem scan_of_next? {s before inside rest : Text} (h : Tag.next? s = some (before, inside, rest))
    (atStart : Bool) :
    scan atStart s =
      match Tag.ofText inside with
      | .reference target =>
          let line := standalone atStart before rest
          .literal line.1 :: .reference target line.2.1 :: scan line.2.1.isSome line.2.2
      | .openBlock name =>
          let parts := body name rest
          .literal before :: .block name parts.1 parts.2.2 :: scan false parts.2.1
      | .openInline name =>
          let parts := body "inline".toList rest
          .literal before :: .inlinePartial name parts.1 parts.2.2 :: scan false parts.2.1
      | .close name => .literal before :: .strayClose name :: scan false rest
      | .variable name => .literal before :: .variable name :: scan false rest := by
  rw [scan]
  split
  · rename_i hs
    rw [h] at hs
    cases hs
  · rename_i hs
    rw [h] at hs
    obtain ⟨rfl, rfl, rfl⟩ := by simpa using hs
    rfl

theorem subset_of_next? {s before inside rest : Text} (h : Tag.next? s = some (before, inside, rest)) :
    before ⊆ s ∧ (Tag.ofText inside).text ⊆ s ∧ rest ⊆ s := by
  refine ⟨?_, ?_, (Tag.rest_isSuffix h).subset⟩
  · rw [Tag.eq_append_of_next? h]
    exact List.subset_append_left ..
  · exact ((Tag.text_isInfix inside).trans (Tag.inside_isInfix h)).subset

theorem texts_subset_cons {s before : Text} {n : Node} {ns : List Node} (hbefore : before ⊆ s)
    (hn : ∀ t ∈ n.texts, t ⊆ s) (hns : ∀ m ∈ ns, ∀ t ∈ m.texts, t ⊆ s) :
    ∀ m ∈ .literal before :: n :: ns, ∀ t ∈ m.texts, t ⊆ s :=
  List.forall_mem_cons.mpr ⟨List.forall_mem_singleton.mpr hbefore, List.forall_mem_cons.mpr ⟨hn, hns⟩⟩

/-- No character is in a node that was not in the text. -/
theorem texts_subset (atStart : Bool) (s : Text) : ∀ n ∈ scan atStart s, ∀ t ∈ n.texts, t ⊆ s := by
  have hbody : ∀ name rest, (body name rest).1 ⊆ rest ∧ (body name rest).2.1 ⊆ rest :=
    fun name rest => ⟨(body_isPrefix name rest).subset, (body_rest_isSuffix name rest).subset⟩
  fun_induction scan atStart s with
  | case1 atStart s hs =>
      exact List.forall_mem_singleton.mpr (List.forall_mem_singleton.mpr (List.Subset.refl s))
  | case2 atStart s before inside rest hs target ht line ih =>
      obtain ⟨hbefore, htext, hrest⟩ := subset_of_next? hs
      rw [ht] at htext
      have hkept : line.1 ⊆ before := standalone_subset atStart before rest
      have hline : line.2.2 ⊆ rest := (standalone_rest_isSuffix atStart before rest).subset
      apply texts_subset_cons (List.Subset.trans hkept hbefore)
      · exact List.forall_mem_singleton.mpr htext
      · exact fun n hn t ht => List.Subset.trans (ih n hn t ht) (List.Subset.trans hline hrest)
  | case3 atStart s before inside rest hs name ht parts ih =>
      obtain ⟨hbefore, htext, hrest⟩ := subset_of_next? hs
      obtain ⟨hinner, hafter⟩ := hbody name rest
      rw [ht] at htext
      apply texts_subset_cons hbefore
      · refine List.forall_mem_cons.mpr ⟨htext, List.forall_mem_singleton.mpr ?_⟩
        exact List.Subset.trans hinner hrest
      · exact fun n hn t ht => List.Subset.trans (ih n hn t ht) (List.Subset.trans hafter hrest)
  | case4 atStart s before inside rest hs name ht parts ih =>
      obtain ⟨hbefore, htext, hrest⟩ := subset_of_next? hs
      obtain ⟨hinner, hafter⟩ := hbody "inline".toList rest
      rw [ht] at htext
      apply texts_subset_cons hbefore
      · refine List.forall_mem_cons.mpr ⟨htext, List.forall_mem_singleton.mpr ?_⟩
        exact List.Subset.trans hinner hrest
      · exact fun n hn t ht => List.Subset.trans (ih n hn t ht) (List.Subset.trans hafter hrest)
  | case5 atStart s before inside rest hs name ht ih =>
      obtain ⟨hbefore, htext, hrest⟩ := subset_of_next? hs
      rw [ht] at htext
      apply texts_subset_cons hbefore
      · exact List.forall_mem_singleton.mpr htext
      · exact fun n hn t ht => List.Subset.trans (ih n hn t ht) hrest
  | case6 atStart s before inside rest hs name ht ih =>
      obtain ⟨hbefore, htext, hrest⟩ := subset_of_next? hs
      rw [ht] at htext
      apply texts_subset_cons hbefore
      · exact List.forall_mem_singleton.mpr htext
      · exact fun n hn t ht => List.Subset.trans (ih n hn t ht) hrest

theorem findClose?_of_none {s : Text} (h : Tag.next? s = none) (name : Text) :
    findClose? name s = none := by
  rw [findClose?]
  split
  · rfl
  · rename_i hs
    rw [h] at hs
    cases hs

theorem findClose?_of_next? {s before inside rest : Text}
    (h : Tag.next? s = some (before, inside, rest)) (name : Text) :
    findClose? name s =
      if Tag.ofText inside = .close name then some (before, rest)
      else (findClose? name rest).map fun parts =>
        (before ++ Tag.opening ++ inside ++ Tag.closing ++ parts.1, parts.2) := by
  rw [findClose?]
  split
  · rename_i hs
    rw [h] at hs
    cases hs
  · rename_i hs
    rw [h] at hs
    obtain ⟨rfl, rfl, rfl⟩ := by simpa using hs
    rfl

end Node

/-! ## Nodes of replaced texts -/

namespace Inert

open Text

variable {old new : Text} (h : Inert old new)

include h

/-- What stands before, in and after a tag is replaced apart. -/
theorem replace_around_tag (before inside rest : Text) :
    replace old new (before ++ Tag.opening ++ inside ++ Tag.closing ++ rest) =
      replace old new before ++ Tag.opening ++ replace old new inside ++ Tag.closing ++
        replace old new rest := by
  have hcut : ∀ {c : Char}, isTagMark c = true → ∀ s t : Text,
      replace old new (s ++ (c :: c :: t)) = replace old new s ++ (c :: c :: replace old new t) := by
    intro c hc s t
    rw [replace_append_cons h.old_ne (h.not_mem_old hc), h.replace_cons hc]
  have hopen := hcut (c := '\x7b') (by decide) before (inside ++ (Tag.closing ++ rest))
  have hclose := hcut (c := '\x7d') (by decide) inside rest
  simp only [Tag.opening, Tag.closing, List.append_assoc, List.cons_append, List.nil_append]
    at hopen hclose ⊢
  rw [hopen, hclose]

theorem replace_inline : replace old new "inline".toList = "inline".toList := by
  obtain ⟨a, x, rfl⟩ := List.exists_cons_of_ne_nil h.old_ne
  have ha : a ∉ "inline".toList := by
    intro hmem
    exact h.old_head a rfl (List.mem_append_left _ (List.mem_of_mem_drop (i := 2) hmem))
  have hkeep : replace (a :: x) new ("inline".toList ++ []) =
      "inline".toList ++ replace (a :: x) new [] :=
    replace_append_of_head ha []
  rwa [h.replace_nil, List.append_nil] at hkeep

variable {p : Char → Prop} (hdistinct : ∀ ⦃s t : Text⦄, (∀ c ∈ s, p c) → (∀ c ∈ t, p c) →
  replace old new s = replace old new t → s = t)

include hdistinct

theorem ofText_replace_eq_close_iff {inside name : Text} (hinside : ∀ c ∈ inside, p c)
    (hname : ∀ c ∈ name, p c) :
    Tag.ofText (replace old new inside) = .close (replace old new name) ↔
      Tag.ofText inside = .close name := by
  have htext : ∀ c ∈ (Tag.ofText inside).text, p c :=
    fun c hc => hinside c ((Tag.text_isInfix inside).subset hc)
  rw [h.ofText_replace]
  cases htag : Tag.ofText inside with
  | close other =>
      rw [htag] at htext
      simp only [Tag.map, Tag.close.injEq]
      exact ⟨fun heq => hdistinct htext hname heq, congrArg _⟩
  | _ => simp [Tag.map]

theorem findClose?_replace {name s : Text} (hname : ∀ c ∈ name, p c) (hs : ∀ c ∈ s, p c) :
    Node.findClose? (replace old new name) (replace old new s) =
      (Node.findClose? name s).map fun parts =>
        (replace old new parts.1, replace old new parts.2) := by
  fun_induction Node.findClose? name s with
  | case1 s hnext =>
      apply Node.findClose?_of_none
      rw [h.next?_replace, hnext, Option.map_none]
  | case2 s before inside rest hnext hclose =>
      have hreplaced := h.next?_replace s
      rw [hnext, Option.map_some] at hreplaced
      have hinside : ∀ c ∈ inside, p c := fun c hc => hs c ((Tag.inside_isInfix hnext).subset hc)
      rw [Node.findClose?_of_next? hreplaced,
        if_pos ((h.ofText_replace_eq_close_iff hdistinct hinside hname).mpr hclose)]
      rfl
  | case3 s before inside rest hnext hclose ih =>
      have hreplaced := h.next?_replace s
      rw [hnext, Option.map_some] at hreplaced
      have hinside : ∀ c ∈ inside, p c := fun c hc => hs c ((Tag.inside_isInfix hnext).subset hc)
      have hrest : ∀ c ∈ rest, p c := fun c hc => hs c ((Tag.rest_isSuffix hnext).subset hc)
      rw [Node.findClose?_of_next? hreplaced,
        if_neg ((h.ofText_replace_eq_close_iff hdistinct hinside hname).not.mpr hclose), ih hrest]
      cases Node.findClose? name rest with
      | none => rfl
      | some parts =>
          simp only [Option.map_some]
          rw [h.replace_around_tag]

theorem body_replace {name s : Text} (hname : ∀ c ∈ name, p c) (hs : ∀ c ∈ s, p c) :
    Node.body (replace old new name) (replace old new s) =
      (replace old new (Node.body name s).1, replace old new (Node.body name s).2.1,
        (Node.body name s).2.2) := by
  unfold Node.body
  rw [h.findClose?_replace hdistinct hname hs]
  cases Node.findClose? name s with
  | none => simp [h.replace_nil]
  | some parts => rfl

/-- The scan commutes with a replacement that keeps different names different. -/
theorem scan_replace_of_distinct (hinline : ∀ c ∈ "inline".toList, p c) (atStart : Bool) {s : Text}
    (hs : ∀ c ∈ s, p c) :
    Node.scan atStart (replace old new s) =
      (Node.scan atStart s).map (Node.map (replace old new)) := by
  fun_induction Node.scan atStart s with
  | case1 atStart s hnext =>
      have hreplaced : Tag.next? (replace old new s) = none := by
        rw [h.next?_replace, hnext, Option.map_none]
      rw [Node.scan_of_none hreplaced]
      rfl
  | case2 atStart s before inside rest hnext target htag line ih =>
      have hreplaced := h.next?_replace s
      rw [hnext, Option.map_some] at hreplaced
      obtain ⟨-, -, hrest⟩ := Node.subset_of_next? hnext
      have hline : line.2.2 ⊆ rest := (Node.standalone_rest_isSuffix atStart before rest).subset
      have hscan := ih fun c hc => hs c (hrest (hline hc))
      rw [Node.scan_of_next? hreplaced, h.ofText_replace, htag]
      simp only [Tag.map, h.standalone_replace]
      rw [hscan]
      rfl
  | case3 atStart s before inside rest hnext name htag parts ih =>
      have hreplaced := h.next?_replace s
      rw [hnext, Option.map_some] at hreplaced
      obtain ⟨-, htext, hrest⟩ := Node.subset_of_next? hnext
      rw [htag] at htext
      have hafter : parts.2.1 ⊆ rest := (Node.body_rest_isSuffix name rest).subset
      have hscan := ih fun c hc => hs c (hrest (hafter hc))
      have hname : ∀ c ∈ name, p c := fun c hc => hs c (htext hc)
      have hbody := h.body_replace hdistinct hname fun c hc => hs c (hrest hc)
      rw [Node.scan_of_next? hreplaced, h.ofText_replace, htag]
      simp only [Tag.map, hbody]
      rw [hscan]
      rfl
  | case4 atStart s before inside rest hnext name htag parts ih =>
      have hreplaced := h.next?_replace s
      rw [hnext, Option.map_some] at hreplaced
      obtain ⟨-, -, hrest⟩ := Node.subset_of_next? hnext
      have hafter : parts.2.1 ⊆ rest := (Node.body_rest_isSuffix "inline".toList rest).subset
      have hscan := ih fun c hc => hs c (hrest (hafter hc))
      have hbody := h.body_replace hdistinct hinline fun c hc => hs c (hrest hc)
      rw [h.replace_inline] at hbody
      rw [Node.scan_of_next? hreplaced, h.ofText_replace, htag]
      simp only [Tag.map, hbody]
      rw [hscan]
      rfl
  | case5 atStart s before inside rest hnext name htag ih =>
      have hreplaced := h.next?_replace s
      rw [hnext, Option.map_some] at hreplaced
      obtain ⟨-, -, hrest⟩ := Node.subset_of_next? hnext
      rw [Node.scan_of_next? hreplaced, h.ofText_replace, htag]
      simp only [Tag.map]
      rw [ih fun c hc => hs c (hrest hc)]
      rfl
  | case6 atStart s before inside rest hnext name htag ih =>
      have hreplaced := h.next?_replace s
      rw [hnext, Option.map_some] at hreplaced
      obtain ⟨-, -, hrest⟩ := Node.subset_of_next? hnext
      rw [Node.scan_of_next? hreplaced, h.ofText_replace, htag]
      simp only [Tag.map]
      rw [ih fun c hc => hs c (hrest hc)]
      rfl

end Inert

/-! ## Nodes of masked texts -/

namespace Keyword

open Text

theorem mask_mask (s : Text) : mask (mask s) = mask s :=
  mask_of_not_isInfix (not_word_infix_mask s)

theorem nodes_mask {s : Text} (hs : bell ∉ s) : (mask s).nodes = s.nodes.map (Node.map mask) := by
  have hdistinct : ∀ ⦃s t : Text⦄, (∀ c ∈ s, c ≠ bell) → (∀ c ∈ t, c ≠ bell) →
      mask s = mask t → s = t := by
    intro s t hs ht heq
    rw [← unmask_mask fun hmem => hs _ hmem rfl, heq, unmask_mask fun hmem => ht _ hmem rfl]
  refine inert_mask.scan_replace_of_distinct hdistinct (by decide) true fun c hc => ?_
  rintro rfl
  exact hs hc

/-! ## Code with masked keywords -/

/-- The first text is the second with some of its keywords masked. -/
inductive Veils : Text → Text → Prop
  | nil : Veils [] []
  | char (c) {u w} : Veils u w → Veils (c :: u) (c :: w)
  | keyword {u w} : Veils u w → Veils (sentinel ++ u) (word ++ w)

namespace Veils

theorem refl (s : Text) : Veils s s := by
  induction s with
  | nil => exact .nil
  | cons c s ih => exact .char c ih

theorem mask (s : Text) : Veils (mask s) s := by
  induction s using replaceInduction word_ne_nil with
  | nil =>
      rw [mask_nil]
      exact .nil
  | hit s ih =>
      rw [mask_word_append]
      exact .keyword ih
  | miss c s hc ih =>
      rw [mask_cons hc]
      exact .char c ih

theorem append {u w u' w' : Text} (h : Veils u w) (h' : Veils u' w') : Veils (u ++ u') (w ++ w') := by
  induction h with
  | nil => exact h'
  | char c _ ih => exact .char c ih
  | keyword _ ih =>
      rw [List.append_assoc, List.append_assoc]
      exact .keyword ih

theorem around {u w : Text} (h : Veils u w) (a b : Text) : Veils (a ++ (u ++ b)) (a ++ (w ++ b)) :=
  (refl a).append (h.append (refl b))

theorem quote {u w : Text} (h : Veils u w) : Veils u.quote w.quote := by
  have hword : word.quote = word := by decide
  have hsentinel : sentinel.quote = sentinel := by decide
  induction h with
  | nil => exact .nil
  | @char c u w _ ih =>
      rw [← List.singleton_append, quote_append, ← List.singleton_append (l := w), quote_append]
      exact (refl _).append ih
  | keyword _ ih =>
      rw [quote_append, quote_append, hword, hsentinel]
      exact .keyword ih

theorem after_eq {u w : Text} (h : Veils u w) (m : Margin) : m.after u = m.after w := by
  induction h generalizing m with
  | nil => rfl
  | char c _ ih => exact ih _
  | keyword _ ih =>
      have hword : m.after word = .paid := rfl
      have hsentinel : m.after sentinel = .paid := rfl
      rw [Margin.after_append, Margin.after_append, hword, hsentinel, ih]

theorem lead {u w : Text} (h : Veils u w) (x : Text) (m : Margin) :
    Veils (lead x m u) (lead x m w) := by
  induction h generalizing m with
  | nil => exact .nil
  | char c _ ih => exact (refl (m.owed x)).append (.char c (ih _))
  | keyword _ ih =>
      obtain ⟨hword, hafter⟩ := lead_of_line word_ne_nil (by decide) x m
      obtain ⟨hsentinel, hafter'⟩ := lead_of_line sentinel_ne_nil (by decide) x m
      rw [lead_append, hsentinel, hafter', lead_append, hword, hafter, List.append_assoc,
        List.append_assoc]
      exact (refl (m.owed x)).append (.keyword (ih _))

/-- The sentinel starts nowhere but where a keyword was masked. -/
theorem after?_sentinel_cons {u w : Text} (h : Veils u w) (hw : bell ∉ w) (c : Char) :
    after? sentinel (c :: u) = none := by
  have hbell : ∀ {u w : Text}, Veils u w → bell ∉ w → ∀ m, after? (bell :: m) u = none := by
    intro u w h hw m
    cases h with
    | nil => rfl
    | char d _ =>
        have hne : bell ≠ d := fun e => hw (by simp [e])
        rw [after?, if_neg hne]
    | keyword _ => rfl
  have hsecond : ∀ m, after? ('!' :: bell :: m) u = none := by
    intro m
    cases h with
    | nil => rfl
    | char d h =>
        rw [after?]
        split
        · exact hbell h (fun hmem => hw (List.mem_cons_of_mem _ hmem)) m
        · rfl
    | keyword _ => rfl
  have hsentinel : sentinel = '!' :: '!' :: bell :: "FuNcTiOn\x07!!".toList := rfl
  rw [hsentinel, after?]
  split
  · exact hsecond _
  · rfl

theorem unmask_eq {u w : Text} (h : Veils u w) (hw : bell ∉ w) : unmask u = w := by
  induction h with
  | nil => exact unmask_nil
  | char c h ih =>
      have hrest := fun hmem => hw (List.mem_cons_of_mem c hmem)
      rw [unmask_cons (h.after?_sentinel_cons hrest c), ih hrest]
  | keyword _ ih =>
      rw [unmask_sentinel_append, ih fun hmem => hw (List.mem_append_right _ hmem)]

theorem unmarked_sentinel : Callable.Unmarked sentinel := by
  have hfirst : Callable.Unmarked [bell, 'F'] := parted_pair (by decide) (by decide)
  have hsecond : Callable.Unmarked [bell, '!'] := parted_pair (by decide) (by decide)
  have hend : Callable.Unmarked ("uNcTiOn".toList ++ ([bell, '!'] ++ ['!'])) :=
    (parted_of_not_mem (by decide)).append (hsecond.append (parted_of_not_mem (by decide)))
  have hstart : Callable.Unmarked ("!!".toList ++ [bell, 'F']) :=
    (parted_of_not_mem (by decide)).append hfirst
  exact hstart.append hend

/-- Masking writes no mark of a call. -/
theorem unmarked {u w : Text} (h : Veils u w) (hw : bell ∉ w) : Callable.Unmarked u := by
  induction h with
  | nil => exact parted_of_not_mem List.not_mem_nil
  | @char c u w _ ih =>
      obtain ⟨hc, hw⟩ := not_or.mp (List.mem_cons.not.mp hw)
      rw [← List.singleton_append]
      exact Parted.append (parted_of_not_mem (by simpa using hc)) (ih hw)
  | keyword _ ih =>
      exact unmarked_sentinel.append (ih fun hmem => hw (List.mem_append_right _ hmem))

end Veils

end Keyword

end Inlay
