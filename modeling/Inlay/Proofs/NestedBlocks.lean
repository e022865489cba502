import Inlay.Proofs.DirectCalls
import Inlay.Proofs.MaskedScan

/-!
# Blocks inside each other

The blocks of a text are nested if every closing tag ends the innermost block
that is open there, and no block stays open. The body of a block is looked
for by the name of its closing tag alone. So a block gets its own body exactly
if none inside it has a closing tag of the same name, and where one has, a
closing tag is left over.
-/

namespace Inlay

namespace Tag

/-! ## Closing names that are awaited -/

/-- The closing names that are awaited after a tag, the one of the innermost block first. There are
none if the tag closes another block than the innermost one. -/
def follow? (awaited : List Text) : Tag → Option (List Text)
  | .close name => if awaited.head? = some name then some awaited.tail else none
  | tag => some (tag.closedBy?.toList ++ awaited)

/-- The closing names that are awaited after the tags. -/
def pending? (awaited : List Text) (tags : List Tag) : Option (List Text) :=
  tags.foldlM follow? awaited

variable {tag : Tag} {tags : List Tag} {name : Text} {awaited next rest : List Text}

theorem follow?_close : follow? awaited (.close name) = some next ↔ awaited = name :: next := by
  unfold follow?
  cases awaited with
  | nil => simp
  | cons top outer =>
      simp only [List.head?_cons, Option.some.injEq, List.tail_cons, Option.ite_none_right_eq_some,
        List.cons.injEq]

theorem follow?_of_ne_close (h : ∀ name, tag ≠ .close name) :
    follow? awaited tag = some (tag.closedBy?.toList ++ awaited) := by
  cases tag with
  | close name => exact absurd rfl (h name)
  | _ => rfl

/-- A tag closes the innermost block, or it opens one, or it is none of both. -/
theorem follow?_eq_some (h : follow? awaited tag = some next) :
    (∃ name, tag = .close name ∧ awaited = name :: next) ∨
      (∀ name, tag ≠ .close name) ∧ next = tag.closedBy?.toList ++ awaited := by
  cases tag with
  | close name => exact .inl ⟨name, rfl, follow?_close.mp h⟩
  | _ => exact .inr ⟨by simp, (Option.some.inj h).symm⟩

theorem pending?_nil : pending? awaited [] = some awaited := rfl

theorem pending?_cons : pending? awaited (tag :: tags) = some rest ↔
    ∃ next, follow? awaited tag = some next ∧ pending? next tags = some rest := by
  unfold pending?
  rw [List.foldlM_cons]
  exact Option.bind_eq_some_iff

theorem pending?_append {others : List Tag} : pending? awaited (tags ++ others) = some rest ↔
    ∃ next, pending? awaited tags = some next ∧ pending? next others = some rest := by
  unfold pending?
  rw [List.foldlM_append]
  exact Option.bind_eq_some_iff

/-- Blocks further out are not touched. -/
theorem follow?_append (h : follow? awaited tag = some next) (outer : List Text) :
    follow? (awaited ++ outer) tag = some (next ++ outer) := by
  rcases follow?_eq_some h with ⟨name, rfl, rfl⟩ | ⟨hclose, rfl⟩
  · exact follow?_close.mpr rfl
  · rw [follow?_of_ne_close hclose, List.append_assoc]

theorem pending?_append_outer (h : pending? awaited tags = some rest) (outer : List Text) :
    pending? (awaited ++ outer) tags = some (rest ++ outer) := by
  induction tags generalizing awaited with
  | nil =>
      obtain rfl := Option.some.inj h
      rfl
  | cons tag tags ih =>
      obtain ⟨next, hnext, hrest⟩ := pending?_cons.mp h
      exact pending?_cons.mpr ⟨_, follow?_append hnext outer, ih hrest⟩

/-- What is awaited stays so until it is closed. -/
theorem mem_or_close_mem (h : pending? awaited tags = some rest) (hname : name ∈ awaited) :
    name ∈ rest ∨ .close name ∈ tags := by
  induction tags generalizing awaited with
  | nil =>
      obtain rfl := Option.some.inj h
      exact .inl hname
  | cons tag tags ih =>
      obtain ⟨next, hnext, hrest⟩ := pending?_cons.mp h
      rcases follow?_eq_some hnext with ⟨top, rfl, rfl⟩ | ⟨-, rfl⟩
      · rcases List.mem_cons.mp hname with rfl | hname
        · exact .inr List.mem_cons_self
        · exact (ih hrest hname).imp_right (List.mem_cons_of_mem _)
      · exact (ih hrest (List.mem_append_right _ hname)).imp_right (List.mem_cons_of_mem _)

/-- What is closed was awaited, or is the closing name of a block among the tags. -/
theorem mem_or_exists_closedBy? (h : pending? awaited tags = some rest)
    (hclose : .close name ∈ tags) : name ∈ awaited ∨ ∃ tag ∈ tags, tag.closedBy? = some name := by
  induction tags generalizing awaited with
  | nil => cases hclose
  | cons tag tags ih =>
      obtain ⟨next, hnext, hrest⟩ := pending?_cons.mp h
      rcases follow?_eq_some hnext with ⟨top, rfl, rfl⟩ | ⟨hnot, rfl⟩
      · rcases List.mem_cons.mp hclose with heq | hclose
        · exact .inl (Tag.close.inj heq ▸ List.mem_cons_self)
        · rcases ih hrest hclose with hmem | ⟨other, hmem, hother⟩
          · exact .inl (List.mem_cons_of_mem _ hmem)
          · exact .inr ⟨other, List.mem_cons_of_mem _ hmem, hother⟩
      · have hclose := (List.mem_cons.mp hclose).resolve_left (hnot name).symm
        rcases ih hrest hclose with hmem | ⟨other, hmem, hother⟩
        · rcases List.mem_append.mp hmem with hmem | hmem
          · exact .inr ⟨tag, List.mem_cons_self, Option.mem_toList.mp hmem⟩
          · exact .inl hmem
        · exact .inr ⟨other, List.mem_cons_of_mem _ hmem, hother⟩

/-- Nested tags close a name exactly if one of them opens a block of this closing name. -/
theorem close_mem_iff (h : pending? [] tags = some []) :
    .close name ∈ tags ↔ ∃ tag ∈ tags, tag.closedBy? = some name := by
  constructor
  · intro hclose
    exact (mem_or_exists_closedBy? h hclose).resolve_left List.not_mem_nil
  · rintro ⟨tag, hmem, hname⟩
    obtain ⟨before, after, rfl⟩ := List.append_of_mem hmem
    obtain ⟨awaited, -, hafter⟩ := pending?_append.mp h
    obtain ⟨next, hnext, hafter⟩ := pending?_cons.mp hafter
    have hopens : name ∈ next := by
      rcases follow?_eq_some hnext with ⟨other, rfl, -⟩ | ⟨-, rfl⟩
      · cases hname
      · exact List.mem_append_left _ (Option.mem_toList.mpr hname)
    have hclose := (mem_or_close_mem hafter hopens).resolve_left List.not_mem_nil
    exact List.mem_append_right _ (List.mem_cons_of_mem _ hclose)

/-- The first closing tag of a name stands before any other one. -/
theorem exists_eq_append_of_first {own after first behind : List Tag}
    (h : own ++ tag :: after = first ++ tag :: behind) (hfirst : tag ∉ first) (hmem : tag ∈ own) :
    ∃ more, own = first ++ tag :: more := by
  rcases List.append_eq_append_iff.mp h with ⟨more, hleft, -⟩ | ⟨more, hleft, hright⟩
  · rw [hleft] at hfirst
    exact absurd (List.mem_append_left _ hmem) hfirst
  · cases more with
    | nil =>
        rw [List.append_nil] at hleft
        exact absurd (hleft ▸ hmem) hfirst
    | cons other more =>
        obtain ⟨rfl, -⟩ := List.cons.injEq .. ▸ hright
        exact ⟨more, hleft⟩

/-- If a closing tag of the name ends a block inside of a block, the tags before it are not nested,
and the outer block stays open behind it. -/
theorem left_over_of_first {first more behind : List Tag} {outer : List Text}
    (hown : pending? [] (first ++ .close name :: more) = some [])
    (h : pending? (name :: outer) (first ++ .close name :: behind) = some []) :
    pending? [] first ≠ some [] ∧ ∃ awaited ≠ [], pending? awaited behind = some [] := by
  obtain ⟨inside, hinside, hmore⟩ := pending?_append.mp hown
  obtain ⟨next, hnext, -⟩ := pending?_cons.mp hmore
  obtain rfl := follow?_close.mp hnext
  have hall : pending? (name :: outer) first = some (name :: next ++ name :: outer) :=
    pending?_append_outer hinside (name :: outer)
  obtain ⟨awaited, hawaited, hclose⟩ := pending?_append.mp h
  obtain rfl := Option.some.inj (hall.symm.trans hawaited)
  obtain ⟨left, hleft, hbehind⟩ := pending?_cons.mp hclose
  obtain ⟨-, hrest⟩ := List.cons.injEq .. ▸ follow?_close.mp hleft
  refine ⟨by simp [hinside], left, ?_, hbehind⟩
  exact hrest ▸ List.append_ne_nil_of_right_ne_nil next (List.cons_ne_nil name outer)

/-! ## Blocks of one closing name -/

/-- Some outermost block has a block inside that ends at a closing tag of the same name. -/
def overlaps (awaited : List Text) : List Tag → Bool
  | [] => false
  | tag :: tags =>
      tag.closedBy?.any (fun name => awaited.getLast? == some name) ||
        overlaps ((follow? awaited tag).getD []) tags

theorem overlaps_openBlock : overlaps [] (.openBlock name :: tags) = overlaps [name] tags := rfl

theorem overlaps_openInline :
    overlaps [] (.openInline name :: tags) = overlaps ["inline".toList] tags := rfl

/-- Inside an outermost block it depends on the blocks inside. -/
theorem overlaps_append {inner others : List Tag} (h : pending? awaited inner = some rest) :
    overlaps (awaited ++ [name]) (inner ++ others) =
      (inner.any (fun tag => tag.closedBy? == some name) || overlaps (rest ++ [name]) others) := by
  induction inner generalizing awaited with
  | nil =>
      obtain rfl := Option.some.inj h
      rfl
  | cons tag inner ih =>
      obtain ⟨next, hnext, hrest⟩ := pending?_cons.mp h
      have hopens : tag.closedBy?.any (fun other => (awaited ++ [name]).getLast? == some other) =
          (tag.closedBy? == some name) := by
        rw [List.getLast?_concat]
        cases tag.closedBy? with
        | none => rfl
        | some other => simp [eq_comm]
      rw [List.cons_append, overlaps, hopens, follow?_append hnext, Option.getD_some, ih hrest,
        List.any_cons, Bool.or_assoc]

/-! ## Tags with their text changed -/

theorem closedBy?_map {f : Text → Text} (hf : f "inline".toList = "inline".toList) (tag : Tag) :
    (tag.map f).closedBy? = tag.closedBy?.map f := by
  cases tag with
  | openInline name => exact congrArg some hf.symm
  | _ => rfl

theorem follow?_map {f : Text → Text} (hf : f "inline".toList = "inline".toList)
    (h : follow? awaited tag = some next) :
    follow? (awaited.map f) (tag.map f) = some (next.map f) := by
  rcases follow?_eq_some h with ⟨name, rfl, rfl⟩ | ⟨hclose, rfl⟩
  · exact follow?_close.mpr rfl
  · have hclose' : ∀ name, tag.map f ≠ .close name := by
      cases tag with
      | close name => exact absurd rfl (hclose name)
      | _ => simp [Tag.map]
    rw [follow?_of_ne_close hclose', closedBy?_map hf, List.map_append]
    cases tag.closedBy? <;> rfl

theorem pending?_map {f : Text → Text} (hf : f "inline".toList = "inline".toList)
    (h : pending? awaited tags = some rest) :
    pending? (awaited.map f) (tags.map (Tag.map f)) = some (rest.map f) := by
  induction tags generalizing awaited with
  | nil =>
      obtain rfl := Option.some.inj h
      rfl
  | cons tag tags ih =>
      obtain ⟨next, hnext, hrest⟩ := pending?_cons.mp h
      exact pending?_cons.mpr ⟨_, follow?_map hf hnext, ih hrest⟩

theorem follow?_of_matches {other : Tag} (hmatches : tag.Matches other)
    (hawaited : ∀ name ∈ awaited, '\n' ∉ name) (h : follow? awaited tag = some next) :
    follow? awaited other = some next := by
  rcases follow?_eq_some h with ⟨name, rfl, rfl⟩ | ⟨hclose, rfl⟩
  · have hname := hawaited name List.mem_cons_self
    rw [(hmatches.close name hname).mpr rfl]
    exact follow?_close.mpr rfl
  · have hclose' : ∀ name, other ≠ .close name := by
      rintro name rfl
      have houtline := hmatches.outline
      cases tag with
      | close name => exact hclose name rfl
      | reference target => cases target <;> cases houtline
      | _ => cases houtline
    rw [follow?_of_ne_close hclose', ← closedBy?_outline other, hmatches.outline,
      closedBy?_outline]

/-- Tags that match are nested alike. -/
theorem pending?_of_matches {others : List Tag} (hmatches : List.Forall₂ Matches tags others)
    (hwords : ∀ tag ∈ tags, tag.ClosedByWord) (hawaited : ∀ name ∈ awaited, '\n' ∉ name)
    (h : pending? awaited tags = some rest) : pending? awaited others = some rest := by
  induction hmatches generalizing awaited with
  | nil => exact h
  | @cons tag other tags others htag _ ih =>
      obtain ⟨hword, hwords⟩ := List.forall_mem_cons.mp hwords
      obtain ⟨next, hnext, hrest⟩ := pending?_cons.mp h
      refine pending?_cons.mpr ⟨next, follow?_of_matches htag hawaited hnext, ih hwords ?_ hrest⟩
      rcases follow?_eq_some hnext with ⟨name, -, rfl⟩ | ⟨-, rfl⟩
      · exact (List.forall_mem_cons.mp hawaited).2
      · exact fun name hname => (List.mem_append.mp hname).elim
          (fun hmem => hword name (Option.mem_toList.mp hmem)) (hawaited name)

end Tag

/-! ## Nested texts -/

/-- Every closing tag of the text ends the innermost block that is open there, and no block stays
open. -/
def Text.Nested (s : Text) : Prop :=
  Tag.pending? [] s.tags = some []

instance (s : Text) : Decidable s.Nested :=
  inferInstanceAs (Decidable (Tag.pending? [] s.tags = some []))

/-- Some outermost block of the text has a block inside that ends at a closing tag of the same
name. -/
def Text.overlaps (s : Text) : Bool :=
  Tag.overlaps [] s.tags

namespace Text

variable {s : Text}

theorem Nested.replace {old new : Text} (hs : s.Nested) (h : Inert old new)
    (hinline : Text.replace old new "inline".toList = "inline".toList) :
    (Text.replace old new s).Nested := by
  unfold Nested
  rw [tags_replace h]
  exact Tag.pending?_map hinline hs

theorem Nested.escape (hs : s.Nested) : s.escape.Nested :=
  Text.escape_eq_replace s ▸ hs.replace inert_escape (by decide +kernel)

theorem Nested.mask (hs : s.Nested) : (Keyword.mask s).Nested :=
  hs.replace inert_mask (by decide +kernel)

theorem Nested.unmask (hs : s.Nested) : (Keyword.unmask s).Nested :=
  hs.replace inert_unmask (by decide +kernel)

theorem Nested.indentLines (hs : s.Nested) {w : Text} (hw : ∀ c ∈ w, isBlank c = true) :
    (indentLines w s).Nested := by
  have hbrace : '\x7b' ∉ w := fun h => absurd (hw _ h) (by decide)
  unfold Nested Text.indentLines
  rw [tags_append_of_not_mem hbrace]
  exact Tag.pending?_of_matches (Loosened.indentBreaks hw s).forall₂_tags s.closedByWord_tags
    (by simp) hs

/-! ## Openings and their own closing tags -/

/-- Behind an opening tag of the text, whose closing tag has the name, the rest follows. -/
inductive Opens : Text → Text → Text → Prop
  | here {s before inside rest name : Text} :
      Tag.next? s = some (before, inside, rest) → (Tag.ofText inside).closedBy? = some name →
      Opens s name rest
  | later {s before inside rest name after : Text} :
      Tag.next? s = some (before, inside, rest) → Opens rest name after → Opens s name after

theorem Opens.append {x name rest : Text} (hx : '\x7b' ∉ x) (h : Opens s name rest) :
    Opens (x ++ s) name rest := by
  have hnext := Tag.next?_append_of_not_mem hx s
  cases h with
  | here hs hname =>
      rw [hs, Option.map_some] at hnext
      exact .here hnext hname
  | later hs hlater =>
      rw [hs, Option.map_some] at hnext
      exact .later hnext hlater

/-- Behind an opening tag of a nested text its closing name is awaited. -/
theorem Opens.pending {name rest : Text} {awaited : List Text} (h : Opens s name rest)
    (hs : Tag.pending? awaited s.tags = some []) :
    ∃ outer, Tag.pending? (name :: outer) rest.tags = some [] := by
  induction h generalizing awaited with
  | here hnext hname =>
      rw [tags_of_next? hnext] at hs
      obtain ⟨next, hfollow, hrest⟩ := Tag.pending?_cons.mp hs
      rcases Tag.follow?_eq_some hfollow with ⟨other, heq, -⟩ | ⟨-, rfl⟩
      · rw [heq] at hname
        cases hname
      · rw [hname] at hrest
        exact ⟨awaited, hrest⟩
  | later hnext _ ih =>
      rw [tags_of_next? hnext] at hs
      obtain ⟨next, -, hrest⟩ := Tag.pending?_cons.mp hs
      exact ih hrest

end Text

namespace Node

/-- The text before the tag that closes the last awaited block, and the text after that tag. -/
def ownBody? (awaited : List Text) (s : Text) : Option (Text × Text) :=
  match _h : Tag.next? s with
  | none => none
  | some (before, inside, rest) =>
      match Tag.follow? awaited (Tag.ofText inside) with
      | none => none
      | some next =>
          if next = [] then some (before, rest)
          else (ownBody? next rest).map fun parts =>
            (before ++ Tag.opening ++ inside ++ Tag.closing ++ parts.1, parts.2)
termination_by s.length
decreasing_by exact Tag.length_of_next? _h

theorem ownBody?_of_next? {s before inside rest : Text}
    (h : Tag.next? s = some (before, inside, rest)) (awaited : List Text) :
    ownBody? awaited s =
      match Tag.follow? awaited (Tag.ofText inside) with
      | none => none
      | some next =>
          if next = [] then some (before, rest)
          else (ownBody? next rest).map fun parts =>
            (before ++ Tag.opening ++ inside ++ Tag.closing ++ parts.1, parts.2) := by
  rw [ownBody?]
  split
  · rename_i hs
    rw [h] at hs
    cases hs
  · rename_i hs
    rw [h] at hs
    obtain ⟨rfl, rfl, rfl⟩ := by simpa using hs
    rfl

/-- The text is the own body of a block, its closing tag, and what follows: `inner` is awaited
inside the block, and `outer` around it. -/
structure Splits (inner outer : List Text) (name s own after : Text) : Prop where
  ownBody : ownBody? (inner ++ [name]) s = some (own, after)
  tags_eq : s.tags = own.tags ++ .close name :: after.tags
  pending : Tag.pending? inner own.tags = some []
  behind : Tag.pending? outer after.tags = some []
  findClose : .close name ∉ own.tags → findClose? name s = some (own, after)

variable {inner outer : List Text} {name s own after before inside rest : Text}

/-- The block goes on behind a tag that does not close it. -/
theorem Splits.step {next : List Text} (h : Splits next outer name rest own after)
    (hs : Tag.next? s = some (before, inside, rest))
    (hfollow : Tag.follow? inner (Tag.ofText inside) = some next) :
    ∃ own', Splits inner outer name s own' after := by
  refine ⟨before ++ Tag.opening ++ inside ++ Tag.closing ++ own, ?_⟩
  have htags : (before ++ Tag.opening ++ inside ++ Tag.closing ++ own).tags =
      Tag.ofText inside :: own.tags := by
    have hnext := Tag.next?_append hs own
    rw [← List.append_assoc, ← List.append_assoc, ← List.append_assoc] at hnext
    exact Text.tags_of_next? hnext
  refine ⟨?_, ?_, ?_, h.behind, fun hclose => ?_⟩
  · rw [ownBody?_of_next? hs, Tag.follow?_append hfollow]
    simp only [List.append_eq_nil_iff, List.cons_ne_nil, and_false, if_false, h.ownBody]
    rfl
  · rw [Text.tags_of_next? hs, htags, h.tags_eq, List.cons_append]
  · rw [htags]
    exact Tag.pending?_cons.mpr ⟨next, hfollow, h.pending⟩
  · rw [htags, List.mem_cons, not_or] at hclose
    rw [findClose?_of_next? hs, if_neg (Ne.symm hclose.1), h.findClose hclose.2]
    rfl

/-- A block that is closed at last has a body of its own. -/
theorem exists_splits (h : Tag.pending? (inner ++ name :: outer) s.tags = some []) :
    ∃ own after, Splits inner outer name s own after := by
  fun_induction Text.tags s generalizing inner with
  | case1 s hs => simp [Tag.pending?_nil] at h
  | case2 s before inside rest hs ih =>
      obtain ⟨next, hfollow, hrest⟩ := Tag.pending?_cons.mp h
      rcases Tag.follow?_eq_some hfollow with ⟨top, htop, heq⟩ | ⟨hclose, rfl⟩
      · cases inner with
        | nil =>
            obtain ⟨rfl, rfl⟩ := List.cons.injEq .. ▸ heq
            have hbefore := Text.tags_of_next?_eq_none (Tag.next?_before hs)
            refine ⟨before, rest, ?_, ?_, ?_, hrest, fun _ => ?_⟩
            · rw [ownBody?_of_next? hs, htop, List.nil_append, Tag.follow?_close.mpr rfl]
              exact if_pos rfl
            · rw [Text.tags_of_next? hs, hbefore, htop, List.nil_append]
            · rw [hbefore, Tag.pending?_nil]
            · rw [findClose?_of_next? hs, if_pos htop]
        | cons other inner =>
            obtain ⟨rfl, rfl⟩ := List.cons.injEq .. ▸ heq
            obtain ⟨own, after, hsplits⟩ := ih hrest
            obtain ⟨own', hsplits'⟩ := hsplits.step hs (htop ▸ Tag.follow?_close.mpr rfl)
            exact ⟨own', after, hsplits'⟩
      · rw [← List.append_assoc] at hrest
        obtain ⟨own, after, hsplits⟩ := ih hrest
        obtain ⟨own', hsplits'⟩ := hsplits.step hs (Tag.follow?_of_ne_close hclose)
        exact ⟨own', after, hsplits'⟩

/-! ## Bodies -/

/-- A block that is closed at last is closed. It has its own body if nothing inside closes its
name. Else its body is cut short inside another block, and its own closing tag is left over. -/
theorem body_of_awaited (h : Tag.pending? (name :: outer) s.tags = some []) :
    (body name s).2.2 = true ∧ ∃ own after, Splits [] outer name s own after ∧
      (.close name ∉ own.tags ∧ body name s = (own, after, true) ∨
        .close name ∈ own.tags ∧ ¬ (body name s).1.Nested ∧
          ∃ awaited ≠ [], Tag.pending? awaited (body name s).2.1.tags = some []) := by
  have hinner : Tag.pending? ([] ++ name :: outer) s.tags = some [] := h
  obtain ⟨own, after, hsplits⟩ := exists_splits hinner
  by_cases hmem : .close name ∈ own.tags
  · cases hfound : findClose? name s with
    | none =>
        have hclose : .close name ∈ s.tags :=
          hsplits.tags_eq ▸ List.mem_append_right _ List.mem_cons_self
        exact absurd hclose (close_not_mem_of_findClose?_eq_none hfound)
    | some parts =>
        obtain ⟨first, behind⟩ := parts
        have hbody : body name s = (first, behind, true) := by rw [body, hfound]
        have htags := tags_of_findClose? hfound
        obtain ⟨more, hmore⟩ := Tag.exists_eq_append_of_first (hsplits.tags_eq.symm.trans htags)
          (close_not_mem_of_findClose? hfound) hmem
        obtain ⟨hopen, hleft⟩ := Tag.left_over_of_first (hmore ▸ hsplits.pending) (htags ▸ h)
        rw [hbody]
        exact ⟨rfl, own, after, hsplits, .inr ⟨hmem, hopen, hleft⟩⟩
  · have hbody : body name s = (own, after, true) := by rw [body, hsplits.findClose hmem]
    exact ⟨congrArg (fun parts => parts.2.2) hbody, own, after, hsplits, .inl ⟨hmem, hbody⟩⟩

/-- Outermost blocks overlap here, or behind this one. -/
theorem Splits.overlaps (h : Splits [] outer name s own after) :
    Tag.overlaps [name] s.tags =
      (own.tags.any (fun tag => tag.closedBy? == some name) || Tag.overlaps [] after.tags) := by
  have happend : Tag.overlaps ([] ++ [name]) (own.tags ++ .close name :: after.tags) = _ :=
    Tag.overlaps_append h.pending
  rw [List.nil_append] at happend
  rw [h.tags_eq, happend]
  have hclosed : Tag.follow? [name] (.close name) = some [] := Tag.follow?_close.mpr rfl
  rw [Tag.overlaps, hclosed]
  rfl

theorem Splits.close_mem_iff (h : Splits [] outer name s own after) :
    .close name ∈ own.tags ↔ own.tags.any (fun tag => tag.closedBy? == some name) = true := by
  rw [Tag.close_mem_iff h.pending]
  simp

/-- What is awaited behind a body: the blocks around are, or some more. -/
theorem exists_awaited_behind (h : Tag.pending? (name :: outer) s.tags = some [])
    (hover : outer ≠ [] ∨ Tag.overlaps [name] s.tags = true) :
    ∃ awaited, Tag.pending? awaited (body name s).2.1.tags = some [] ∧
      (awaited ≠ [] ∨ Tag.overlaps [] (body name s).2.1.tags = true) := by
  obtain ⟨-, own, after, hsplits, ⟨hclose, hbody⟩ | ⟨-, -, awaited, hawaited, hbehind⟩⟩ :=
    body_of_awaited h
  · rw [hbody]
    refine ⟨outer, hsplits.behind, hover.imp_right fun hover => ?_⟩
    rw [hsplits.overlaps, Bool.or_eq_true] at hover
    exact hover.resolve_left fun hany => hclose (hsplits.close_mem_iff.mpr hany)
  · exact ⟨awaited, hbehind, .inl hawaited⟩

/-- Where blocks of one closing name are inside each other, or more is closed than is opened, a
closing tag is left over. -/
theorem exists_strayClose {awaited : List Text} (atStart : Bool)
    (h : Tag.pending? awaited s.tags = some [])
    (hover : awaited ≠ [] ∨ Tag.overlaps [] s.tags = true) :
    ∃ name, .strayClose name ∈ scan atStart s := by
  fun_induction scan atStart s generalizing awaited with
  | case1 atStart s hs =>
      rw [Text.tags_of_next?_eq_none hs] at h hover
      obtain rfl := Option.some.inj h
      simp [Tag.overlaps] at hover
  | case2 atStart s before inside rest hs target ht line =>
      rename_i ih
      rw [Text.tags_of_next? hs, ht] at h hover
      rw [tags_standalone] at ih
      have hrest : Tag.pending? awaited rest.tags = some [] := h
      obtain ⟨name, hname⟩ := ih hrest hover
      exact ⟨name, List.mem_cons_of_mem _ (List.mem_cons_of_mem _ hname)⟩
  | case3 atStart s before inside rest hs name ht parts =>
      rename_i ih
      rw [Text.tags_of_next? hs, ht] at h hover
      have hinside : Tag.pending? (name :: awaited) rest.tags = some [] := h
      obtain ⟨awaited', h', hover'⟩ := exists_awaited_behind hinside
        (hover.imp_right fun hover => Tag.overlaps_openBlock ▸ hover)
      obtain ⟨name, hname⟩ := ih h' hover'
      exact ⟨name, List.mem_cons_of_mem _ (List.mem_cons_of_mem _ hname)⟩
  | case4 atStart s before inside rest hs name ht parts =>
      rename_i ih
      rw [Text.tags_of_next? hs, ht] at h hover
      have hinside : Tag.pending? ("inline".toList :: awaited) rest.tags = some [] := h
      obtain ⟨awaited', h', hover'⟩ := exists_awaited_behind hinside
        (hover.imp_right fun hover => Tag.overlaps_openInline ▸ hover)
      obtain ⟨name, hname⟩ := ih h' hover'
      exact ⟨name, List.mem_cons_of_mem _ (List.mem_cons_of_mem _ hname)⟩
  | case5 atStart s before inside rest hs name ht ih =>
      exact ⟨name, List.mem_cons_of_mem _ List.mem_cons_self⟩
  | case6 atStart s before inside rest hs name ht ih =>
      rw [Text.tags_of_next? hs, ht] at h hover
      have hrest : Tag.pending? awaited rest.tags = some [] := h
      obtain ⟨name, hname⟩ := ih hrest hover
      exact ⟨name, List.mem_cons_of_mem _ (List.mem_cons_of_mem _ hname)⟩

/-! ## The nodes of a nested text -/

/-- The closing name of a block or an inline definition, its body, and whether it is closed. -/
def taken? : Node → Option (Text × Text × Bool)
  | .block name body closed => some (name, body, closed)
  | .inlinePartial _ body closed => some ("inline".toList, body, closed)
  | _ => none

/-- The node is closed if it has a body, the body is nested, and the node is no closing tag that is
left over. -/
structure Nested (n : Node) : Prop where
  body : ∀ name body closed, n.taken? = some (name, body, closed) → closed = true ∧ body.Nested
  kept : ∀ name, n ≠ .strayClose name

theorem nested_of_taken?_eq_none {n : Node} (h : n.taken? = none)
    (hkept : ∀ name, n ≠ .strayClose name) : n.Nested :=
  ⟨fun _ _ _ htaken => by simp [h] at htaken, hkept⟩

/-- If no blocks overlap, a block has its own body, and this is nested. -/
theorem body_of_not_overlaps (h : Tag.pending? [name] s.tags = some [])
    (hover : Tag.overlaps [name] s.tags = false) :
    (body name s).2.2 = true ∧ (body name s).1.Nested ∧
      Tag.pending? [] (body name s).2.1.tags = some [] ∧
      Tag.overlaps [] (body name s).2.1.tags = false := by
  obtain ⟨hclosed, own, after, hsplits, hbody⟩ := body_of_awaited h
  rw [hsplits.overlaps, Bool.or_eq_false_iff] at hover
  have hclose : .close name ∉ own.tags := by
    rw [hsplits.close_mem_iff, hover.1]
    exact Bool.false_ne_true
  obtain ⟨-, hbody⟩ := hbody.resolve_right fun hshort => hclose hshort.1
  rw [hbody]
  exact ⟨rfl, hsplits.pending, hsplits.behind, hover.2⟩

/-- The nodes of a nested text are nested if no blocks overlap. -/
theorem nested_of_mem_scan {atStart : Bool} {n : Node} (h : Tag.pending? [] s.tags = some [])
    (hover : Tag.overlaps [] s.tags = false) (hn : n ∈ scan atStart s) : n.Nested := by
  fun_induction scan atStart s with
  | case1 atStart s hs =>
      obtain rfl := List.mem_singleton.mp hn
      exact nested_of_taken?_eq_none rfl (by simp)
  | case2 atStart s before inside rest hs target ht line ih =>
      rw [Text.tags_of_next? hs, ht] at h hover
      rw [tags_standalone] at ih
      rcases mem_cons_cons hn with rfl | rfl | hn
      · exact nested_of_taken?_eq_none rfl (by simp)
      · exact nested_of_taken?_eq_none rfl (by simp)
      · exact ih h hover hn
  | case3 atStart s before inside rest hs name ht parts ih =>
      rw [Text.tags_of_next? hs, ht] at h hover
      have hinside : Tag.pending? [name] rest.tags = some [] := h
      obtain ⟨hclosed, hbody, hpending, hrest⟩ := body_of_not_overlaps hinside
        (Tag.overlaps_openBlock ▸ hover)
      rcases mem_cons_cons hn with rfl | rfl | hn
      · exact nested_of_taken?_eq_none rfl (by simp)
      · refine ⟨fun _ _ _ htaken => ?_, by simp⟩
        cases htaken
        exact ⟨hclosed, hbody⟩
      · exact ih hpending hrest hn
  | case4 atStart s before inside rest hs name ht parts ih =>
      rw [Text.tags_of_next? hs, ht] at h hover
      have hinside : Tag.pending? ["inline".toList] rest.tags = some [] := h
      obtain ⟨hclosed, hbody, hpending, hrest⟩ := body_of_not_overlaps hinside
        (Tag.overlaps_openInline ▸ hover)
      rcases mem_cons_cons hn with rfl | rfl | hn
      · exact nested_of_taken?_eq_none rfl (by simp)
      · refine ⟨fun _ _ _ htaken => ?_, by simp⟩
        cases htaken
        exact ⟨hclosed, hbody⟩
      · exact ih hpending hrest hn
  | case5 atStart s before inside rest hs name ht ih =>
      rw [Text.tags_of_next? hs, ht] at h
      obtain ⟨next, hnext, -⟩ := Tag.pending?_cons.mp h
      cases Tag.follow?_close.mp hnext
  | case6 atStart s before inside rest hs name ht ih =>
      rw [Text.tags_of_next? hs, ht] at h hover
      rcases mem_cons_cons hn with rfl | rfl | hn
      · exact nested_of_taken?_eq_none rfl (by simp)
      · exact nested_of_taken?_eq_none rfl (by simp)
      · exact ih h hover hn

/-! ## Where a body stands -/

theorem opens_of_standalone {atStart : Bool} {after : Text}
    (h : (standalone atStart before rest).2.2.Opens name after) : rest.Opens name after := by
  unfold standalone at h
  split at h
  · rename_i hrest
    obtain ⟨x, hx, rfl⟩ := exists_eq_append_of_lineRest? hrest
    exact h.append hx
  · exact h

theorem opens_of_findClose? {other after : Text} (hfound : findClose? other s = some (own, rest))
    (h : rest.Opens name after) : s.Opens name after := by
  fun_induction findClose? other s generalizing own with
  | case1 => cases hfound
  | case2 s before inside r hs hc =>
      obtain ⟨rfl, rfl⟩ := Prod.mk.injEq .. ▸ Option.some.inj hfound
      exact .later hs h
  | case3 s before inside r hs hc ih =>
      obtain ⟨⟨i, t⟩, ht, hp⟩ := Option.map_eq_some_iff.mp hfound
      obtain ⟨rfl, rfl⟩ := Prod.mk.injEq .. ▸ hp
      exact .later hs (ih ht)

theorem opens_of_body {other after : Text} (h : (body other s).2.1.Opens name after) :
    s.Opens name after := by
  unfold body at h
  split at h
  · rename_i hfound
    exact opens_of_findClose? hfound h
  · cases h with
    | here hs => cases hs
    | later hs => cases hs

/-- A body was looked for behind an opening tag of the text. -/
theorem exists_opens_of_mem_scan {atStart : Bool} {n : Node} {found : Text} {closed : Bool}
    (hn : n ∈ scan atStart s) (htaken : n.taken? = some (name, found, closed)) :
    ∃ rest, s.Opens name rest ∧ (body name rest).1 = found ∧ (body name rest).2.2 = closed := by
  fun_induction scan atStart s with
  | case1 atStart s hs =>
      obtain rfl := List.mem_singleton.mp hn
      cases htaken
  | case2 atStart s before inside rest hs target ht line ih =>
      rcases mem_cons_cons hn with rfl | rfl | hn
      · cases htaken
      · cases htaken
      · obtain ⟨r, hopens, hr⟩ := ih hn
        exact ⟨r, .later hs (opens_of_standalone hopens), hr⟩
  | case3 atStart s before inside rest hs other ht parts ih =>
      rcases mem_cons_cons hn with rfl | rfl | hn
      · cases htaken
      · cases htaken
        exact ⟨rest, .here hs (ht ▸ rfl), rfl, rfl⟩
      · obtain ⟨r, hopens, hr⟩ := ih hn
        exact ⟨r, .later hs (opens_of_body hopens), hr⟩
  | case4 atStart s before inside rest hs other ht parts ih =>
      rcases mem_cons_cons hn with rfl | rfl | hn
      · cases htaken
      · cases htaken
        exact ⟨rest, .here hs (ht ▸ rfl), rfl, rfl⟩
      · obtain ⟨r, hopens, hr⟩ := ih hn
        exact ⟨r, .later hs (opens_of_body hopens), hr⟩
  | case5 atStart s before inside rest hs other ht ih =>
      rcases mem_cons_cons hn with rfl | rfl | hn
      · cases htaken
      · cases htaken
      · obtain ⟨r, hopens, hr⟩ := ih hn
        exact ⟨r, .later hs hopens, hr⟩
  | case6 atStart s before inside rest hs other ht ih =>
      rcases mem_cons_cons hn with rfl | rfl | hn
      · cases htaken
      · cases htaken
      · obtain ⟨r, hopens, hr⟩ := ih hn
        exact ⟨r, .later hs hopens, hr⟩

/-- A block of a nested text is closed. It has its own body exactly if no block inside ends at a
closing tag of the same name, and exactly if its body is nested. -/
theorem closed_and_body_eq_iff {n : Node} {found : Text} {closed : Bool} (hs : s.Nested)
    (hn : n ∈ s.nodes) (htaken : n.taken? = some (name, found, closed)) :
    closed = true ∧ ∃ rest own after, s.Opens name rest ∧
      ownBody? [name] rest = some (own, after) ∧ own.Nested ∧
      (found = own ↔ ∀ tag ∈ own.tags, tag.closedBy? ≠ some name) ∧ (found = own ↔ found.Nested) := by
  obtain ⟨rest, hopens, rfl, rfl⟩ := exists_opens_of_mem_scan hn htaken
  obtain ⟨outer, houter⟩ := hopens.pending hs
  obtain ⟨hclosed, own, after, hsplits, hbody⟩ := body_of_awaited houter
  have hown : own.Nested := hsplits.pending
  refine ⟨hclosed, rest, own, after, hopens, hsplits.ownBody, hown, ?_⟩
  have hnone : (∀ tag ∈ own.tags, tag.closedBy? ≠ some name) ↔ .close name ∉ own.tags := by
    rw [Tag.close_mem_iff hown]
    simp
  rw [hnone]
  rcases hbody with ⟨hclose, hbody⟩ | ⟨hclose, hshort, -⟩
  · rw [hbody]
    exact ⟨iff_of_true rfl hclose, iff_of_true rfl hown⟩
  · have hne : (body name rest).1 ≠ own := fun heq => hshort (heq ▸ hown)
    exact ⟨iff_of_false hne (not_not_intro hclose), iff_of_false hne hshort⟩

end Node

end Inlay
