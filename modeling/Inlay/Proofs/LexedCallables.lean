import Mathlib.Data.List.Forall2
import Inlay.Proofs.Equations
import Inlay.Proofs.Lexing

/-!
# Lexing callables

A callable whose inside can be lexed can be lexed itself. What its passes do
to the names of the calls inside depends on the names alone where they have
no bells, no keyword and no parenthesis that is closed right before a brace:
such names are left as they are.
-/

namespace Inlay

namespace Callable

open Text

/-! ## Captures -/

/-- What capturing rewrites at the start and at the end of the parameters. -/
inductive Recast : Text → Text → Prop
  | front {gap : Text} : (∀ c ∈ gap, isBlank c = true) →
      Recast (Keyword.word ++ (gap ++ ['('])) (Keyword.word ++ ['('])
  | back {gap : Text} : (∀ c ∈ gap, isBlank c = true) →
      Recast (')' :: (gap ++ ['\x7b'])) ")use($sp)\x7b".toList

/-- The second text is the first one with ends of parameters rewritten in some places. -/
inductive Recasts : Text → Text → Prop
  | nil : Recasts [] []
  | keep (c : Char) {s t : Text} : Recasts s t → Recasts (c :: s) (c :: t)
  | rewrite {x y s t : Text} : Recast x y → Recasts s t → Recasts (x ++ s) (y ++ t)

theorem bare_of_blank {gap : Text} (hgap : ∀ c ∈ gap, isBlank c = true) : gap.Bare := by
  intro c hc
  constructor <;>
  · rintro rfl
    exact absurd (hgap _ hc) (by decide)

namespace Recast

variable {x y : Text} (h : Recast x y)

include h

theorem bare : x.Bare ∧ y.Bare := by
  cases h with
  | @front gap hgap =>
      have hgap := bare_of_blank hgap
      have hword : Keyword.word.Bare := by decide
      have hopen : Bare ['('] := by decide
      refine ⟨fun c hc => ?_, by decide⟩
      rcases List.mem_append.mp hc with hc | hc
      · exact hword c hc
      · exact (List.mem_append.mp hc).elim (hgap c) (hopen c)
  | @back gap hgap =>
      have hgap := bare_of_blank hgap
      have hclose : Bare [')'] := by decide
      have hopen : Bare ['\x7b'] := by decide
      refine ⟨fun c hc => ?_, by decide⟩
      rcases List.mem_append.mp (show c ∈ [')'] ++ (gap ++ ['\x7b']) from hc) with hc | hc
      · exact hclose c hc
      · exact (List.mem_append.mp hc).elim (hgap c) (hopen c)

/-- A header starts with the keyword, its parameters end with a parenthesis. -/
theorem head : ∃ c u, x = c :: u ∧ (c = 'f' ∨ c = ')') := by
  cases h with
  | front => exact ⟨'f', _, rfl, .inl rfl⟩
  | back => exact ⟨')', _, rfl, .inr rfl⟩

theorem length_lt {s r : Text} (hs : s = x ++ r) : r.length < s.length := by
  obtain ⟨c, u, rfl, -⟩ := h.head
  rw [hs, List.length_append, List.length_cons]
  omega

end Recast

namespace Recasts

variable {s t u : Text}

theorem append_left (x : Text) (h : Recasts s t) : Recasts (x ++ s) (x ++ t) := by
  induction x with
  | nil => exact h
  | cons c x ih => exact .keep c ih

theorem of_nil (h : Recasts [] t) : t = [] := by
  generalize hs : [] = w at h
  cases h with
  | nil => rfl
  | keep => cases hs
  | rewrite hxy _ =>
      obtain ⟨c, u, rfl, -⟩ := hxy.head
      cases hs

theorem cons_cases {c : Char} (h : Recasts (c :: s) t) :
    (∃ u, t = c :: u ∧ Recasts s u) ∨
      ∃ x y r u, Recast x y ∧ c :: s = x ++ r ∧ t = y ++ u ∧ Recasts r u := by
  generalize hs : c :: s = w at h
  cases h with
  | nil => cases hs
  | keep d h =>
      obtain ⟨rfl, rfl⟩ := List.cons.inj hs
      exact .inl ⟨_, rfl, h⟩
  | rewrite hxy h => exact .inr ⟨_, _, _, _, hxy, rfl, rfl, h⟩

/-- No header and no end of parameters starts here. -/
theorem kept {x : Text} (hx : ∀ c ∈ x, c ≠ 'f' ∧ c ≠ ')') (h : Recasts (x ++ s) t) :
    ∃ u, t = x ++ u ∧ Recasts s u := by
  induction x generalizing t with
  | nil => exact ⟨t, rfl, h⟩
  | cons c x ih =>
      obtain ⟨⟨hf, hclose⟩, hx⟩ := List.forall_mem_cons.mp hx
      rcases h.cons_cases with ⟨u, rfl, hu⟩ | ⟨y, z, r, u, hyz, hs, -, -⟩
      · obtain ⟨v, rfl, hv⟩ := ih hx hu
        exact ⟨v, rfl, hv⟩
      · obtain ⟨d, v, rfl, hd⟩ := hyz.head
        obtain ⟨rfl, -⟩ := List.cons.inj hs
        rcases hd with rfl | rfl
        · exact absurd rfl hf
        · exact absurd rfl hclose

end Recasts

theorem eq_append_of_parameters? {s params rest : Text} (h : parameters? s = some (params, rest)) :
    ∃ gap, (∀ c ∈ gap, isBlank c = true) ∧ s = params ++ (')' :: (gap ++ ['\x7b'])) ++ rest := by
  induction s generalizing params with
  | nil => simp [parameters?] at h
  | cons c s ih =>
      simp only [parameters?] at h
      split at h
      · rename_i r hr
        obtain ⟨rfl, rfl⟩ := Prod.mk.injEq .. ▸ Option.some.inj h
        split at hr
        · rename_i hc
          subst hc
          refine ⟨s.takeWhile isBlank, fun c hc => List.all_eq_true.mp List.all_takeWhile c hc, ?_⟩
          have hs : s.dropWhile isBlank = '\x7b' :: r := Text.eq_append_of_after? hr
          simp only [List.nil_append, List.cons_append, List.append_assoc]
          rw [← hs, List.takeWhile_append_dropWhile]
        · cases hr
      · split at h
        · cases h
        · obtain ⟨⟨p, r⟩, hr, hp⟩ := Option.map_eq_some_iff.mp h
          obtain ⟨rfl, rfl⟩ := Prod.mk.injEq .. ▸ hp
          obtain ⟨gap, hgap, rfl⟩ := ih hr
          exact ⟨gap, hgap, rfl⟩

theorem recasts_capture (inWord : Bool) (s : Text) : Recasts s (capture inWord s) := by
  fun_induction capture inWord s with
  | case1 inWord s params rest h ih =>
      split at h
      · cases h
      · obtain ⟨⟨sameLine, inner⟩, hopening, hparameters⟩ := Option.bind_eq_some_iff.mp h
        obtain ⟨gap, rfl, hgap, -⟩ := eq_append_of_opening? hopening
        obtain ⟨gap', hgap', rfl⟩ := eq_append_of_parameters? hparameters
        have hback := Recasts.append_left params (.rewrite (.back hgap') ih)
        have hfront := Recasts.rewrite (.front hgap) hback
        simp only [List.append_assoc, List.cons_append, List.nil_append] at hfront ⊢
        exact hfront
  | case2 => exact .nil
  | case3 inWord c s h ih => exact .keep c ih

end Callable

/-! ## Capturing in code -/

/-- Bare text at the start of a literal is in its value. -/
theorem Text.Bare.of_append_eq {x r s name : Text} (hx : x.Bare)
    (h : x ++ r = name.protect ++ '\'' :: s) :
    ∃ rest, name = x ++ rest ∧ r = Text.protect rest ++ '\'' :: s := by
  induction x generalizing name with
  | nil => exact ⟨name, rfl, h⟩
  | cons c x ih =>
      obtain ⟨⟨hquote, hslash⟩, hx⟩ := List.forall_mem_cons.mp hx
      cases name with
      | nil => exact absurd (List.cons.inj h).1 hquote
      | cons d name =>
          rw [protect_cons, List.append_assoc] at h
          by_cases hd : d = '\\'
          · subst hd
            exact absurd (List.cons.inj h).1 hslash
          · by_cases hd' : d = '\''
            · subst hd'
              exact absurd (List.cons.inj h).1 hslash
            · rw [protect_singleton hd hd', List.singleton_append] at h
              obtain ⟨rfl, htail⟩ := List.cons.inj h
              obtain ⟨rest, rfl, hr⟩ := ih hx htail
              exact ⟨rest, rfl, hr⟩

namespace Callable.Recasts

open Text

/-- Rewriting does not reach over the end of a literal. -/
theorem of_protect {name s t : Text} (h : Recasts (name.protect ++ '\'' :: s) t) :
    ∃ other u, t = Text.protect other ++ '\'' :: u ∧ Recasts name other ∧ Recasts s u := by
  induction hn : name.length using Nat.strong_induction_on generalizing name t with
  | _ n ih =>
      subst hn
      cases name with
      | nil =>
          have hquote : ∀ c ∈ ['\''], c ≠ 'f' ∧ c ≠ ')' := by decide
          obtain ⟨u, rfl, hu⟩ := Recasts.kept (x := ['\'']) hquote h
          exact ⟨[], u, rfl, .nil, hu⟩
      | cons c name =>
          have hspecial : ∀ d : Char, d ≠ 'f' ∧ d ≠ ')' → protect [d] = ['\\', d] → c = d →
              ∃ other u, t = Text.protect other ++ '\'' :: u ∧ Recasts (c :: name) other ∧
                Recasts s u := by
            rintro d hd hprotect rfl
            have hkeep : ∀ e ∈ ['\\', c], e ≠ 'f' ∧ e ≠ ')' :=
              List.forall_mem_cons.mpr ⟨by decide, List.forall_mem_singleton.mpr hd⟩
            rw [protect_cons, hprotect, List.append_assoc] at h
            obtain ⟨v, rfl, hv⟩ := h.kept hkeep
            obtain ⟨other, u, rfl, hname, hu⟩ := ih name.length (by simp) hv rfl
            refine ⟨c :: other, u, ?_, .keep c hname, hu⟩
            rw [protect_cons c other, hprotect, List.append_assoc]
          by_cases hslash : c = '\\'
          · exact hspecial '\\' (by decide) protect_backslash hslash
          · by_cases hquote : c = '\''
            · exact hspecial '\'' (by decide) protect_apostrophe hquote
            · rw [protect_cons, protect_singleton hslash hquote, List.append_assoc,
                List.singleton_append] at h
              rcases h.cons_cases with ⟨v, rfl, hv⟩ | ⟨x, y, r, v, hxy, hs, rfl, hv⟩
              · obtain ⟨other, u, rfl, hname, hu⟩ := ih name.length (by simp) hv rfl
                refine ⟨c :: other, u, ?_, .keep c hname, hu⟩
                rw [protect_cons c other, protect_singleton hslash hquote, List.singleton_append,
                  List.cons_append]
              · have hwhole : x ++ r = Text.protect (c :: name) ++ '\'' :: s := by
                  rw [protect_cons c name, protect_singleton hslash hquote, ← hs]
                  rfl
                obtain ⟨rest, hrest, rfl⟩ := hxy.bare.1.of_append_eq hwhole
                obtain ⟨other, u, rfl, hname, hu⟩ := ih rest.length (hxy.length_lt hrest) hv rfl
                refine ⟨y ++ other, u, ?_, hrest ▸ .rewrite hxy hname, hu⟩
                rw [protect_append, hxy.bare.2.protect_eq, List.append_assoc]

end Callable.Recasts

namespace Target.Lexes

open Text Callable

variable {a b : Bool} {s t : Text} {names : List Text}

/-- Between marks only spaces are blank. -/
theorem of_blank {gap : Text} (hgap : ∀ c ∈ gap, isBlank c = true) (h : Lexes false (gap ++ s) names b) :
    Lexes false s names b := by
  have hspace : ∀ w ∈ marks, ∀ c ∈ w.head?, isBlank c = true → w = [' '] := by decide +kernel
  induction gap with
  | nil => exact h
  | cons c gap ih =>
      obtain ⟨hc, hgap⟩ := List.forall_mem_cons.mp hgap
      rw [List.cons_append] at h
      rcases h.head_cases with ⟨rfl, -⟩ | ⟨w, hw, u, hu, hrest⟩ | rfl
      · exact absurd hc (by decide)
      · obtain ⟨-, rfl⟩ := List.cons.inj (hspace _ hw c rfl hc)
        rw [List.nil_append] at hu
        exact ih hgap (hu ▸ hrest)
      · exact absurd hc (by decide)

theorem of_recast {x y : Text} (hxy : Recast x y) (h : Lexes false (x ++ s) names b) :
    Lexes false s names b ∧ Lexes false y [] false := by
  have hmarks : ∀ w ∈ [Keyword.word, ['('], [')'], ['\x7b'], "use".toList, "$sp".toList], w ∈ marks := by
    decide +kernel
  cases hxy with
  | front hgap =>
      rw [List.append_assoc, List.append_assoc] at h
      have hopen := (h.of_mark (hmarks _ (by simp))).of_blank hgap
      have hfront : ∀ w ∈ [Keyword.word, ['(']], w ∈ marks := fun w hw => hmarks w (by aesop)
      exact ⟨hopen.of_mark (hmarks _ (by simp)), flatten hfront⟩
  | @back gap hgap =>
      have h : Lexes false ([')'] ++ (gap ++ (['\x7b'] ++ s))) names b := by simpa using h
      have hopen := (h.of_mark (hmarks _ (by simp))).of_blank hgap
      have hback : ∀ w ∈ [[')'], "use".toList, ['('], "$sp".toList, [')'], ['\x7b']], w ∈ marks := by
        decide +kernel
      exact ⟨hopen.of_mark (hmarks _ (by simp)), flatten hback⟩

/-- Rewriting goes on in literals, and at the marks of the header of a callable. -/
theorem recasts (h : Lexes a s names b) (hst : Recasts s t) :
    ∃ others, Lexes a t others b ∧ List.Forall₂ Recasts names others := by
  have hquoteKept : ∀ c ∈ ['\''], c ≠ 'f' ∧ c ≠ ')' := by decide
  have hmarks : ∀ w ∈ marks, ∀ c ∈ w.tail, c ≠ 'f' ∧ c ≠ ')' := by decide +kernel
  have hbefore : ∀ c ∈ beforeName, c ≠ 'f' ∧ c ≠ ')' := by decide
  have hvalue : ∀ c ∈ valueArgument, c ≠ 'f' ∧ c ≠ ')' := by decide
  induction hn : s.length using Nat.strong_induction_on generalizing a s names t with
  | _ n ih =>
      subst hn
      cases h with
      | done =>
          obtain rfl := hst.of_nil
          exact ⟨[], .done _, .nil⟩
      | @char c s _ _ hquote hslash h =>
          rcases hst.cons_cases with ⟨u, rfl, hu⟩ | ⟨x, y, r, u, hxy, hs, rfl, hu⟩
          · obtain ⟨others, hothers, hnames⟩ := ih s.length (by simp) h hu rfl
            exact ⟨others, .char hquote hslash hothers, hnames⟩
          · have hrest := of_bare_append hxy.bare.1 (hs ▸ Lexes.char hquote hslash h)
            obtain ⟨others, hothers, hnames⟩ := ih r.length (hxy.length_lt hs) hrest hu rfl
            exact ⟨others, bare_append hxy.bare.2 hothers, hnames⟩
      | @escaped c s _ _ hc h =>
          have hkept : ∀ d ∈ ['\\', c], d ≠ 'f' ∧ d ≠ ')' := by
            rcases hc with rfl | rfl <;> decide
          obtain ⟨u, rfl, hu⟩ := Recasts.kept (x := ['\\', c]) hkept hst
          obtain ⟨others, hothers, hnames⟩ :=
            ih s.length (by simp only [List.length_cons]; omega) h hu rfl
          exact ⟨others, .escaped hc hothers, hnames⟩
      | @close s _ _ h =>
          obtain ⟨u, rfl, hu⟩ := Recasts.kept (x := ['\'']) hquoteKept hst
          obtain ⟨others, hothers, hnames⟩ := ih s.length (by simp) h hu rfl
          exact ⟨others, .close hothers, hnames⟩
      | @quote s _ _ h =>
          obtain ⟨u, rfl, hu⟩ := Recasts.kept (x := ['\'']) hquoteKept hst
          obtain ⟨others, hothers, hnames⟩ := ih s.length (by simp) h hu rfl
          exact ⟨others, .quote hothers, hnames⟩
      | @mark w s _ _ hw h =>
          obtain ⟨c, v, rfl⟩ := List.exists_cons_of_ne_nil (head_of_mark w hw).1
          rcases Recasts.cons_cases (s := v ++ s) hst with ⟨v', rfl, hv⟩ | ⟨x, y, r, u, hxy, hs, rfl, hu⟩
          · obtain ⟨u, rfl, hu⟩ := Recasts.kept (x := v) (hmarks _ hw) hv
            obtain ⟨others, hothers, hnames⟩ :=
              ih s.length (by simp only [List.length_cons, List.length_append]; omega) h hu rfl
            exact ⟨others, .mark hw hothers, hnames⟩
          · have hwhole : Lexes false (x ++ r) names b := hs ▸ Lexes.mark hw h
            obtain ⟨hrest, hrewritten⟩ := hwhole.of_recast hxy
            obtain ⟨others, hothers, hnames⟩ := ih r.length (hxy.length_lt hs) hrest hu rfl
            exact ⟨others, hrewritten.append hothers, hnames⟩
      | @call name s names _ h =>
          simp only [callStart, List.append_assoc, List.cons_append] at hst
          obtain ⟨u₁, rfl, hu₁⟩ := hst.kept hbefore
          obtain ⟨other, u₂, rfl, hname, hu₂⟩ := hu₁.of_protect
          obtain ⟨u, rfl, hu⟩ := hu₂.kept hvalue
          obtain ⟨others, hothers, hnames⟩ := ih s.length (length_lt_call name s) h hu rfl
          refine ⟨other :: others, ?_, .cons hname hnames⟩
          have hcall : Lexes false (callStart other ++ u) (other :: others) b := .call hothers
          simpa only [callStart, List.append_assoc, List.cons_append] using hcall

end Target.Lexes

/-! ## Names in a callable -/

namespace Text

/-- A name of one word, as a tag gives it. -/
def Solid (name : Text) : Prop :=
  ∀ c ∈ name, isBlank c = false

instance (name : Text) : Decidable name.Solid :=
  inferInstanceAs (Decidable (∀ c ∈ name, isBlank c = false))

/-- Nothing in the name is for the passes over a callable. -/
structure Steady (name : Text) : Prop where
  bell : Keyword.bell ∉ name
  keyword : ¬ Keyword.word <:+: name
  header : ¬ [')', '\x7b'] <:+: name

theorem mem_of_mem_replace {old new s : Text} (hold : old ≠ []) {c : Char}
    (h : c ∈ replace old new s) : c ∈ s ∨ c ∈ new := by
  induction s using replaceInduction hold with
  | nil =>
      rw [replace_nil hold] at h
      exact .inl h
  | hit s ih =>
      rw [replace_append hold] at h
      rcases List.mem_append.mp h with h | h
      · exact .inr h
      · exact (ih h).imp_left (List.mem_append_right old)
  | miss d s hd ih =>
      rw [replace_cons hd] at h
      rcases List.mem_cons.mp h with rfl | h
      · exact .inl List.mem_cons_self
      · exact (ih h).imp_left (List.mem_cons_of_mem d)

theorem Solid.replace {old new s : Text} (h : s.Solid) (hold : old ≠ []) (hnew : new.Solid) :
    (replace old new s).Solid :=
  fun c hc => (mem_of_mem_replace hold hc).elim (h c) (hnew c)

/-- What has a bell does not stand in a steady name. -/
theorem Steady.replace {old new name : Text} (h : name.Steady) (hold : Keyword.bell ∈ old) :
    Text.replace old new name = name :=
  replace_of_not_infix (List.ne_nil_of_mem hold) fun hinside => h.bell (hinside.subset hold)

end Text

namespace Callable

open Text

theorem Recasts.solid {s t : Text} (h : Recasts s t) (hs : s.Solid) : t.Solid := by
  induction h with
  | nil => exact hs
  | keep c _ ih =>
      obtain ⟨hc, hs⟩ := List.forall_mem_cons.mp hs
      exact List.forall_mem_cons.mpr ⟨hc, ih hs⟩
  | rewrite hxy _ ih =>
      have hnew : ∀ {x y : Text}, Recast x y → y.Solid := by
        intro x y hxy
        cases hxy with
        | front => decide
        | back => decide
      exact List.forall_mem_append.mpr ⟨hnew hxy, ih (List.forall_mem_append.mp hs).2⟩

/-- In a text of one word a header is written as it would be rewritten. -/
theorem Recasts.eq_self {s t : Text} (h : Recasts s t) (hs : s.Solid)
    (hheader : ¬ [')', '\x7b'] <:+: s) : t = s := by
  have hnone : ∀ {gap x : Text}, (∀ c ∈ gap, isBlank c = true) → x.Solid → gap ⊆ x → gap = [] := by
    intro gap x hgap hx hsub
    refine List.eq_nil_iff_forall_not_mem.mpr fun c hc => ?_
    have hsolid := hx c (hsub hc)
    rw [hgap c hc] at hsolid
    cases hsolid
  induction h with
  | nil => rfl
  | keep c _ ih =>
      have hs := (List.forall_mem_cons.mp hs).2
      rw [ih hs fun h => hheader (List.infix_cons h)]
  | @rewrite x y s t hxy _ ih =>
      have hrest : Text.Solid s := (List.forall_mem_append.mp hs).2
      have hsame : t = s := ih hrest fun h => hheader (h.trans (List.suffix_append x s).isInfix)
      cases hxy with
      | @front gap hgap =>
          obtain rfl := hnone hgap hs fun c hc => by simp [hc]
          rw [hsame]
          rfl
      | @back gap hgap =>
          obtain rfl := hnone hgap hs fun c hc => by simp [hc]
          exact absurd ⟨[], s, rfl⟩ hheader

/-- What the passes over a callable make of the name of a call. -/
structure Drifts (name other : Text) : Prop where
  solid : name.Solid → other.Solid
  steady : name.Solid → name.Steady → other = name

theorem drifts_unmask (name : Text) : Drifts name (Keyword.unmask name) :=
  ⟨fun hsolid => hsolid.replace Keyword.sentinel_ne_nil (by decide),
    fun _ hsteady => hsteady.replace (by decide)⟩

theorem drifts_threaded {name middle : Text} (h : Recasts (replace selfIndented [] name) middle) :
    Drifts name (Keyword.unmask middle) := by
  constructor
  · intro hsolid
    have hreplaced : (replace selfIndented [] name).Solid := hsolid.replace (by decide) (by decide)
    exact (h.solid hreplaced).replace Keyword.sentinel_ne_nil (by decide)
  · intro hsolid hsteady
    rw [hsteady.replace (by decide)] at h
    rw [h.eq_self hsolid hsteady.header]
    exact hsteady.replace (by decide)

end Callable

namespace Target.Lexes

open Text Callable

variable {code : Text} {names : List Text}

theorem unmask {a b : Bool} {s : Text} (h : Lexes a s names b) :
    Lexes a (Keyword.unmask s) (names.map Keyword.unmask) b :=
  h.replace (by decide) (by decide)

/-- The code of a callable can be lexed after its lines got the margin. -/
theorem threadIndent (h : Lexes true code names true) (hnames : ∀ name ∈ names, name.Solid) :
    ∃ others, Lexes true (Callable.threadIndent .standard code) others true ∧
      List.Forall₂ (fun name other => Recasts (Text.replace selfIndented [] name) other)
        names others := by
  have hmargin : Lexes true (Fragments.standard.splice indentParameter) [] true := by
    have hmarks : ∀ w ∈ [['.'], indentParameter, ['.']], w ∈ marks := by decide +kernel
    exact .close ((flatten hmarks).append (.quote (.done true)))
  have hlines : ∀ name ∈ names, '\n' ∉ name :=
    fun name hname hmem => absurd (hnames name hname _ hmem) (by decide)
  have hindented := hmargin.append (indentBreaks hmargin h hlines)
  have hmark : Bare ('!' :: selfIndented.tail) := bare_selfIndented
  have hnone : Bare [] := by decide
  have hreplaced := (replace_ledMark hindented).replace hmark hnone
  obtain ⟨others, hothers, hrecasts⟩ := hreplaced.recasts (recasts_capture false _)
  refine ⟨others, ?_, List.forall₂_map_left_iff.mp hrecasts⟩
  unfold Callable.threadIndent
  rw [sweep_eq_capture _ _ _ (by simp)]
  exact hothers

/-- A callable around code that can be lexed. -/
theorem define (further : List Text) (hfurther : ∀ w ∈ further, w ∈ marks)
    (h : Lexes true code names true) :
    Lexes false (Callable.define .standard further.flatten code) names false := by
  let front : List Text := [Keyword.word, [' '], ['('], "$cx".toList, [','], [' '], "$in".toList]
  have hmarks : ∀ w ∈ front ++ [[')'], [' '], ['\x7b']] ++ ["return".toList, [' ']] ++ [[';'], ['\x7d']],
      w ∈ marks := by
    decide +kernel
  simp only [List.forall_mem_append] at hmarks
  obtain ⟨⟨⟨hfront, hclose⟩, hreturn⟩, hend⟩ := hmarks
  have hfront_eq : "function ($cx, $in".toList = front.flatten := by decide
  have hclose_eq : ") \x7b".toList = [[')'], [' '], ['\x7b']].flatten := by decide
  have hreturn_eq : Fragments.standard.opening = ["return".toList, [' ']].flatten := by decide
  have hend_eq : Fragments.standard.closing ++ ['\x7d'] = [[';'], ['\x7d']].flatten := by decide
  have hcode := Lexes.quote (h.append (.close (flatten hend)))
  have hbody := (flatten hclose).append ((flatten hreturn).append hcode)
  have hwhole := (flatten hfront).append ((flatten hfurther).append hbody)
  unfold Callable.define
  rw [hfront_eq, hclose_eq, hreturn_eq]
  simp only [List.append_assoc, List.cons_append, List.nil_append, List.append_nil] at hwhole ⊢
  rw [hend_eq]
  exact hwhole

/-- A callable can be lexed if its inside can be. -/
theorem callable {v : View} (hv : v.fragments = .standard) (h : Lexes true code names true)
    (hnames : ∀ name ∈ names, name.Solid) :
    ∃ others, Lexes false (Inlay.callable v code) others false ∧ List.Forall₂ Drifts names others := by
  unfold Inlay.callable
  rw [hv]
  split
  · refine ⟨_, define [] (by simp) h.unmask, ?_⟩
    exact List.forall₂_map_right_iff.mpr (List.forall₂_same.mpr fun name _ => drifts_unmask name)
  · obtain ⟨others, hothers, hrecasts⟩ := h.threadIndent hnames
    have hmarks : ∀ w ∈ [[','], [' '], indentParameter], w ∈ marks := by decide +kernel
    have hfurther : ", ".toList ++ indentParameter = [[','], [' '], indentParameter].flatten := by decide
    rw [hfurther]
    refine ⟨_, define _ hmarks hothers.unmask, ?_⟩
    exact List.forall₂_map_right_iff.mpr (hrecasts.imp fun _ _ => drifts_threaded)

end Target.Lexes

end Inlay
