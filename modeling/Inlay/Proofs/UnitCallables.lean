import Inlay.Proofs.UnitText
import Inlay.Proofs.TargetCode

/-!
# Callables in the code of a unit

The code of nodes carries what the nodes say, with the callables of bodies
in it. So the pass over the code of a unit meets the callables only, if none
opens in what is heard of the unit, and what was masked comes back as it was
written.
-/

namespace Inlay.Handlebars

open Callable Keyword

/-! ## Callables in code -/

/-- A text that ends no line, starts no mark and opens no callable. -/
structure Smooth (s : Text) : Prop where
  line : '\n' ∉ s
  bell : bell ∉ s
  calm : Calm s

/-- The passes over code find nothing in the fragments. -/
structure Neutral (f : Fragments) : Prop where
  separator : Smooth f.separator
  opening : Smooth f.opening
  closing : Smooth f.closing
  apostrophe : '\'' ∉ f.separator
  backslash : '\\' ∉ f.separator

theorem neutral_standard : Neutral .standard where
  separator := ⟨by decide, by decide, by decide⟩
  opening := ⟨by decide, by decide, by decide⟩
  closing := ⟨by decide, by decide, by decide⟩
  apostrophe := by decide
  backslash := by decide

/-- For each number of passes, the callable has the code after so many passes, and this code
carries the text. -/
def Bears (f : Fragments) (unit : Nat → Text) (w : Text) : Prop :=
  ∃ d g, Carries g w ∧ ∀ k, unit k = enclose f (k + d) (g k)

theorem guarded_around {c d : Char} {s : Text} (hc : Stops c) (hs : Calm s) (hline : '\n' ∉ s)
    (hd : Stops d) : Guarded (c :: (s ++ [d])) where
  last := ⟨c :: s, d, rfl, Calm.append_cons (s := []) (by decide) hc hs, hd⟩
  line := by
    have hne : ∀ {c : Char}, Stops c → '\n' ≠ c := by
      rintro c hc rfl
      exact absurd hc (by decide)
    simp [hne hc, hne hd, hline]
  head := ⟨c, s ++ [d], rfl, hc⟩

namespace Neutral

variable {f : Fragments} (hf : Neutral f)

include hf

theorem separates : Separates f :=
  ⟨hf.apostrophe, hf.backslash, hf.separator.line, hf.separator.bell⟩

theorem calm_separator {c : Char} {s : Text} (hc : Stops c) (hs : Calm s) :
    Calm (f.separator ++ c :: s) :=
  hf.separator.calm.append_cons hc hs

theorem guarded_margin : Guarded (margin f) := by
  have hparameter : Calm ("sp".toList ++ f.separator) :=
    .append_of_not_mem (by decide) hf.separator.calm
  have hline : '\n' ∉ f.separator ++ '$' :: ("sp".toList ++ f.separator) := by
    simp [hf.separator.line]
  have hmargin : margin f =
      '\'' :: ((f.separator ++ '$' :: ("sp".toList ++ f.separator)) ++ ['\'']) := by
    rw [margin_eq, List.append_assoc]
    rfl
  rw [hmargin]
  exact guarded_around (by decide) (hf.calm_separator (by decide) hparameter) hline (by decide)

theorem interrupts_splice {a b t w : Text} (ha : Calm (f.separator ++ a)) (hline : '\n' ∉ a)
    (hb : Calm (b ++ f.separator)) (hline' : '\n' ∉ b) (ht : Interrupts t w) :
    Interrupts (f.splice (a ++ '\'' :: (t ++ '\'' :: b))) (nameLiteral w) := by
  have hfirst : Guarded ('\'' :: ((f.separator ++ a) ++ ['\''])) :=
    guarded_around (by decide) ha (by simp [hf.separator.line, hline]) (by decide)
  have hlast : Guarded ('\'' :: ((b ++ f.separator) ++ ['\''])) :=
    guarded_around (by decide) hb (by simp [hf.separator.line, hline']) (by decide)
  have h := Interrupts.guard ['\''] hfirst (ht.append (.of_guarded hlast ['\'']))
  rw [splice_eq]
  simpa [nameLiteral] using h

theorem exists_passedIndent {indent : Option Text}
    (h : ∀ w, indent = some w → ∀ c ∈ w, c = ' ' ∨ c = '\t') :
    ∃ z, passedIndent f indent = z ++ ['\''] ∧ Calm z ∧ '\n' ∉ z := by
  cases indent with
  | none => exact ⟨['\''], rfl, by decide, by decide⟩
  | some w =>
      have hblank := h w rfl
      have hword : 'f' ∉ w := Text.not_mem_of_blank hblank (by decide) (by decide)
      have hnewline : '\n' ∉ w := Text.not_mem_of_blank hblank (by decide) (by decide)
      have hseparator : Calm (f.separator ++ '\'' :: w) :=
        hf.calm_separator (by decide) (.of_not_mem hword)
      refine ⟨indentParameter ++ (f.separator ++ '\'' :: w), ?_, ?_, ?_⟩
      · simp [passedIndent, nameLiteral]
      · exact .append_of_not_mem (by decide) hseparator
      · simp [indentParameter, hf.separator.line, hnewline]

theorem interrupts_call {a b t w : Text} {indent : Option Text} (ha : Calm a) (hline : '\n' ∉ a)
    (hb : 'f' ∉ b) (hline' : '\n' ∉ b) (ht : Interrupts t w)
    (hindent : ∀ w, indent = some w → ∀ c ∈ w, c = ' ' ∨ c = '\t') :
    Interrupts (f.splice (callOf f (a ++ '\'' :: (t ++ '\'' :: b)) indent [])) (nameLiteral w) := by
  obtain ⟨z, hz, hcalm, hnewline⟩ := hf.exists_passedIndent hindent
  have hcall : callOf f (a ++ '\'' :: (t ++ '\'' :: b)) indent [] =
      ("LR::p($cx, ".toList ++ a) ++
        '\'' :: (t ++ '\'' :: (b ++ (", $in, ".toList ++ (z ++ "')".toList)))) := by
    unfold callOf
    rw [hz]
    simp
  have hstart : Calm (f.separator ++ ("LR::p($cx, ".toList ++ a)) :=
    hf.calm_separator (by decide) (.append_of_not_mem (s := "R::p($cx, ".toList) (by decide) ha)
  have hend : Calm ((b ++ (", $in, ".toList ++ (z ++ "')".toList))) ++ f.separator) := by
    have hlast : Calm (z ++ '\'' :: ([')'] ++ f.separator)) :=
      hcalm.append_cons (by decide) (.append_of_not_mem (by decide) hf.separator.calm)
    have hargument : Calm (", $in, ".toList ++ (z ++ '\'' :: ([')'] ++ f.separator))) :=
      .append_of_not_mem (by decide) hlast
    rw [List.append_assoc, List.append_assoc, List.append_assoc]
    exact .append_of_not_mem hb hargument
  rw [hcall]
  refine hf.interrupts_splice hstart ?_ hend ?_ ht
  · simp [hline]
  · simp [hline', hnewline]

theorem carries_call {g : Nat → Text} {w : Text} (hg : Carries g w) (name : Text) (d : Nat) :
    Carries
      (fun k => f.splice (callOf f (nameLiteral name) none (", ".toList ++ enclose f (k + d) (g k))))
      (nameLiteral name ++ (w ++ ['\''])) := by
  have hfirst : Guarded ('\'' :: ((f.separator ++ "LR::p($cx, ".toList) ++ ['\''])) :=
    guarded_around (by decide) (hf.calm_separator (by decide) (by decide))
      (by simp [hf.separator.line]) (by decide)
  have hmiddle : Guarded ('\'' :: (", $in, '".toList ++ ['\''])) :=
    guarded_around (by decide) (by decide) (by decide) (by decide)
  have hlast : Guarded ('\'' :: ((f.closing ++ '\x7d' :: ([')'] ++ f.separator)) ++ ['\''])) := by
    refine guarded_around (by decide) ?_ ?_ (by decide)
    · exact hf.closing.calm.append_cons (by decide) (.append_of_not_mem (by decide) hf.separator.calm)
    · simp [hf.closing.line, hf.separator.line]
  have hopening : Sealed (f.opening ++ ['\'']) :=
    { last := ⟨f.opening, '\'', rfl, hf.opening.calm, by decide⟩
      line := by simp [hf.opening.line] }
  have hname : Interrupts ('\'' :: ((f.separator ++ "LR::p($cx, ".toList) ++ ['\'']) ++
      (name ++ '\'' :: (", $in, '".toList ++ ['\'']))) (['\''] ++ (name ++ ['\''])) :=
    .guard ['\''] hfirst ((Interrupts.refl name).append (.of_guarded hmiddle ['\'']))
  have h := (Carries.callable d hname hopening hg).append (.text (.of_guarded hlast ['\'']))
  have hcode : ∀ k,
      f.splice (callOf f (nameLiteral name) none (", ".toList ++ enclose f (k + d) (g k))) =
      ('\'' :: ((f.separator ++ "LR::p($cx, ".toList) ++ ['\'']) ++
        (name ++ '\'' :: (", $in, '".toList ++ ['\'']))) ++
      (", ".toList ++ (header (k + d) ++ ((f.opening ++ ['\'']) ++ g k))) ++
      '\'' :: ((f.closing ++ '\x7d' :: ([')'] ++ f.separator)) ++ ['\'']) := by
    intro k
    rw [splice_eq]
    unfold callOf enclose nameLiteral passedIndent
    simp only [List.append_assoc, List.cons_append, List.nil_append]
    rfl
  have htext : nameLiteral name ++ (w ++ ['\'']) = (['\''] ++ (name ++ ['\'']) ++ w) ++ ['\''] := by
    simp [nameLiteral]
  simp only [hcode, htext]
  exact h

theorem carries_nodeText {unit : Nat → Text → Text} {v : Text → Text} {n : Node}
    (hindent : n.BlankIndent)
    (hbody : ∀ body, n.body? = some body → Bears f (fun k => unit k body) (v body)) :
    Carries (fun k => nodeText f (unit k) n) (say v n) := by
  have hlookup : ∀ name : Text,
      lookup name = "$in[".toList ++ '\'' :: (Text.quote name ++ "']".toList) := by
    intro name
    unfold lookup
    rw [List.append_assoc]
    rfl
  cases n with
  | literal text => exact .text (.quote text)
  | «variable» name =>
      have hend : Calm ([']'] ++ f.separator) := .append_of_not_mem (by decide) hf.separator.calm
      simp only [nodeText, hlookup]
      exact .text (hf.interrupts_splice (hf.calm_separator (by decide) (by decide)) (by decide) hend
        (by decide) (.quote name))
  | reference target indent =>
      cases target with
      | named name =>
          exact .text (hf.interrupts_call (a := []) (b := []) (by decide) (by decide) (by decide)
            (by decide) (.refl name) hindent)
      | dynamic expr =>
          simp only [nodeText, hlookup]
          exact .text (hf.interrupts_call (b := [']']) (by decide) (by decide) (by decide) (by decide)
            (.quote expr) hindent)
      | block =>
          have hcalm : Calm ("R::pb($cx, $in)".toList ++ f.separator) :=
            .append_of_not_mem (by decide) hf.separator.calm
          have hguard : Guarded
              ('\'' :: ((f.separator ++ ("LR::pb($cx, $in)".toList ++ f.separator)) ++ ['\''])) :=
            guarded_around (by decide) (hf.calm_separator (by decide) hcalm)
              (by simp [hf.separator.line]) (by decide)
          rw [List.append_assoc, List.append_assoc] at hguard
          simp only [nodeText, splice_eq]
          exact .text (.of_guarded hguard ['\''])
  | block name body closed =>
      obtain ⟨d, g, hg, hunit⟩ := hbody body rfl
      simp only [nodeText, hunit]
      exact hf.carries_call hg name d
  | _ => exact .text .nil

omit hf in
theorem after_nodeText (unit unit' : Text → Text) (m : Margin) (n : Node) :
    m.after (nodeText f unit n) = m.after (nodeText f unit' n) := by
  have hsplice : ∀ e : Text, m.after (f.splice e) = .paid := by
    intro e
    rw [splice_eq, ← List.append_assoc, ← List.append_assoc, ← List.cons_append, Margin.after_append]
    rfl
  cases n with
  | block name body closed => exact (hsplice _).trans (hsplice _).symm
  | reference target indent => cases target <;> rfl
  | _ => rfl

theorem carries_bodyText (unit : Nat → Text → Text) (v : Text → Text) {ns : List Node}
    (hindent : ∀ n ∈ ns, n.BlankIndent)
    (hbody : ∀ n ∈ ns, ∀ body, n.body? = some body → Bears f (fun k => unit k body) (v body))
    (m : Margin) : Carries (fun k => bodyText f (unit k) m ns) (ns.flatMap (say v)) := by
  induction ns generalizing m with
  | nil =>
      refine .text ?_
      cases m with
      | fresh => exact .of_guarded hf.guarded_margin []
      | _ => exact .nil
  | cons n ns ih =>
      obtain ⟨hn, hns⟩ := List.forall_mem_cons.mp hindent
      obtain ⟨hbody, hbodies⟩ := List.forall_mem_cons.mp hbody
      have hafter : ∀ k, (n.start m).after (nodeText f (unit k) n) =
          (n.start m).after (nodeText f (unit 0) n) := fun k => after_nodeText _ _ _ _
      have hnode := (hf.carries_nodeText hn hbody).lead hf.guarded_margin (n.start m)
      simp only [bodyText, hafter]
      exact hnode.append (ih hns hbodies _)

end Neutral

/-! ## Code without bells -/

section

variable {f : Fragments} (hf : Neutral f) {unit : Text → Text}

include hf

theorem bell_not_mem_nodeText {n : Node} (htexts : ∀ t ∈ n.texts, bell ∉ t)
    (hindent : n.BlankIndent)
    (hbody : ∀ body, n.body? = some body → bell ∉ unit body) : bell ∉ nodeText f unit n := by
  have hquote : ∀ s : Text, bell ∉ s → bell ∉ Text.quote s :=
    fun s hs h => hs (Text.mem_of_mem_quote (by decide) h)
  have hnil : bell ∉ ([] : Text) := List.not_mem_nil
  have hsplice : ∀ e : Text, bell ∉ e → bell ∉ f.splice e := by
    intro e he
    have hne : bell ≠ '\'' := by decide
    simp [splice_eq, hf.separator.bell, he, hne]
  have hname : ∀ name : Text, bell ∉ name → bell ∉ nameLiteral name := by
    intro name hname
    have hne : bell ≠ '\'' := by decide
    simp [nameLiteral, hname, hne]
  have hlookup : ∀ name : Text, bell ∉ name → bell ∉ lookup name := by
    intro name hname h
    rcases List.mem_append.mp h with h | h
    · rcases List.mem_append.mp h with h | h
      · exact absurd h (by decide)
      · exact hquote name hname h
    · exact absurd h (by decide)
  have hcall : ∀ (a further : Text) (indent : Option Text), bell ∉ a → bell ∉ further →
      (∀ w, indent = some w → ∀ c ∈ w, c = ' ' ∨ c = '\t') → bell ∉ callOf f a indent further := by
    intro a further indent ha hfurther hblank
    have hstart : bell ∉ "LR::p($cx, ".toList := by decide
    have hinput : bell ∉ ", $in, ".toList := by decide
    have hend : bell ∉ [')'] := by decide
    have hpassed : bell ∉ passedIndent f indent := by
      cases indent with
      | none =>
          have hempty : bell ∉ nameLiteral [] := by decide
          exact hempty
      | some w =>
          have hparameter : bell ∉ indentParameter := by decide
          have hw := hname w (Text.not_mem_of_blank (hblank w rfl) (by decide) (by decide))
          simp [passedIndent, hparameter, hf.separator.bell, hw]
    unfold callOf
    simp only [List.mem_append, not_or]
    exact ⟨hstart, ha, hinput, hpassed, hfurther, hend⟩
  cases n with
  | literal text => exact hquote text (htexts _ List.mem_cons_self)
  | «variable» name => exact hsplice _ (hlookup name (htexts _ List.mem_cons_self))
  | reference target indent =>
      cases target with
      | named name =>
          have h := hname name (htexts _ List.mem_cons_self)
          exact hsplice _ (hcall _ _ indent h hnil hindent)
      | dynamic expr =>
          have h := hlookup expr (htexts _ List.mem_cons_self)
          exact hsplice _ (hcall _ _ indent h hnil hindent)
      | block => exact hsplice _ (by decide)
  | block name body closed =>
      have hunit := hbody body rfl
      have h := hname name (htexts _ List.mem_cons_self)
      refine hsplice _ (hcall _ _ none h ?_ (fun w hw => by cases hw))
      exact fun hmem => (List.mem_append.mp hmem).elim (by decide) hunit
  | _ => exact hnil

theorem bell_not_mem_bodyText {ns : List Node} (hns : ∀ n ∈ ns, bell ∉ nodeText f unit n)
    (m : Margin) : bell ∉ bodyText f unit m ns := by
  have hmargin := bell_not_mem_margin hf.separates
  induction ns generalizing m with
  | nil =>
      cases m with
      | fresh => exact hmargin
      | _ => exact List.not_mem_nil
  | cons n ns ih =>
      obtain ⟨hn, hns⟩ := List.forall_mem_cons.mp hns
      intro h
      rcases List.mem_append.mp h with h | h
      · exact (Text.mem_of_mem_lead h).elim hmargin hn
      · exact ih hns _ h

theorem bell_not_mem_enclose {code : Text} (hcode : bell ∉ code) (k : Nat) :
    bell ∉ enclose f k code := by
  have hquote : bell ≠ '\'' := by decide
  have hbrace : bell ≠ '\x7d' := by decide
  simp [enclose, bell_not_mem_header, hf.opening.bell, hf.closing.bell, hcode, hquote, hbrace]

omit hf in
theorem bell_not_mem_texts_called {rename : Text → Text}
    (hrename : ∀ name, bell ∉ name → bell ∉ rename name) {n : Node} (h : ∀ t ∈ n.texts, bell ∉ t) :
    ∀ t ∈ (n.called rename).texts, bell ∉ t := by
  cases n with
  | reference target indent =>
      cases target with
      | named name => exact List.forall_mem_singleton.mpr (hrename name (h name List.mem_cons_self))
      | _ => exact h
  | block name body closed =>
      obtain ⟨hname, hbody⟩ := List.forall_mem_cons.mp h
      exact List.forall_mem_cons.mpr ⟨hrename name hname, hbody⟩
  | _ => exact h

theorem bell_not_mem_nodeText_of_mem {rename : Text → Text}
    (hrename : ∀ name, bell ∉ name → bell ∉ rename name) {text : Text} (htext : bell ∉ text)
    {n : Node} (hn : n ∈ text.nodes) (hbody : ∀ body, n.body? = some body → bell ∉ unit body) :
    bell ∉ nodeText f unit (n.called rename) := by
  apply bell_not_mem_nodeText hf
  · apply bell_not_mem_texts_called hrename
    exact fun t ht h => htext (Node.texts_subset true text n hn t ht h)
  · intro w hw
    rw [Node.indent?_called] at hw
    exact Node.blankIndent_of_mem hn w hw
  · rwa [Node.body?_called]

theorem bell_not_mem_unitText {rename : Text → Text}
    (hrename : ∀ name, bell ∉ name → bell ∉ rename name) {text : Text} (htext : bell ∉ text)
    (k : Nat) : bell ∉ unitText f rename k text := by
  rw [unitText_eq]
  apply bell_not_mem_enclose hf
  apply bell_not_mem_bodyText hf
  intro m hm
  obtain ⟨n, hn, rfl⟩ := List.mem_map.mp hm
  apply bell_not_mem_nodeText_of_mem hf hrename htext hn
  intro body hbody
  have hless := (Node.body?_isInfix hn hbody).2
  exact bell_not_mem_unitText hrename (Node.not_mem_body htext hn hbody) (k + 1)
termination_by text.length

end

/-! ## The nodes of a masked text -/

theorem Quiet.bell_not_mem_writtenName {rename : Text → Text} (h : Quiet rename) (name : Text)
    (hname : bell ∉ name) : bell ∉ writtenName rename name :=
  (h name hname).bell_not_mem_unmask

section

variable {f : Fragments} {rename : Text → Text} (hrename : Quiet rename) {text : Text}
  (htext : bell ∉ text)

include htext

theorem unmask_mask_body {n : Node} (hn : n ∈ text.nodes) {body : Text}
    (hbody : n.body? = some body) : unmask (mask body) = body :=
  unmask_mask (Node.not_mem_body htext hn hbody)

theorem bell_not_mem_texts {n : Node} (hn : n ∈ text.nodes) : ∀ t ∈ n.texts, bell ∉ t :=
  fun t ht h => htext (Node.texts_subset true text n hn t ht h)

/-- Where names stand for themselves, they are written as they are. -/
theorem renamedNodes_writtenName_id : text.renamedNodes (writtenName id) = text.nodes := by
  have hnode : ∀ n ∈ text.nodes, n.called (writtenName id) = n := by
    intro n hn
    have hname : ∀ name ∈ n.texts, writtenName id name = name :=
      fun name hmem => unmask_mask (bell_not_mem_texts htext hn name hmem)
    cases n with
    | reference target indent =>
        cases target with
        | named name => simp only [Node.called, hname name List.mem_cons_self]
        | _ => rfl
    | block name body closed => simp only [Node.called, hname name List.mem_cons_self]
    | _ => rfl
  rw [Text.renamedNodes, List.map_congr_left hnode, List.map_id']

theorem renamedNodes_mask (rename : Text → Text) : (mask text).renamedNodes rename =
    (text.nodes.map (Node.map mask)).map (Node.called rename) := by
  rw [Text.renamedNodes, nodes_mask htext]

theorem exists_of_mem_renamedNodes_mask {m : Node} (hm : m ∈ (mask text).renamedNodes rename) :
    ∃ n ∈ text.nodes, m = (n.map mask).called rename ∧
      ∀ body, m.body? = some body → ∃ inner, n.body? = some inner ∧ mask inner = body := by
  rw [renamedNodes_mask htext, List.map_map] at hm
  obtain ⟨n, hn, rfl⟩ := List.mem_map.mp hm
  refine ⟨n, hn, rfl, fun body hbody => Node.exists_body?_of_map ?_⟩
  exact (Node.body?_called rename _).symm.trans hbody

include hrename

theorem veils_masked_nodeText {n : Node} (hn : n ∈ text.nodes) (unit : Text → Text) :
    Veils (nodeText f (fun body => unit (unmask body)) ((n.map mask).called rename))
      (nodeText f unit (n.called (writtenName rename))) := by
  apply veils_nodeText hrename (bell_not_mem_texts htext hn)
  intro body hbody
  rw [unmask_mask_body htext hn hbody]

theorem veils_masked_bodyText (unit : Text → Text) (m : Margin) :
    Veils (bodyText f (fun body => unit (unmask body)) m ((mask text).renamedNodes rename))
      (bodyText f unit m (text.renamedNodes (writtenName rename))) := by
  rw [renamedNodes_mask htext]
  apply veils_bodyText hrename
  · intro n hn
    exact bell_not_mem_texts htext hn
  · intro n hn body hbody
    rw [unmask_mask_body htext hn hbody]

/-- The marks of a masked text without bells are found. -/
theorem unmark_masked (hf : Separates f) {view : View} (hview : Indenting f view) {unit : Text → Text}
    (hbell : ∀ n ∈ text.nodes, bell ∉ nodeText f unit (n.called (writtenName rename))) :
    unmark f (Text.laid (margin f) .fresh (((mask text).renamedNodes rename).flatMap
      (nodeCode view fun body => unit (unmask body)))) =
        bodyText f (fun body => unit (unmask body)) .fresh ((mask text).renamedNodes rename) := by
  have hunled : ¬ margin f <:+ [] := by
    rw [List.suffix_nil, margin_eq]
    exact List.cons_ne_nil _ _
  refine unmark_laid hf hview ?_ (y := []) (Text.parted_of_not_mem List.not_mem_nil) hunled
  intro masked hmasked m
  obtain ⟨n, hn, rfl, -⟩ := exists_of_mem_renamedNodes_mask htext hmasked
  apply ((veils_masked_nodeText hrename htext hn unit).lead (margin f) m).unmarked
  intro h
  exact (Text.mem_of_mem_lead h).elim (bell_not_mem_margin hf) (hbell n hn)

omit hrename in
theorem carries_masked (hf : Neutral f) {unit : Nat → Text → Text} {v : Text → Text}
    (hbody : ∀ n ∈ text.nodes, ∀ body, n.body? = some body →
      Bears f (fun k => unit k body) (v body)) :
    Carries
      (fun k => bodyText f (fun body => unit k (unmask body)) .fresh
        ((mask text).renamedNodes rename))
      (((mask text).renamedNodes rename).flatMap (say fun body => v (unmask body))) := by
  apply hf.carries_bodyText fun k body => unit k (unmask body)
  · intro m hm w hw
    obtain ⟨n, hn, -, hindent⟩ := Text.exists_of_mem_renamedNodes hm
    exact Node.blankIndent_of_mem hn w (hindent.symm.trans hw)
  · intro m hm body hmap
    obtain ⟨n, hn, -, hbodies⟩ := exists_of_mem_renamedNodes_mask htext hm
    obtain ⟨inner, hinner, rfl⟩ := hbodies body hmap
    rw [unmask_mask_body htext hn hinner]
    exact hbody n hn inner hinner

/-- What is heard of a text is the text of its nodes, with masked keywords. -/
theorem interrupts_heard : Interrupts (heard rename text) (voice (writtenName rename) text) := by
  have hname : ∀ name : Text, Interrupts (nameLiteral (mask name)) (nameLiteral name) :=
    fun name => .char '\'' ((Interrupts.mask name).append (.refl ['\'']))
  have hcalled : ∀ name : Text, bell ∉ name →
      Interrupts (nameLiteral (rename (mask name))) (nameLiteral (writtenName rename name)) :=
    fun name h => .char '\'' ((hrename name h).interrupts_unmask.append (.refl ['\'']))
  have hnode : ∀ n ∈ text.nodes, Interrupts
      (say (fun body => voice (writtenName rename) (unmask body)) ((n.map mask).called rename))
      (say (voice (writtenName rename)) (n.called (writtenName rename))) := by
    intro n hn
    have htexts := bell_not_mem_texts htext hn
    cases n with
    | literal text => exact .mask text
    | «variable» name => exact hname name
    | reference target indent =>
        cases target with
        | named name => exact hcalled name (htexts name List.mem_cons_self)
        | dynamic expr => exact hname expr
        | block => exact .refl _
    | block name body closed =>
        simp only [Node.map, Node.called, say, unmask_mask_body htext hn rfl]
        exact (hcalled name (htexts name List.mem_cons_self)).append (.refl _)
    | _ => exact .nil
  rw [heard, renamedNodes_mask htext, voice_eq, Text.renamedNodes]
  generalize text.nodes = ns at hnode
  induction ns with
  | nil => exact .nil
  | cons n ns ih =>
      obtain ⟨hn, hns⟩ := List.forall_mem_cons.mp hnode
      exact hn.append (ih hns)

end

/-! ## Units -/

section

variable {f : Fragments} (hf : Neutral f) {rename : Text → Text}

include hf

/-- What becomes of the code of a masked text in a callable, if no callable opens in what is heard
of it. Each unit is given for each number of passes over it. -/
theorem unmask_threadIndent (hrename : Quiet rename) {view : View} (hview : Indenting f view)
    (unit : Nat → Text → Text) (v : Text → Text) {text : Text} (htext : bell ∉ text)
    (hunit : ∀ n ∈ text.nodes, ∀ body, n.body? = some body →
      Bears f (fun k => unit k body) (v body) ∧ ∀ k, bell ∉ unit k body)
    (hcalm : Calm (((mask text).renamedNodes rename).flatMap (say fun body => v (unmask body)))) :
    unmask (threadIndent f (((mask text).renamedNodes rename).flatMap
      (nodeCode view fun body => unit 0 (unmask body)))) =
        bodyText f (unit 1) .fresh (text.renamedNodes (writtenName rename)) := by
  have hbell : ∀ k, ∀ n ∈ text.nodes, bell ∉ nodeText f (unit k) (n.called (writtenName rename)) := by
    intro k n hn
    apply bell_not_mem_nodeText_of_mem hf hrename.bell_not_mem_writtenName htext hn
    exact fun body hbody => (hunit n hn body hbody).2 k
  have hcarries : Carries
      (fun k => bodyText f (fun body => unit k (unmask body)) .fresh ((mask text).renamedNodes rename))
      (((mask text).renamedNodes rename).flatMap (say fun body => v (unmask body))) :=
    carries_masked htext hf fun n hn body hbody => (hunit n hn body hbody).1
  rw [threadIndent_eq, Text.indentLines_eq_laid,
    unmark_masked hrename htext hf.separates hview (hbell 0), sweep_eq_capture _ _ _ (by simp),
    hcarries.capture hcalm 0 false]
  apply (veils_masked_bodyText hrename htext (unit 1) .fresh).unmask_eq
  apply bell_not_mem_bodyText hf
  intro m hm
  obtain ⟨n, hn, rfl⟩ := List.mem_map.mp hm
  exact hbell 1 n hn

/-- The units of a text, one for each number of passes, carry the text with its bodies. -/
theorem bears_unitText (text : Text) (j : Nat) :
    Bears f (fun k => unitText f rename (k + j) text) (voice rename text) := by
  refine ⟨j, fun k => bodyText f (unitText f rename (k + j + 1)) .fresh (text.renamedNodes rename),
    ?_, fun k => unitText_eq f rename (k + j) text⟩
  rw [voice_eq]
  apply hf.carries_bodyText fun k => unitText f rename (k + j + 1)
  · intro m hm w hw
    obtain ⟨n, hn, -, hindent⟩ := Text.exists_of_mem_renamedNodes hm
    exact Node.blankIndent_of_mem hn w (hindent.symm.trans hw)
  · intro m hm body hbody
    obtain ⟨n, hn, hsame, -⟩ := Text.exists_of_mem_renamedNodes hm
    have hless := (Node.body?_isInfix hn (hsame.symm.trans hbody)).2
    exact bears_unitText body (j + 1)
termination_by text.length

omit hf in
theorem renamedUnit_mask (rename : Text → Text) (flags : Flags) (text : Text) :
    renamedUnit rename flags f (mask text) = renamedUnit rename flags f text := by
  rw [renamedUnit_eq, mask_mask, ← renamedUnit_eq]

/-- A unit can be written down from its text, if no callable opens in what is heard of it. -/
theorem renamedUnit_eq_unitText (hrename : Quiet rename) {flags : Flags}
    (hflags : flags.noIndent = false) {text : Text} (htext : bell ∉ text)
    (hcalm : Calm (heard rename text)) :
    renamedUnit rename flags f text = unitText f (writtenName rename) 0 text := by
  have hview := indenting_unitView hflags f
  have hblock : ∀ m ∈ (mask text).renamedNodes rename,
      nodeCode (unitView flags f) (renamedUnit rename flags f) m = nodeCode (unitView flags f)
        (fun body => unitText f (writtenName rename) 0 (unmask body)) m := by
    intro m hm
    apply nodeCode_congr_unit
    rintro name body closed rfl
    have hvoice := isInfix_flatMap_say (v := fun body => voice (writtenName rename) (unmask body)) hm
    -- a body is compiled apart, and calm in what is heard of the whole, so it is its own unit
    obtain ⟨n, hn, -, hbody⟩ := exists_of_mem_renamedNodes_mask htext hm
    obtain ⟨inner, hinner, rfl⟩ := hbody body rfl
    have hless := (Node.body?_isInfix hn hinner).2
    have hbell := Node.not_mem_body htext hn hinner
    rw [unmask_mask hbell] at hvoice ⊢
    rw [renamedUnit_mask]
    have hbodyCalm := (interrupts_heard hrename hbell).calm (hcalm.of_isInfix hvoice)
    exact renamedUnit_eq_unitText hrename hflags hbell hbodyCalm
  have hunit : ∀ n ∈ text.nodes, ∀ body, n.body? = some body →
      Bears f (fun k => unitText f (writtenName rename) k body) (voice (writtenName rename) body) ∧
        ∀ k, bell ∉ unitText f (writtenName rename) k body := by
    intro n hn body hbody
    have hbell := Node.not_mem_body htext hn hbody
    exact ⟨bears_unitText hf body 0, bell_not_mem_unitText hf hrename.bell_not_mem_writtenName hbell⟩
  have hcode := unmask_threadIndent hf hrename hview (unitText f (writtenName rename))
    (voice (writtenName rename)) htext hunit hcalm
  rw [renamedUnit_eq, List.flatMap_congr hblock, hview.callable_eq, hcode, unitText_eq]
termination_by text.length

end

end Inlay.Handlebars
