import Inlay.Proofs.CanonicalUnits
import Inlay.Proofs.NestedCallables

/-!
# The text of a unit

A unit can be written down without masks and marks, and without a pass over
its code: node by node, with the margin where a line begins, and with the
callables of bodies in the place. A callable captures the margin once for
each unit that it is nested in. This is the code of the unit if no callable
opens in what the pass over it comes to see: its own text with masked
keywords, and the text of the bodies in it as it was written. The names of
partials are those that preprocessing gave to them.
-/

namespace Inlay

open Callable Keyword

/-- The node is a call that is alone on its line. -/
def Node.alone : Node → Bool
  | .reference (.named _) (some _) => true
  | .reference (.dynamic _) (some _) => true
  | _ => false

/-- The margin that a node starts with. A call that is alone on its line indents itself. -/
def Node.start (m : Margin) (n : Node) : Margin :=
  if n.alone then .paid else m

theorem Node.exists_body?_of_map {g : Text → Text} {n : Node} {body : Text}
    (h : (n.map g).body? = some body) : ∃ inner, n.body? = some inner ∧ g inner = body := by
  cases n with
  | block name inner closed => exact ⟨inner, rfl, Option.some.inj h⟩
  | inlinePartial name inner closed => exact ⟨inner, rfl, Option.some.inj h⟩
  | _ => cases h

namespace Handlebars

/-! ## Nodes -/

/-- The indentation that a call passes on. -/
def passedIndent (f : Fragments) : Option Text → Text
  | none => nameLiteral []
  | some w => indentParameter ++ (f.separator ++ nameLiteral w)

/-- The call of a partial, with further arguments. -/
def callOf (f : Fragments) (name : Text) (indent : Option Text) (further : Text) : Text :=
  "LR::p($cx, ".toList ++ (name ++ (", $in, ".toList ++
    (passedIndent f indent ++ (further ++ [')']))))

/-- The code of a node in a unit, without marks. -/
def nodeText (f : Fragments) (unit : Text → Text) : Node → Text
  | .literal text => text.quote
  | .variable name => f.splice (lookup name)
  | .reference (.named name) indent => f.splice (callOf f (nameLiteral name) indent [])
  | .reference (.dynamic expr) indent => f.splice (callOf f (lookup expr) indent [])
  | .reference .block _ => f.splice "LR::pb($cx, $in)".toList
  | .block name body _ => f.splice (callOf f (nameLiteral name) none (", ".toList ++ unit body))
  | .inlinePartial _ _ _ => []
  | .strayClose _ => []

/-- The code of nodes with the margins of its lines. -/
def bodyText (f : Fragments) (unit : Text → Text) : Margin → List Node → Text
  | m, [] => m.closing (margin f)
  | m, n :: ns => Text.lead (margin f) (n.start m) (nodeText f unit n) ++
      bodyText f unit ((n.start m).after (nodeText f unit n)) ns

/-- A callable with this header around the code of a literal. -/
def enclose (f : Fragments) (k : Nat) (code : Text) : Text :=
  header k ++ (f.opening ++ '\'' :: (code ++ '\'' :: (f.closing ++ ['\x7d'])))

/-- The unit of a text, nested in so many others, where partials have the names that the renaming
says. -/
def unitText (f : Fragments) (rename : Text → Text) (k : Nat) (text : Text) : Text :=
  enclose f k <| bodyText f
    (fun body => if body.length < text.length then unitText f rename (k + 1) body else [])
    .fresh (text.renamedNodes rename)
termination_by text.length

/-! ## What is heard in a unit -/

/-- What a node has of its text, where bodies have some text of theirs. Names stand between
apostrophes. -/
def say (v : Text → Text) : Node → Text
  | .literal text => text
  | .variable name => nameLiteral name
  | .reference (.named name) _ => nameLiteral name
  | .reference (.dynamic expr) _ => nameLiteral expr
  | .reference .block _ => ['\'']
  | .block name body _ => nameLiteral name ++ (v body ++ ['\''])
  | .inlinePartial _ _ _ => []
  | .strayClose _ => []

/-- The text of the nodes of a text, and of all bodies in it. -/
def voice (rename : Text → Text) (text : Text) : Text :=
  (text.renamedNodes rename).flatMap <|
    say fun body => if body.length < text.length then voice rename body else []
termination_by text.length

/-- The name that comes to be written for a name. The renaming is one of masked names. -/
def writtenName (rename : Text → Text) (name : Text) : Text :=
  unmask (rename (mask name))

/-- What the pass over a unit meets of its text: the keywords of the text itself are masked, and
those of bodies are not masked any more. -/
def heard (rename : Text → Text) (text : Text) : Text :=
  ((mask text).renamedNodes rename).flatMap <|
    say fun body => voice (writtenName rename) (unmask body)

theorem nodeText_congr (f : Fragments) {unit unit' : Text → Text} {n : Node}
    (h : ∀ body, n.body? = some body → unit body = unit' body) :
    nodeText f unit n = nodeText f unit' n := by
  cases n with
  | block name body closed =>
      simp only [nodeText]
      rw [h body rfl]
  | reference target indent => cases target <;> rfl
  | _ => rfl

theorem bodyText_congr (f : Fragments) {unit unit' : Text → Text} {ns : List Node}
    (h : ∀ n ∈ ns, ∀ body, n.body? = some body → unit body = unit' body) (m : Margin) :
    bodyText f unit m ns = bodyText f unit' m ns := by
  induction ns generalizing m with
  | nil => rfl
  | cons n ns ih =>
      obtain ⟨hn, hns⟩ := List.forall_mem_cons.mp h
      rw [bodyText, nodeText_congr f hn, ih hns, bodyText]

theorem unitText_eq (f : Fragments) (rename : Text → Text) (k : Nat) (text : Text) :
    unitText f rename k text = enclose f k
      (bodyText f (unitText f rename (k + 1)) .fresh (text.renamedNodes rename)) := by
  rw [unitText]
  refine congrArg (enclose f k) (bodyText_congr f (fun m hm body hbody => ?_) .fresh)
  obtain ⟨n, hn, hsame, -⟩ := Text.exists_of_mem_renamedNodes hm
  exact if_pos (Node.body?_isInfix hn (hsame.symm.trans hbody)).2

theorem say_congr {v v' : Text → Text} {n : Node}
    (h : ∀ body, n.body? = some body → v body = v' body) : say v n = say v' n := by
  cases n with
  | block name body closed =>
      simp only [say]
      rw [h body rfl]
  | reference target indent => cases target <;> rfl
  | _ => rfl

theorem voice_eq (rename : Text → Text) (text : Text) :
    voice rename text = (text.renamedNodes rename).flatMap (say (voice rename)) := by
  rw [voice]
  refine List.flatMap_congr fun m hm => say_congr fun body hbody => ?_
  obtain ⟨n, hn, hsame, -⟩ := Text.exists_of_mem_renamedNodes hm
  exact if_pos (Node.body?_isInfix hn (hsame.symm.trans hbody)).2

theorem isInfix_flatMap_say {v : Text → Text} {ns : List Node} {name body : Text} {closed : Bool}
    (h : .block name body closed ∈ ns) : v body <:+: ns.flatMap (say v) := by
  obtain ⟨before, after, rfl⟩ := List.append_of_mem h
  refine ⟨before.flatMap (say v) ++ nameLiteral name, '\'' :: after.flatMap (say v), ?_⟩
  simp [say]

/-! ## Taking marks out -/

/-- In the view lines are indented, by the parameter. -/
structure Indenting (f : Fragments) (v : View) : Prop where
  fragments : v.fragments = f
  indents : v.flags.noIndent = false
  bound : v.indentBound = true

theorem indenting_unitView {flags : Flags} (hflags : flags.noIndent = false) (f : Fragments) :
    Indenting f (unitView flags f) := by
  refine ⟨rfl, hflags, ?_⟩
  show (!flags.noIndent) = true
  rw [hflags]
  rfl

theorem splice_eq (f : Fragments) (e : Text) :
    f.splice e = '\'' :: (f.separator ++ (e ++ (f.separator ++ ['\'']))) := by
  simp [Fragments.splice]

section

variable {f : Fragments} {v : View} (hv : Indenting f v) {unit : Text → Text}

include hv

theorem Indenting.indentArgument_eq (indent : Option Text) :
    indentArgument v indent = ", ".toList ++ passedIndent f indent := by
  unfold indentArgument passedIndent nameLiteral
  rw [hv.fragments, hv.indents, hv.bound]
  cases indent with
  | none => rfl
  | some w =>
      simp only [Bool.false_eq_true, if_false, if_true, List.append_assoc, List.cons_append]

theorem Indenting.dispatch_eq (name : Text) (indent : Option Text) :
    dispatch v name indent none =
      (if indent.isSome then selfIndented else []) ++ f.splice (callOf f name indent []) := by
  unfold dispatch callOf
  rw [hv.indentArgument_eq, hv.fragments, hv.indents, hv.bound]
  simp only [List.append_assoc]
  cases indent <;> rfl

theorem Indenting.dispatch_block_eq (name unit : Text) :
    dispatch v name none (some unit) = f.splice (callOf f name none (", ".toList ++ unit)) := by
  unfold dispatch callOf
  rw [hv.indentArgument_eq, hv.fragments]
  simp only [List.append_assoc]
  rfl

theorem Indenting.callable_eq (code : Text) :
    callable v code = enclose f 0 (unmask (threadIndent f code)) := by
  unfold callable define enclose
  rw [hv.fragments, hv.indents]
  simp only [Bool.false_eq_true, if_false, List.append_assoc, List.cons_append]
  rfl

/-- A call that is alone on its line has the mark before it. -/
theorem Indenting.nodeCode_eq (n : Node) :
    nodeCode v unit n = (if n.alone then selfIndented else []) ++ nodeText f unit n := by
  cases n with
  | reference target indent =>
      cases target with
      | block => exact congrArg (fun f : Fragments => f.splice _) hv.fragments
      | named name =>
          refine (hv.dispatch_eq (nameLiteral name) indent).trans ?_
          cases indent <;> rfl
      | dynamic expr =>
          refine (hv.dispatch_eq (lookup expr) indent).trans ?_
          cases indent <;> rfl
  | block name body closed => exact hv.dispatch_block_eq (nameLiteral name) (unit body)
  | «variable» name => exact congrArg (fun f : Fragments => f.splice _) hv.fragments
  | _ => rfl

end

theorem nodeText_cases (f : Fragments) (unit : Text → Text) (n : Node) :
    nodeText f unit n = [] ∨ (∃ text, nodeText f unit n = Text.quote text ∧ text ≠ []) ∨
      ∃ e c, nodeText f unit n = f.splice (e ++ [c]) ∧ (c = ')' ∨ c = ']') := by
  have hlookup : ∀ name : Text, lookup name = ("$in['".toList ++ name.quote ++ ['\'']) ++ [']'] := by
    intro name
    unfold lookup
    rw [List.append_assoc, List.append_assoc, List.append_assoc]
    rfl
  have hcall : ∀ name indent further, callOf f name indent further = ("LR::p($cx, ".toList ++ (name ++
      (", $in, ".toList ++ (passedIndent f indent ++ further)))) ++ [')'] := by
    intro name indent further
    unfold callOf
    simp only [List.append_assoc]
  cases n with
  | literal text =>
      by_cases h : text = []
      · subst h
        exact .inl rfl
      · exact .inr (.inl ⟨text, rfl, h⟩)
  | «variable» name => exact .inr (.inr ⟨_, _, congrArg f.splice (hlookup name), .inr rfl⟩)
  | reference target indent =>
      cases target with
      | block => exact .inr (.inr ⟨"LR::pb($cx, $in".toList, ')', rfl, .inl rfl⟩)
      | _ => exact .inr (.inr ⟨_, _, congrArg f.splice (hcall _ _ _), .inl rfl⟩)
  | block name body closed => exact .inr (.inr ⟨_, _, congrArg f.splice (hcall _ _ _), .inl rfl⟩)
  | _ => exact .inl rfl

theorem mem_of_margin_suffix {f : Fragments} {s : Text} {c d : Char}
    (h : margin f <:+ s ++ [c, d]) : c ∈ margin f := by
  have hlen : [c, d].length ≤ (margin f).length := by
    rw [margin_eq]
    simp [indentParameter]
    omega
  have hsuffix := List.suffix_of_suffix_length_le (List.suffix_append s [c, d]) h hlen
  exact hsuffix.subset List.mem_cons_self

section

variable {f : Fragments} (hf : Separates f)

include hf

theorem backslash_not_mem_margin : '\\' ∉ margin f := by
  have hparameter : '\\' ∉ indentParameter := by decide
  have hquote : '\\' ≠ '\'' := by decide
  simp [margin_eq, hf.backslash, hparameter, hquote]

theorem not_margin_suffix_quote {s : Text} (hs : s ≠ []) (x : Text) (m : Margin) :
    ¬ margin f <:+ x ++ Text.lead (margin f) m s.quote := by
  obtain ⟨s, d, rfl⟩ := List.eq_nil_or_concat s |>.resolve_left hs
  have hmargin : margin f = ('\'' :: (f.separator ++ (indentParameter ++ f.separator))) ++ ['\''] := by
    simp [margin_eq]
  rw [List.concat_eq_append, Text.quote_append, Text.lead_append]
  by_cases hd : d = '\''
  · subst hd
    have hlead : Text.lead (margin f) (m.after (Text.quote s)) (Text.quote ['\'']) =
        (m.after (Text.quote s)).owed (margin f) ++ ['\\', '\''] := rfl
    rw [hlead, ← List.append_assoc, ← List.append_assoc]
    exact fun h => backslash_not_mem_margin hf (mem_of_margin_suffix h)
  · have hlead : Text.lead (margin f) (m.after (Text.quote s)) (Text.quote [d]) =
        (m.after (Text.quote s)).owed (margin f) ++ [d] := by
      simp [Text.quote, hd, Text.lead_cons]
    rw [hlead, ← List.append_assoc, ← List.append_assoc]
    generalize x ++ Text.lead (margin f) m (Text.quote s) ++ _ = front
    rw [hmargin]
    rintro ⟨t, ht⟩
    rw [← List.append_assoc] at ht
    have hlast := List.append_inj_right' ht rfl
    exact hd (List.cons.inj hlast).1.symm

theorem not_margin_suffix_splice {e : Text} {c : Char} (hc : c = ')' ∨ c = ']') (x : Text)
    (m : Margin) : ¬ margin f <:+ x ++ Text.lead (margin f) m (f.splice (e ++ [c])) := by
  have hsplit : f.splice (e ++ [c]) =
      ('\'' :: (f.separator ++ e)) ++ (c :: (f.separator ++ ['\''])) := by
    simp [splice_eq]
  have hline : '\n' ∉ c :: (f.separator ++ ['\'']) := by
    rcases hc with rfl | rfl <;> simp [hf.newline]
  have hmargin : margin f =
      ('\'' :: (f.separator ++ ['$', 's'])) ++ ('p' :: (f.separator ++ ['\''])) := by
    simp [margin_eq, indentParameter]
  rw [hsplit, Text.lead_append, (Text.lead_of_line (List.cons_ne_nil _ _) hline _ _).1,
    ← List.append_assoc, ← List.append_assoc]
  generalize x ++ Text.lead (margin f) m ('\'' :: (f.separator ++ e)) ++ _ = front
  rw [hmargin]
  rintro ⟨t, ht⟩
  rw [← List.append_assoc] at ht
  have hlast := List.append_inj_right' ht rfl
  rcases hc with rfl | rfl <;> exact absurd (List.cons.inj hlast).1 (by decide)

theorem not_margin_suffix_nodeText {unit : Text → Text} {n : Node} (hn : nodeText f unit n ≠ [])
    (x : Text) (m : Margin) : ¬ margin f <:+ x ++ Text.lead (margin f) m (nodeText f unit n) := by
  obtain h | ⟨text, h, htext⟩ | ⟨e, c, h, hc⟩ := nodeText_cases f unit n
  · exact absurd h hn
  · rw [h]
    exact not_margin_suffix_quote hf htext x m
  · rw [h]
    exact not_margin_suffix_splice hf hc x m

theorem callStart_line : '\n' ∉ callStart f := by
  simp [callStart, hf.newline]

omit hf in
/-- A call begins as what follows a mark. -/
theorem exists_nodeText_of_alone {n : Node} (h : n.alone = true) (unit : Text → Text) :
    ∃ s, nodeText f unit n = callStart f ++ s := by
  have hcall : ∀ name indent, ∃ s, f.splice (callOf f name indent []) = callStart f ++ s := by
    intro name indent
    refine ⟨"::p($cx, ".toList ++ (name ++ (", $in, ".toList ++ (passedIndent f indent ++ [')']))) ++
      (f.separator ++ ['\'']), ?_⟩
    rw [splice_eq, callStart_append]
    unfold callOf
    simp only [List.append_assoc]
    rfl
  cases n with
  | reference target indent =>
      cases target with
      | block => cases h
      | _ => exact hcall _ _
  | _ => cases h

/-- Nodes with margins and marks, and without the marks and the margins right before them. -/
theorem unmark_laid {v : View} (hv : Indenting f v) {unit : Text → Text} {ns : List Node}
    (hns : ∀ n ∈ ns, ∀ m, Unmarked (Text.lead (margin f) m (nodeText f unit n))) {m : Margin}
    {y : Text} (hy : Unmarked y) (hunled : ¬ margin f <:+ y) :
    unmark f (y ++ Text.laid (margin f) m (ns.flatMap (nodeCode v unit))) =
      y ++ bodyText f unit m ns := by
  induction ns generalizing m y with
  | nil =>
      have hclosing : bell ∉ m.closing (margin f) := by
        cases m with
        | fresh => exact bell_not_mem_margin hf
        | _ => exact List.not_mem_nil
      exact unmark_of_unmarked f (hy.append (Text.parted_of_not_mem hclosing))
  | cons n ns ih =>
      obtain ⟨hn, hns⟩ := List.forall_mem_cons.mp hns
      -- what follows the mark, if there is one
      have hnode : ∀ (m : Margin) (y : Text), Unmarked y → ¬ margin f <:+ y →
          unmark f (y ++ Text.laid (margin f) m
            (nodeText f unit n ++ ns.flatMap (nodeCode v unit))) =
          y ++ (Text.lead (margin f) m (nodeText f unit n) ++
            bodyText f unit (m.after (nodeText f unit n)) ns) := by
        intro m y hy hunled
        rw [Text.laid_append]
        by_cases hempty : nodeText f unit n = []
        · rw [hempty]
          exact ih hns hy hunled
        · rw [← List.append_assoc, ih hns (hy.append (hn m)) (not_margin_suffix_nodeText hf hempty y m),
            List.append_assoc]
      rw [List.flatMap_cons, hv.nodeCode_eq, bodyText, Node.start]
      cases halone : n.alone with
      | false => exact hnode m y hy hunled
      | true =>
          obtain ⟨s, hs⟩ := exists_nodeText_of_alone halone unit
          have hstart : Text.laid (margin f) .paid (nodeText f unit n ++ ns.flatMap (nodeCode v unit)) =
              callStart f ++ Text.laid (margin f) .paid (s ++ ns.flatMap (nodeCode v unit)) := by
            have hne : callStart f ≠ [] := List.cons_ne_nil _ _
            rw [hs, List.append_assoc, Text.laid_append_of_line hne (callStart_line hf)]
            rfl
          have hrest := hnode .paid [] (Text.parted_of_not_mem List.not_mem_nil) ?_
          · rw [List.nil_append, List.nil_append, hstart] at hrest
            simp only [if_true]
            rw [List.append_assoc, Text.laid_append_of_line (by decide) (by decide), hstart, ← hrest]
            cases m with
            | paid => exact unmark_unled hf hy hunled _
            | _ => exact unmark_led hf hy _
          · rw [List.suffix_nil, margin_eq]
            exact List.cons_ne_nil _ _

end

/-! ## Texts without bells -/

/-- The text is one without bells, as it was written or with masked keywords. -/
def Clear (s : Text) : Prop :=
  ∃ w, bell ∉ w ∧ (s = w ∨ s = mask w)

namespace Clear

variable {s : Text}

theorem of_not_mem (h : bell ∉ s) : Clear s :=
  ⟨s, h, .inl rfl⟩

theorem masked (h : Clear s) : Clear (mask s) := by
  obtain ⟨w, hw, rfl | rfl⟩ := h
  · exact ⟨s, hw, .inr rfl⟩
  · exact ⟨w, hw, .inr (mask_mask w)⟩

theorem bell_not_mem_unmask (h : Clear s) : bell ∉ unmask s := by
  obtain ⟨w, hw, rfl | rfl⟩ := h
  · rwa [(Veils.refl s).unmask_eq hw]
  · rwa [unmask_mask hw]

theorem veils_unmask (h : Clear s) : Veils s (unmask s) := by
  obtain ⟨w, hw, rfl | rfl⟩ := h
  · rw [(Veils.refl s).unmask_eq hw]
    exact .refl s
  · rw [unmask_mask hw]
    exact .mask w

theorem interrupts_unmask (h : Clear s) : Interrupts s (unmask s) := by
  obtain ⟨w, hw, rfl | rfl⟩ := h
  · rw [(Veils.refl s).unmask_eq hw]
    exact .refl s
  · rw [unmask_mask hw]
    exact .mask w

theorem body (h : Clear s) {n : Node} (hn : n ∈ s.nodes) {body : Text} (hbody : n.body? = some body) :
    Clear body := by
  obtain ⟨w, hw, rfl | rfl⟩ := h
  · exact of_not_mem (Node.not_mem_body hw hn hbody)
  · rw [nodes_mask hw] at hn
    obtain ⟨raw, hraw, rfl⟩ := List.mem_map.mp hn
    obtain ⟨inner, hinner, rfl⟩ := Node.exists_body?_of_map hbody
    exact (of_not_mem (Node.not_mem_body hw hraw hinner)).masked

end Clear

/-- The renaming of masked names brings no bells. -/
def Quiet (rename : Text → Text) : Prop :=
  ∀ name, bell ∉ name → Clear (rename (mask name))

theorem quiet_id : Quiet id :=
  fun _ hname => (Clear.of_not_mem hname).masked

/-! ## Masked nodes -/

section

variable {f : Fragments} {unit unit' : Text → Text} {rename : Text → Text}

theorem veils_splice {u w : Text} (h : Veils u w) : Veils (f.splice u) (f.splice w) := by
  rw [splice_eq, splice_eq, ← List.cons_append, ← List.cons_append]
  exact h.around _ _

theorem veils_nameLiteral {u w : Text} (h : Veils u w) : Veils (nameLiteral u) (nameLiteral w) :=
  h.around ['\''] ['\'']

theorem veils_lookup {u w : Text} (h : Veils u w) : Veils (lookup u) (lookup w) := by
  have hlookup := h.quote.around "$in['".toList "']".toList
  rwa [← List.append_assoc, ← List.append_assoc] at hlookup

theorem veils_callOf {u w : Text} (h : Veils u w) (indent : Option Text) (further : Text) :
    Veils (callOf f u indent further) (callOf f w indent further) :=
  h.around _ _

theorem Quiet.veils_name (h : Quiet rename) {name : Text} (hname : bell ∉ name) :
    Veils (nameLiteral (rename (mask name))) (nameLiteral (writtenName rename name)) :=
  veils_nameLiteral (h name hname).veils_unmask

theorem alone_masked (n : Node) :
    ((n.map mask).called rename).alone = (n.called (writtenName rename)).alone := by
  cases n with
  | reference target indent => cases target <;> cases indent <;> rfl
  | _ => rfl

theorem veils_nodeText (hrename : Quiet rename) {n : Node} (htexts : ∀ t ∈ n.texts, bell ∉ t)
    (h : ∀ body, n.body? = some body → unit' (mask body) = unit body) :
    Veils (nodeText f unit' ((n.map mask).called rename))
      (nodeText f unit (n.called (writtenName rename))) := by
  cases n with
  | literal text => exact (Veils.mask text).quote
  | «variable» name => exact veils_splice (veils_lookup (.mask name))
  | reference target indent =>
      cases target with
      | named name =>
          have hname := hrename.veils_name (htexts name List.mem_cons_self)
          exact veils_splice (veils_callOf hname indent [])
      | dynamic expr => exact veils_splice (veils_callOf (veils_lookup (.mask expr)) indent [])
      | block => exact .refl _
  | block name body closed =>
      have hname := hrename.veils_name (htexts name List.mem_cons_self)
      simp only [Node.map, Node.called, nodeText, h body rfl]
      exact veils_splice (veils_callOf hname none _)
  | _ => exact .nil

theorem veils_bodyText (hrename : Quiet rename) {ns : List Node}
    (htexts : ∀ n ∈ ns, ∀ t ∈ n.texts, bell ∉ t)
    (h : ∀ n ∈ ns, ∀ body, n.body? = some body → unit' (mask body) = unit body) (m : Margin) :
    Veils (bodyText f unit' m ((ns.map (Node.map mask)).map (Node.called rename)))
      (bodyText f unit m (ns.map (Node.called (writtenName rename)))) := by
  induction ns generalizing m with
  | nil => exact .refl _
  | cons n ns ih =>
      obtain ⟨hn, hns⟩ := List.forall_mem_cons.mp h
      obtain ⟨htext, htexts⟩ := List.forall_mem_cons.mp htexts
      have hnode := veils_nodeText (f := f) hrename htext hn
      simp only [List.map_cons, bodyText, Node.start, alone_masked, hnode.after_eq]
      exact (hnode.lead _ _).append (ih htexts hns _)

end

end Handlebars

end Inlay
