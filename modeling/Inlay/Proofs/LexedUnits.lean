import Inlay.Proofs.CanonicalUnits
import Inlay.Proofs.DispatchClosure
import Inlay.Proofs.LexedCallables
import Inlay.Proofs.MaskedScan
import Inlay.Proofs.SourceInvariants

/-!
# Runtime code can be lexed

The code of a dispatching compilation, and each unit, can be lexed if no
partial that is called by name has an apostrophe in its name. The literals
of the names are then read back, but the backslashes of a name are those of
the escaped template, and its literal has half as many.
-/

namespace Inlay

/-! ## Escaped texts -/

namespace Text

theorem nodes_escape (s : Text) : s.escape.nodes = s.nodes.map (Node.map escape) := by
  have hescape : escape = replace ['\\'] ['\\', '\\'] := funext escape_eq_replace
  rw [hescape]
  refine inert_escape.scan_replace_of_distinct (p := fun _ => True) (fun s t _ _ h => ?_)
    (fun _ _ => trivial) true fun _ _ => trivial
  rw [← escape_eq_replace, ← escape_eq_replace] at h
  exact escape_injective h

theorem backslash_mem_escape_iff {s : Text} : '\\' ∈ s.escape ↔ '\\' ∈ s :=
  ⟨mem_of_mem_escape, fun h => List.mem_flatMap.mpr ⟨_, h, List.mem_cons_self⟩⟩

theorem escape_cons (c : Char) (s : Text) :
    escape (c :: s) = (if c = '\\' then ['\\', '\\'] else [c]) ++ s.escape :=
  List.flatMap_cons

theorem length_le_escape (s : Text) : s.length ≤ s.escape.length := by
  induction s with
  | nil => exact Nat.le_refl 0
  | cons c s ih =>
      rw [escape_cons]
      split
      · simp only [List.length_append, List.length_cons]
        omega
      · simp only [List.length_append, List.length_cons]
        omega

theorem escape_eq_self_iff {s : Text} : s.escape = s ↔ '\\' ∉ s := by
  constructor
  · intro h hmem
    obtain ⟨a, b, rfl⟩ := List.append_of_mem hmem
    have hlength := congrArg List.length h
    have ha := length_le_escape a
    have hb := length_le_escape b
    rw [escape_append, escape_cons, if_pos rfl] at hlength
    simp only [List.length_append, List.length_cons] at hlength
    omega
  · intro hslash
    rw [escape_eq_replace]
    exact replace_of_not_infix (by simp) fun h => hslash (h.subset List.mem_cons_self)

/-- The backslashes of the text are doubled ones. -/
def Escaped (s : Text) : Prop :=
  ∃ raw : Text, s = raw.escape

variable {s : Text}

theorem Escaped.masked (h : s.Escaped) : (Keyword.mask s).Escaped := by
  obtain ⟨raw, rfl⟩ := h
  exact ⟨Keyword.mask raw, Keyword.mask_escape raw⟩

theorem Escaped.unmasked (h : s.Escaped) : (Keyword.unmask s).Escaped := by
  obtain ⟨raw, rfl⟩ := h
  exact ⟨Keyword.unmask raw, Keyword.unmask_escape raw⟩

theorem Escaped.body (h : s.Escaped) {n : Node} (hn : n ∈ s.nodes) {body : Text}
    (hbody : n.body? = some body) : body.Escaped := by
  obtain ⟨raw, rfl⟩ := h
  rw [nodes_escape] at hn
  obtain ⟨m, -, rfl⟩ := List.mem_map.mp hn
  cases m with
  | block name inner closed => exact ⟨inner, (Option.some.inj hbody).symm⟩
  | inlinePartial name inner closed => exact ⟨inner, (Option.some.inj hbody).symm⟩
  | _ => cases hbody

theorem solid_of_mem_references {s name : Text} (h : name ∈ s.references) : name.Solid :=
  not_isBlank_of_mem_references h

end Text

namespace Handlebars

open Compilation Keyword Target Text

/-- With dispatching only escaped sources are cached. -/
theorem upheld_escaped (fs : FileSystem) (first : Compilation) :
    Upheld fs first
      (fun n => ∀ name source, n.cached.get? name = some source → source.Escaped) Escaped where
  found _ _ _ _ _ _ _ _ _ hn := OrderedMap.forall_insertIfNew hn ⟨_, rfl⟩
  defined _ _ _ hbody hn := OrderedMap.forall_insert hn hbody.unmasked
  merged _ _ hn hm := OrderedMap.forall_absorb hn hm
  source _ name source hn hsource := hn name source hsource
  masked _ htext := htext.masked
  body _ htext _ hn _ hbody := htext.body hn hbody

/-! ## Calls -/

/-- A call to a unit by name, in the code of the template or in a callable of its own. -/
structure Call where
  name : Text
  apart : Bool
deriving DecidableEq

/-- The calls of a node, with those of the bodies of blocks given. -/
def nodeCalls (apart : Bool) (inner : Text → List Call) : Node → List Call
  | .reference (.named name) _ => [⟨name, apart⟩]
  | .block name body _ => ⟨name, apart⟩ :: inner body
  | _ => []

/-- The calls of the unit of a text. -/
def unitCalls (text : Text) : List Call :=
  (mask text).nodes.flatMap <| nodeCalls true fun body =>
    if (mask body).length < (mask text).length then unitCalls body else []
termination_by (mask text).length

/-- The calls of the code of a template. -/
def templateCalls (template : Text) : List Call :=
  template.escape.nodes.flatMap (nodeCalls false unitCalls)

theorem unitCalls_eq (text : Text) :
    unitCalls text = (mask text).nodes.flatMap (nodeCalls true unitCalls) := by
  rw [unitCalls]
  refine List.flatMap_congr fun n hn => ?_
  cases n with
  | block name body closed =>
      simp only [nodeCalls]
      rw [if_pos (length_mask_body_lt hn rfl)]
  | reference target indent => cases target <;> rfl
  | _ => rfl

/-- The literal of the name in a call has this value: that of a name whose backslashes are doubled
in the call. In a callable this is said of names only that the passes over the callable leave alone. -/
structure Call.ReadAs (call : Call) (value : Text) : Prop where
  solid : value.Solid
  written : (call.apart = true → call.name.Steady) → call.name = value.escape
  exact : (call.apart = true → call.name.Steady) → (value = call.name ↔ '\\' ∉ call.name)

theorem Call.ReadAs.of_escape {call : Call} {value : Text} (hsolid : value.Solid)
    (h : (call.apart = true → call.name.Steady) → call.name = value.escape) : call.ReadAs value := by
  refine ⟨hsolid, h, fun hsteady => ?_⟩
  rw [h hsteady, eq_comm, escape_eq_self_iff, backslash_mem_escape_iff]

/-! ## Nodes -/

section

variable {v : View} (hv : v.fragments = .standard) {e : Text} {names others : List Text}

/-- From one literal to the next one. -/
theorem lexes_between (h : Lexes false e names false) :
    Lexes true ('\'' :: (e ++ ['\''])) names true := by
  have hwhole := Lexes.close (h.append (.quote (.done true)))
  rwa [List.append_nil] at hwhole

theorem lexes_splice (h : Lexes false e names false) :
    Lexes true (Fragments.standard.splice e) names true := by
  have hmarks : ∀ w ∈ [['.']], w ∈ marks := by decide +kernel
  have hstop := Lexes.flatten hmarks
  have hwhole := lexes_between (hstop.append (h.append hstop))
  rw [List.nil_append, List.append_nil, List.append_assoc, List.append_assoc] at hwhole
  rw [splice_standard]
  exact hwhole

theorem lexes_blank {w : Text} (hw : ∀ c ∈ w, c = ' ' ∨ c = '\t') :
    Lexes false ('\'' :: w ++ ['\'']) [] false := by
  have h := Lexes.quoted w
  rw [← nameLiteral_of_blank hw] at h
  exact h

include hv in
theorem lexes_indentArgument {indent : Option Text}
    (hindent : ∀ w, indent = some w → ∀ c ∈ w, c = ' ' ∨ c = '\t') :
    Lexes false (indentArgument v indent) [] false := by
  have hmarks : ∀ w ∈ [[','], [' '], Callable.indentParameter, ['.']], w ∈ marks := by decide +kernel
  have hcomma : ∀ w ∈ [[','], [' ']], w ∈ marks := by decide +kernel
  unfold indentArgument
  split
  · exact .done false
  · split
    · exact (Lexes.flatten hcomma).append (Lexes.quoted [])
    · rename_i w
      have hw := lexes_blank (hindent w rfl)
      split
      · have hfront : ", ".toList ++ Callable.indentParameter ++ Fragments.standard.separator =
            [[','], [' '], Callable.indentParameter, ['.']].flatten := by decide
        have hwhole := (Lexes.flatten hmarks).append hw
        rw [hv, hfront, List.append_assoc]
        exact hwhole
      · have hwhole := (Lexes.flatten hcomma).append hw
        exact hwhole

/-- The code of a call, after the mark of code that indents itself or no mark. -/
theorem dispatch_eq (v : View) (e : Text) (indent block : Option Text) :
    ∃ mark, mark.Bare ∧ dispatch v e indent block = mark ++ v.fragments.splice
      ("LR::p($cx, ".toList ++ (e ++ (valueArgument ++ (indentArgument v indent ++
        ((block.map (", ".toList ++ ·)).getD [] ++ [')']))))) := by
  refine ⟨if indent.isSome && v.indentBound && !v.flags.noIndent then Callable.selfIndented else [],
    ?_, ?_⟩
  · split
    · exact Lexes.bare_selfIndented
    · exact fun c hc => absurd hc List.not_mem_nil
  · unfold dispatch valueArgument
    cases block with
    | none =>
        simp only [List.append_assoc, Option.map_none, Option.getD_none]
        split <;> rfl
    | some callable =>
        simp only [List.append_assoc, Option.map_some, Option.getD_some]
        split <;> rfl

include hv in
theorem lexes_dispatch {indent block : Option Text}
    (he : Lexes false ("LR::p($cx, ".toList ++ (e ++ valueArgument)) names false)
    (hindent : ∀ w, indent = some w → ∀ c ∈ w, c = ' ' ∨ c = '\t')
    (hblock : Lexes false ((block.map (", ".toList ++ ·)).getD []) others false) :
    Lexes true (dispatch v e indent block) (names ++ others) true := by
  have hmarks : ∀ w ∈ [[')']], w ∈ marks := by decide +kernel
  have hcall := he.append ((lexes_indentArgument hv hindent).append
    (hblock.append (Lexes.flatten hmarks)))
  rw [List.nil_append, List.append_nil, List.append_assoc, List.append_assoc] at hcall
  obtain ⟨mark, hmark, heq⟩ := dispatch_eq v e indent block
  rw [heq, hv]
  exact Lexes.bare_append hmark (lexes_splice hcall)

end

/-- What is for the passes over a callable can be told from the escaped name. -/
theorem steady_of_escape {name : Text} (h : name.escape.Steady) : name.Steady := by
  have hinside : ∀ {w : Text}, w.escape = w → w <:+: name → w <:+: name.escape := by
    rintro w hw ⟨a, b, rfl⟩
    rw [escape_append, escape_append, hw]
    exact ⟨escape a, escape b, rfl⟩
  refine ⟨fun hmem => h.bell (List.mem_flatMap.mpr ⟨_, hmem, List.mem_cons_self⟩),
    fun hword => h.keyword (hinside (by decide) hword),
    fun hheader => h.header (hinside (by decide) hheader)⟩

/-- The names of the calls of a callable after its passes. -/
theorem readAs_of_drifts {calls : List Call} {names others : List Text}
    (hcalls : ∀ call ∈ calls, call.apart = true) (hread : List.Forall₂ Call.ReadAs calls names)
    (hdrifts : List.Forall₂ Callable.Drifts names others) : List.Forall₂ Call.ReadAs calls others := by
  induction hread generalizing others with
  | nil =>
      cases hdrifts
      exact .nil
  | @cons call name calls names hcall _ ih =>
      obtain ⟨hapart, hcalls⟩ := List.forall_mem_cons.mp hcalls
      cases hdrifts with
      | @cons _ other _ others hdrift hdrifts =>
          refine .cons (.of_escape (hdrift.solid hcall.solid) fun hsteady => ?_) (ih hcalls hdrifts)
          have hname := hcall.written hsteady
          -- the value is as steady as the name, so the passes left it as it was
          have hsame := hdrift.steady hcall.solid (steady_of_escape (hname ▸ hsteady hapart))
          rw [hsame, hname]

/-- The texts of a node are those of tags, and can be quoted. -/
structure Node.Legible (n : Node) : Prop where
  indent : n.BlankIndent
  word : ∀ {name}, n.dispatches? = some name → name.Solid

theorem legible_of_mem {text : Text} {n : Node} (hn : n ∈ text.nodes) : Node.Legible n :=
  ⟨Node.blankIndent_of_mem hn, fun hname =>
    solid_of_mem_references (Node.references_subset hn (Node.mem_references_of_dispatches? hname))⟩

/-- The code can be lexed, from outside of literals to outside, in one way only, and the literals
of the names in its calls have the values that they should have. -/
def Readable (code : Text) (calls : List Call) : Prop :=
  ∃ names, (∀ others b, Lexes false code others b ↔ others = names ∧ b = false) ∧
    List.Forall₂ Call.ReadAs calls names

theorem readable_of_lexes {code : Text} {names : List Text} {calls : List Call}
    (h : Lexes false code names false) (hread : List.Forall₂ Call.ReadAs calls names) :
    Readable code calls := by
  refine ⟨names, fun others b => ⟨fun hother => h.unique hother, ?_⟩, hread⟩
  rintro ⟨rfl, rfl⟩
  exact h

theorem lexes_lookup (name : Text) : Lexes false (lookup name.escape) [] false := by
  have hmarks : (∀ w ∈ ["$in".toList, ['[']], w ∈ marks) ∧ ∀ w ∈ [[']']], w ∈ marks := by
    decide +kernel
  have hfront : "$in[".toList = ["$in".toList, ['[']].flatten := by decide
  have hwhole := (Lexes.flatten hmarks.1).append ((Lexes.quoted name).append (Lexes.flatten hmarks.2))
  rw [lookup_eq, nameLiteral_quote_escape, hfront]
  exact hwhole

theorem lexes_dynamicCall (name : Text) :
    Lexes false ("LR::p($cx, ".toList ++ (lookup name.escape ++ valueArgument)) [] false := by
  have hmarks : (∀ w ∈ ["LR::p($cx, $in[".toList], w ∈ marks) ∧
      ∀ w ∈ [[']'], [','], [' '], "$in".toList], w ∈ marks := by
    decide +kernel
  have hfront : ["LR::p($cx, $in[".toList].flatten = "LR::p($cx, ".toList ++ "$in[".toList := by decide
  have hback : [[']'], [','], [' '], "$in".toList].flatten = [']'] ++ valueArgument := by decide
  have hwhole := (Lexes.flatten hmarks.1).append ((Lexes.quoted name).append (Lexes.flatten hmarks.2))
  rw [hfront, hback] at hwhole
  rw [lookup_eq, nameLiteral_quote_escape]
  simpa only [List.append_assoc, List.nil_append] using hwhole

theorem lexes_namedCall {name : Text} (hquote : '\'' ∉ name) :
    Lexes false ("LR::p($cx, ".toList ++ (nameLiteral name.escape ++ valueArgument)) [name] false := by
  have hfront : "LR::p($cx, ".toList ++ ['\''] = beforeName := by decide
  have hcall : Lexes false (callStart name ++ []) [name] false := .call (.done false)
  have hstart : "LR::p($cx, ".toList ++ (nameLiteral name.escape ++ valueArgument) =
      callStart name ++ [] := by
    rw [nameLiteral_eq_quoted hquote, List.append_nil, callStart, ← hfront, Target.quoted]
    simp only [List.append_assoc, List.cons_append, List.nil_append]
  rw [hstart]
  exact hcall

theorem lexes_blockCall : Lexes false "LR::pb($cx, $in)".toList [] false := by
  have hmarks : ∀ w ∈ ["LR::pb".toList, ['('], "$cx".toList, [','], [' '], "$in".toList, [')']],
      w ∈ marks := by
    decide +kernel
  have heq : "LR::pb($cx, $in)".toList =
      ["LR::pb".toList, ['('], "$cx".toList, [','], [' '], "$in".toList, [')']].flatten := by
    decide +kernel
  rw [heq]
  exact Lexes.flatten hmarks

theorem lexes_blockArgument {unit : Text} {names : List Text} (h : Lexes false unit names false) :
    Lexes false (((some unit).map (", ".toList ++ ·)).getD []) names false := by
  have hmarks : ∀ w ∈ [[','], [' ']], w ∈ marks := by decide +kernel
  have hfront : ", ".toList = [[','], [' ']].flatten := by decide
  have hwhole := (Lexes.flatten hmarks).append h
  rw [Option.map_some, Option.getD_some, hfront]
  exact hwhole

theorem not_mem_of_not_mem_escape {name : Text} (h : '\'' ∉ name.escape) : '\'' ∉ name :=
  fun hmem => h (List.mem_flatMap.mpr ⟨_, hmem, List.mem_singleton_self _⟩)

variable {v : View} (hv : v.fragments = .standard) {apart : Bool} {unit : Text → Text}
  {inner : Text → List Call}

/-- The callable of the body of a node can be lexed, if no name in its calls has an apostrophe. -/
def ReadableBody (unit : Text → Text) (inner : Text → List Call) (n : Node) : Prop :=
  ∀ body, n.body? = some body → (∀ call ∈ inner body.escape, '\'' ∉ call.name) →
    Readable (unit body.escape) (inner body.escape)

include hv in
/-- The node of an escaped text has code that can be lexed, if the body of a block has. -/
theorem exists_lexes_node {n : Node} (hn : Node.Legible n) (hbody : ReadableBody unit inner n)
    (hquote : ∀ call ∈ nodeCalls apart inner (n.map escape), '\'' ∉ call.name) :
    ∃ names, Lexes true (nodeCode v unit (n.map escape)) names true ∧
      List.Forall₂ Call.ReadAs (nodeCalls apart inner (n.map escape)) names := by
  have hnoIndent : ∀ w, (none : Option Text) = some w → ∀ c ∈ w, c = ' ' ∨ c = '\t' :=
    fun _ h => by cases h
  cases n with
  | literal text => exact ⟨[], Lexes.protect text, .nil⟩
  | «variable» name =>
      have hsplice := lexes_splice (lexes_lookup name)
      rw [← hv] at hsplice
      refine ⟨[], ?_, .nil⟩
      simp only [Node.map, nodeCode]
      exact hsplice
  | reference target indent =>
      cases target with
      | named name =>
          have hname := not_mem_of_not_mem_escape (hquote _ List.mem_cons_self)
          refine ⟨[name], ?_, .cons (.of_escape (hn.word rfl) fun _ => rfl) .nil⟩
          simp only [Node.map, Reference.map, nodeCode]
          exact lexes_dispatch hv (lexes_namedCall hname) hn.indent (.done false)
      | dynamic expr =>
          refine ⟨[], ?_, .nil⟩
          simp only [Node.map, Reference.map, nodeCode]
          exact lexes_dispatch hv (lexes_dynamicCall expr) hn.indent (.done false)
      | block =>
          have hsplice := lexes_splice lexes_blockCall
          rw [← hv] at hsplice
          refine ⟨[], ?_, .nil⟩
          simp only [Node.map, Reference.map, nodeCode]
          exact hsplice
  | block name body closed =>
      obtain ⟨hfirst, hrest⟩ := List.forall_mem_cons.mp hquote
      have hname := not_mem_of_not_mem_escape hfirst
      obtain ⟨names, hunique, hreads⟩ := hbody body rfl hrest
      have hnames := (hunique names false).mpr ⟨rfl, rfl⟩
      refine ⟨name :: names, ?_, .cons (.of_escape (hn.word rfl) fun _ => rfl) hreads⟩
      simp only [Node.map, nodeCode]
      exact lexes_dispatch hv (lexes_namedCall hname) hnoIndent (lexes_blockArgument hnames)
  | inlinePartial name body closed => exact ⟨[], .done true, .nil⟩
  | strayClose name => exact ⟨[], .done true, .nil⟩

/-! ## Units -/

include hv in
theorem exists_lexes_nodes {ns : List Node} (hns : ∀ n ∈ ns, Node.Legible n)
    (hbody : ∀ n ∈ ns, ReadableBody unit inner n)
    (hquote : ∀ call ∈ (ns.map (Node.map escape)).flatMap (nodeCalls apart inner), '\'' ∉ call.name) :
    ∃ names, Lexes true ((ns.map (Node.map escape)).flatMap (nodeCode v unit)) names true ∧
      List.Forall₂ Call.ReadAs ((ns.map (Node.map escape)).flatMap (nodeCalls apart inner)) names := by
  induction ns with
  | nil => exact ⟨[], .done true, .nil⟩
  | cons n ns ih =>
      simp only [List.map_cons, List.flatMap_cons, List.forall_mem_append] at hquote ⊢
      obtain ⟨hn, hns⟩ := List.forall_mem_cons.mp hns
      obtain ⟨hfirst, hrest⟩ := List.forall_mem_cons.mp hbody
      obtain ⟨names, hnames, hread⟩ := exists_lexes_node hv hn hfirst hquote.1
      obtain ⟨others, hothers, hreads⟩ := ih hns hrest hquote.2
      exact ⟨names ++ others, hnames.append hothers, List.rel_append hread hreads⟩

theorem apart_of_mem_unitCalls {text : Text} {call : Call} (h : call ∈ unitCalls text) :
    call.apart = true := by
  rw [unitCalls_eq] at h
  obtain ⟨n, hn, hcall⟩ := List.mem_flatMap.mp h
  cases n with
  | reference target indent =>
      cases target with
      | named name =>
          obtain rfl := List.mem_singleton.mp hcall
          rfl
      | dynamic expr => cases hcall
      | block => cases hcall
  | block name body closed =>
      have hless := length_mask_body_lt hn rfl
      rcases List.mem_cons.mp hcall with rfl | hcall
      · rfl
      · exact apart_of_mem_unitCalls hcall
  | _ => cases hcall
termination_by (mask text).length

theorem readable_unit (flags : Flags) (raw : Text)
    (hquote : ∀ call ∈ unitCalls raw.escape, '\'' ∉ call.name) :
    Readable (unitCode flags .standard raw.escape) (unitCalls raw.escape) := by
  have hnodes : (mask raw.escape).nodes = (mask raw).nodes.map (Node.map escape) := by
    rw [mask_escape, nodes_escape]
  have hlegible : ∀ n ∈ (mask raw).nodes, Node.Legible n := fun n hn => legible_of_mem hn
  have hbodies : ∀ n ∈ (mask raw).nodes, ReadableBody (unitCode flags .standard) unitCalls n := by
    intro n hn body hbody hcalls
    have hmem : n.map escape ∈ (mask raw.escape).nodes := by
      rw [hnodes]
      exact List.mem_map_of_mem hn
    have hescaped : (n.map escape).body? = some body.escape := by
      cases n <;> cases hbody <;> rfl
    -- masking may lengthen a text, so it is the masked texts that get shorter
    have hless := length_mask_body_lt hmem hescaped
    exact readable_unit flags body hcalls
  rw [unitCalls_eq, hnodes] at hquote
  obtain ⟨names, hnames, hread⟩ :=
    exists_lexes_nodes (v := unitView flags .standard) rfl hlegible hbodies hquote
  have hsolid : ∀ name ∈ names, name.Solid := by
    have hboth := (hread.imp fun _ _ h => And.intro h.solid h).flip
    exact ((List.forall₂_and_left _ _).mp hboth).1
  obtain ⟨others, hothers, hdrifts⟩ := hnames.callable (v := unitView flags .standard) rfl hsolid
  have hreads := readAs_of_drifts (fun call hcall => ?_) hread hdrifts
  · rw [unitCode_eq, unitCalls_eq, hnodes]
    exact readable_of_lexes hothers hreads
  · rw [← hnodes, ← unitCalls_eq] at hcall
    exact apart_of_mem_unitCalls hcall
termination_by (mask raw.escape).length

/-! ## Texts in literals -/

/-- The text of a node that its code has in a literal: a run, the name of a variable, or the
expression that gives the name of a partial. The names in calls are told by the lexer. -/
def literalText? : Node → Option Text
  | .literal text => some text
  | .variable name => some name
  | .reference (.dynamic expr) _ => some expr
  | _ => none

/-- The text stands in a literal of the code: the lexer comes to it inside of the literal, and goes
on inside of it after the protected text. -/
def Held (code text : Text) : Prop :=
  ∃ before after, code = before ++ (text.protect ++ after) ∧
    (∃ names, Lexes false before names true) ∧ ∃ names, Lexes true after names false

include hv in
/-- The code of a node is inside of a literal before and after the text of the node. -/
theorem exists_around_text {n : Node} {text : Text} (hn : Node.Legible n)
    (htext : literalText? n = some text) :
    ∃ before after, nodeCode v unit (n.map escape) = before ++ (text.protect ++ after) ∧
      Lexes true before [] true ∧ Lexes true after [] true := by
  cases n with
  | literal run =>
      obtain rfl := Option.some.inj htext
      exact ⟨[], [], (List.append_nil _).symm, .done true, .done true⟩
  | «variable» name =>
      obtain rfl := Option.some.inj htext
      have hmarks : (∀ w ∈ [['.'], "$in".toList, ['[']], w ∈ marks) ∧
          ∀ w ∈ [[']'], ['.']], w ∈ marks := by
        decide +kernel
      have hfront : "'.".toList ++ "$in[".toList = '\'' :: [['.'], "$in".toList, ['[']].flatten := by
        decide
      have hback : ']' :: ".'".toList = [[']'], ['.']].flatten ++ ['\''] := by decide
      refine ⟨_, _, ?_, lexes_between (Lexes.flatten hmarks.1), lexes_between (Lexes.flatten hmarks.2)⟩
      simp only [Node.map, nodeCode]
      rw [hv, splice_standard, lookup_eq, nameLiteral_quote_escape, Target.quoted, ← List.append_assoc,
        ← List.append_assoc, hfront]
      simp only [List.append_assoc, List.cons_append, List.nil_append]
      rw [hback]
  | reference target indent =>
      cases target with
      | dynamic expr =>
          obtain rfl := Option.some.inj htext
          have hmarks : (∀ w ∈ [['.'], "LR::p($cx, $in[".toList], w ∈ marks) ∧
              (∀ w ∈ [[']'], [','], [' '], "$in".toList], w ∈ marks) ∧
              ∀ w ∈ [[')'], ['.']], w ∈ marks := by
            decide +kernel
          have hfront : "'.".toList ++ ("LR::p($cx, ".toList ++ "$in[".toList) =
              '\'' :: [['.'], "LR::p($cx, $in[".toList].flatten := by decide
          have hjoin : ∀ s : Text, "'.".toList ++ ("LR::p($cx, ".toList ++ ("$in[".toList ++ s)) =
              '\'' :: ([['.'], "LR::p($cx, $in[".toList].flatten ++ s) := fun s => by
            rw [← List.append_assoc "LR::p($cx, ".toList, ← List.append_assoc, hfront, List.cons_append]
          have hvalue : [']'] ++ valueArgument = [[']'], [','], [' '], "$in".toList].flatten := by
            decide
          have hback : ')' :: ".'".toList = [[')'], ['.']].flatten ++ ['\''] := by decide
          obtain ⟨mark, hmark, hdispatch⟩ := dispatch_eq v (lookup expr.escape) indent none
          have hindent : ∀ w, indent = some w → ∀ c ∈ w, c = ' ' ∨ c = '\t' := hn.indent
          have hafter := (Lexes.flatten hmarks.2.1).append
            ((lexes_indentArgument hv hindent).append (Lexes.flatten hmarks.2.2))
          refine ⟨_, _, ?_, Lexes.bare_append hmark (lexes_between (Lexes.flatten hmarks.1)),
            lexes_between hafter⟩
          simp only [Node.map, Reference.map, nodeCode]
          rw [hdispatch, hv, splice_standard, lookup_eq, nameLiteral_quote_escape, Target.quoted,
            ← hvalue]
          simp only [List.append_assoc, List.cons_append, List.nil_append, Option.map_none,
            Option.getD_none, hjoin]
          rw [hback]
      | named name => cases htext
      | block => cases htext
  | _ => cases htext

include hv in
theorem held_of_mem {ns : List Node} (hns : ∀ n ∈ ns, Node.Legible n)
    (hbody : ∀ n ∈ ns, ReadableBody unit inner n)
    (hquote : ∀ call ∈ (ns.map (Node.map escape)).flatMap (nodeCalls apart inner), '\'' ∉ call.name)
    {n : Node} {text : Text} (hn : n ∈ ns) (htext : literalText? n = some text) :
    Held (nameLiteral ((ns.map (Node.map escape)).flatMap (nodeCode v unit))) text := by
  obtain ⟨earlier, later, rfl⟩ := List.append_of_mem hn
  simp only [List.map_append, List.map_cons, List.flatMap_append, List.flatMap_cons,
    List.forall_mem_append, List.forall_mem_cons] at hns hbody hquote ⊢
  have haround : ∃ before after, nodeCode v unit (n.map escape) = before ++ (text.protect ++ after) ∧
      Lexes true before [] true ∧ Lexes true after [] true := exists_around_text hv hns.2.1 htext
  obtain ⟨before, after, hcode, hbefore, hafter⟩ := haround
  obtain ⟨names, hnames, -⟩ := exists_lexes_nodes hv hns.1 hbody.1 hquote.1
  obtain ⟨others, hothers, -⟩ := exists_lexes_nodes hv hns.2.2 hbody.2.2 hquote.2.2
  refine ⟨'\'' :: ((earlier.map (Node.map escape)).flatMap (nodeCode v unit) ++ before),
    after ++ ((later.map (Node.map escape)).flatMap (nodeCode v unit) ++ ['\'']), ?_,
    ⟨_, .quote (hnames.append hbefore)⟩, _, hafter.append (hothers.append (.close (.done false)))⟩
  rw [hcode, nameLiteral]
  simp only [List.append_assoc, List.cons_append]

/-! ## Apostrophes in names -/

theorem not_mem_of_lexes_call {name t : Text} (hname : name.Solid) {names : List Text} {b : Bool}
    (h : Lexes false ("LR::p($cx, ".toList ++ (nameLiteral name.escape ++ (valueArgument ++ t)))
      names b) :
    '\'' ∉ name := by
  have hfront : "LR::p($cx, ".toList ++ ['\''] = beforeName := by decide
  have hvalue : valueArgument = ", ".toList ++ "$in".toList := by decide
  have hcall : "LR::p($cx, ".toList ++ (nameLiteral name.escape ++ (valueArgument ++ t)) =
      beforeName ++ (name.escape ++ '\'' :: (valueArgument ++ t)) := by
    rw [← hfront, nameLiteral]
    simp only [List.append_assoc, List.cons_append, List.nil_append]
  rw [hcall] at h
  rcases h.outside_cases with ⟨ht, -⟩ | ⟨u, ht, -⟩ | ⟨w, hw, u, ht, -⟩ | ⟨other, u, rest, ht, -, -⟩
  · cases ht
  · cases ht
  · rcases List.append_eq_append_iff.mp ht with ⟨x, hx, -⟩ | ⟨x, hx, -⟩
    · exact absurd ⟨x, hx.symm⟩ (mark_apart_call w hw).2
    · exact absurd ⟨x, hx.symm⟩ (mark_apart_call w hw).1
  · rw [callStart, List.append_assoc] at ht
    have hrest := List.append_cancel_left ht
    have hliteral : nameLiteral name.escape ++ (valueArgument ++ t) =
        Target.quoted other ++ (", ".toList ++ ("$in".toList ++ u)) := by
      rw [nameLiteral, Target.quoted]
      rw [hvalue] at hrest ⊢
      simp only [List.append_assoc, List.cons_append, List.nil_append] at hrest ⊢
      rw [hrest]
    exact not_mem_of_nameLiteral hname hliteral

include hv in
/-- Where the code of a node can be lexed, the partial that it dispatches to has no apostrophe in
its name. -/
theorem not_mem_of_lexes_node {n : Node} {name s : Text} (hn : Node.Legible n)
    (hname : n.dispatches? = some name) {names : List Text} {b : Bool}
    (h : Lexes true (nodeCode v unit (n.map escape) ++ s) names b) : '\'' ∉ name := by
  have hcall : ∃ indent block,
      nodeCode v unit (n.map escape) = dispatch v (nameLiteral name.escape) indent block := by
    cases n with
    | reference target indent =>
        cases target with
        | named other =>
            obtain rfl := Option.some.inj hname
            exact ⟨indent, none, rfl⟩
        | dynamic expr => cases hname
        | block => cases hname
    | block other body closed =>
        obtain rfl := Option.some.inj hname
        exact ⟨none, some (unit body.escape), rfl⟩
    | _ => cases hname
  obtain ⟨indent, block, hcall⟩ := hcall
  obtain ⟨mark, hmark, hdispatch⟩ := dispatch_eq v (nameLiteral name.escape) indent block
  have hdot : ['.'] ∈ marks := by decide +kernel
  have hsplice : "'.".toList = '\'' :: ['.'] := by decide
  rw [hcall, hdispatch, hv, splice_standard, hsplice] at h
  simp only [List.append_assoc, List.cons_append] at h
  exact not_mem_of_lexes_call (hn.word hname) ((h.of_bare_append hmark).of_close.of_mark hdot)

/-- The call of a node is that of the partial that it dispatches to, or is in a body. -/
theorem mem_nodeCalls {n : Node} {call : Call} (h : call ∈ nodeCalls apart inner (n.map escape)) :
    (∃ name, n.dispatches? = some name ∧ call.name = name.escape) ∨ ∃ body, call ∈ inner body := by
  cases n with
  | reference target indent =>
      cases target with
      | named name =>
          obtain rfl := List.mem_singleton.mp h
          exact .inl ⟨name, rfl, rfl⟩
      | dynamic expr => cases h
      | block => cases h
  | block name body closed =>
      rcases List.mem_cons.mp h with rfl | h
      · exact .inl ⟨name, rfl, rfl⟩
      · exact .inr ⟨_, h⟩
  | _ => cases h

include hv in
/-- If the code of nodes can be lexed, and the names in the calls of bodies have no apostrophes,
then no name in a call has one. -/
theorem quotable_of_lexes {ns : List Node} (hns : ∀ n ∈ ns, Node.Legible n)
    (hbody : ∀ n ∈ ns, ReadableBody unit inner n)
    (hinner : ∀ body, ∀ call ∈ inner body, call.apart = true)
    (hclean : ∀ call ∈ (ns.map (Node.map escape)).flatMap (nodeCalls apart inner),
      call.apart = true → '\'' ∉ call.name)
    {s : Text} {names : List Text} {b : Bool}
    (h : Lexes true ((ns.map (Node.map escape)).flatMap (nodeCode v unit) ++ s) names b) :
    ∀ call ∈ (ns.map (Node.map escape)).flatMap (nodeCalls apart inner), '\'' ∉ call.name := by
  induction ns generalizing names with
  | nil => simp
  | cons n ns ih =>
      simp only [List.map_cons, List.flatMap_cons, List.forall_mem_append, List.append_assoc]
        at hclean h ⊢
      obtain ⟨hn, hns⟩ := List.forall_mem_cons.mp hns
      obtain ⟨hfirst, hrest⟩ := List.forall_mem_cons.mp hbody
      have hquote : ∀ call ∈ nodeCalls apart inner (n.map escape), '\'' ∉ call.name := by
        intro call hcall
        rcases mem_nodeCalls hcall with ⟨name, hname, hcallName⟩ | ⟨body, hinside⟩
        · rw [hcallName]
          exact fun hmem => not_mem_of_lexes_node hv hn hname h (mem_of_mem_escape hmem)
        · exact hclean.1 call hcall (hinner body call hinside)
      -- the lexer gets over the first node, and comes to the others inside of a literal
      obtain ⟨used, hused, -⟩ := exists_lexes_node hv hn hfirst hquote
      obtain ⟨others, -, hothers⟩ := hused.of_append h
      exact ⟨hquote, ih hns hrest hclean.2 hothers⟩

/-! ## Keys -/

/-- After a backslash too many, a text and its protected form never come together again. -/
theorem backslashes_ne (j : Nat) (s a b : Text) :
    s ++ '\'' :: a ≠ List.replicate (j + 1) '\\' ++ (s.protect ++ b) := by
  induction s generalizing j with
  | nil =>
      intro h
      exact absurd (List.cons.inj h).1 (by decide)
  | cons c s ih =>
      intro h
      rw [List.replicate_succ] at h
      obtain ⟨rfl, hrest⟩ := List.cons.inj h
      have htwo : List.replicate (j + 1 + 1) '\\' = List.replicate j '\\' ++ ['\\', '\\'] :=
        List.replicate_add j 2 '\\'
      -- each backslash of the text puts two more ahead of the protected form
      refine ih (j + 1) ?_
      rw [htwo, List.append_assoc, ← protect_backslash, ← List.append_assoc (Text.protect ['\\']),
        ← protect_cons]
      exact hrest

/-- The literal of a key has the key as its value exactly if this has no apostrophes and
backslashes. -/
theorem exists_tableEntry_eq_iff (name unit : Text) :
    (∃ rest, tableEntry name unit = quoted name ++ rest) ↔ '\'' ∉ name ∧ '\\' ∉ name := by
  have hbare : ∀ (name a b : Text), name ++ '\'' :: a = name.protect ++ '\'' :: b →
      '\'' ∉ name ∧ '\\' ∉ name := by
    intro name a b
    induction name with
    | nil => simp
    | cons c name ih =>
        intro h
        by_cases hslash : c = '\\'
        · subst hslash
          rw [protect_cons, protect_backslash, List.append_assoc] at h
          exact absurd (List.cons.inj h).2 (backslashes_ne 0 name a _)
        · by_cases hquote : c = '\''
          · subst hquote
            rw [protect_cons, protect_apostrophe] at h
            exact absurd (List.cons.inj h).1 (by decide)
          · rw [protect_cons, protect_singleton hslash hquote] at h
            obtain ⟨hfirst, hrest⟩ := ih (List.cons.inj h).2
            simp [hfirst, hrest, Ne.symm hslash, Ne.symm hquote]
  constructor
  · rintro ⟨rest, h⟩
    refine hbare name (" => ".toList ++ unit) rest ?_
    unfold tableEntry Target.quoted at h
    simpa using h
  · rintro ⟨hquote, hslash⟩
    have hprotect : name.protect = name :=
      Bare.protect_eq fun c hc => ⟨fun e => hquote (e ▸ hc), fun e => hslash (e ▸ hc)⟩
    refine ⟨" => ".toList ++ unit, ?_⟩
    rw [Target.quoted, hprotect]
    unfold tableEntry
    simp

theorem lexes_tableEntry {name value unit : Text} {names : List Text}
    (hkey : nameLiteral name = quoted value) (h : Lexes false unit names false) :
    Lexes false (tableEntry name unit) names false := by
  have hmarks : ∀ w ∈ [[' '], "=>".toList, [' ']], w ∈ marks := by decide +kernel
  have harrow : " => ".toList = [[' '], "=>".toList, [' ']].flatten := by decide
  have hentry : tableEntry name unit = nameLiteral name ++ (" => ".toList ++ unit) := by
    unfold tableEntry nameLiteral
    simp
  have hwhole := (Lexes.quoted value).append ((Lexes.flatten hmarks).append h)
  rw [hentry, hkey, harrow]
  exact hwhole

/-! ## Outcomes -/

/-- The code of a template is that of its nodes, each of them with its own name. -/
theorem Compiles.code_eq {fs : FileSystem} {options : Options} {template code : Text}
    {middle final : Compilation} (h : Compiles fs options none template code middle final)
    (hruntime : options.flags.runtime = true) :
    code = template.escape.nodes.flatMap
      (nodeCode (initial options none fs).view (unitCode options.flags options.fragments)) := by
  have hs := calling_initial fs none hruntime
  have hfree : middle.HookFree := h.runs.hookFree ⟨rfl, rfl⟩
  have hcode : code = (template.escape.renamedNodes id).flatMap
      (nodeCode (initial options none fs).view (renamedUnit id options.flags options.fragments)) :=
    h.runs.hasCode hs (renames_of_hookFree hfree)
  have hunit : renamedUnit id options.flags options.fragments =
      unitCode options.flags options.fragments := funext fun text => renamedUnit_id _ _ text
  rw [hcode, renamedNodes_id, hunit]

/-- The code of the template can be lexed if no name in a call has an apostrophe, and where this is
so of the calls in callables, only if. The texts of the template then stand in literals, and a name
is read back from its literal exactly if it has no backslash. The units can be lexed likewise, and a
key is read back from its literal exactly if it has no apostrophe and no backslash. -/
theorem literals_read_back (fs : FileSystem) (options : Options) (template : Text)
    (hruntime : options.flags.runtime = true) (hfragments : options.fragments = .standard) :
    ∃ outcome, compile fs options none template = some outcome ∧
      ((∀ call ∈ templateCalls template, '\'' ∉ call.name) →
        Readable (nameLiteral outcome.code) (templateCalls template) ∧
          ∀ n ∈ template.nodes, ∀ text ∈ literalText? n, Held (nameLiteral outcome.code) text) ∧
      ((∀ call ∈ templateCalls template, call.apart = true → '\'' ∉ call.name) →
        (∃ names, Lexes false (nameLiteral outcome.code) names false) →
          ∀ call ∈ templateCalls template, '\'' ∉ call.name) ∧
      ∀ name entry, outcome.table.get? name = some entry →
        ((∃ rest, entry = quoted name ++ rest) ↔ '\'' ∉ name ∧ '\\' ∉ name) ∧
        ∃ source, outcome.cached.get? name = some source ∧
          ((∀ call ∈ unitCalls source, '\'' ∉ call.name) → ∀ value : Text, name = value.protect →
            Readable entry (unitCalls source)) := by
  obtain ⟨code, middle, final, hrun, hcompiles⟩ := exists_compiles fs options template
  have hcode := hcompiles.code_eq hruntime
  rw [nodes_escape, hfragments] at hcode
  have hcalls : templateCalls template =
      (template.nodes.map (Node.map escape)).flatMap (nodeCalls false unitCalls) := by
    rw [templateCalls, nodes_escape]
  have hview : (initial options none fs).view.fragments = .standard := hfragments
  have hlegible : ∀ n ∈ template.nodes, Node.Legible n := fun n hn => legible_of_mem hn
  have hbody : ∀ n ∈ template.nodes, ReadableBody (unitCode options.flags .standard) unitCalls n :=
    fun _ _ body _ => readable_unit options.flags body
  refine ⟨Outcome.ofRun (code, final), ?_, fun hquote => ?_, fun hclean => ?_,
    fun name entry hentry => ?_⟩
  · unfold compile
    rw [hrun]
    rfl
  · rw [hcalls] at hquote ⊢
    obtain ⟨names, hnames, hread⟩ := exists_lexes_nodes hview hlegible hbody hquote
    have hwhole := Lexes.quote (hnames.append (.close (.done false)))
    rw [← hcode, List.append_nil] at hwhole
    refine ⟨readable_of_lexes hwhole hread, fun n hn text htext => ?_⟩
    have hheld := held_of_mem hview hlegible hbody hquote hn htext
    rw [← hcode] at hheld
    exact hheld
  · rintro ⟨names, hnames⟩
    have hinside : Lexes true (code ++ ['\'']) names false := hnames.of_quote
    rw [hcalls] at hclean ⊢
    rw [hcode] at hinside
    exact quotable_of_lexes hview hlegible hbody (fun _ _ => apart_of_mem_unitCalls) hclean hinside
  · obtain ⟨htable, hunits⟩ := hcompiles.canonical hruntime
    obtain ⟨source, hsource⟩ :=
      OrderedMap.mem_iff_exists_get?.mp ((htable name).mp (OrderedMap.mem_of_get? hentry))
    have hunit := hunits name source hsource
    rw [hcompiles.resolve_eq_id, renamedUnit_id, hfragments] at hunit
    obtain rfl := Option.some.inj (hentry.symm.trans hunit)
    have hescaped := hcompiles.upheld (upheld_escaped fs _) hruntime ⟨template, rfl⟩
      (fun _ _ h => by cases h)
    refine ⟨exists_tableEntry_eq_iff name _, source, hsource, ?_⟩
    rintro hquote value rfl
    obtain ⟨raw, rfl⟩ := hescaped _ source hsource
    obtain ⟨names, hunique, hread⟩ := readable_unit options.flags raw hquote
    exact readable_of_lexes (lexes_tableEntry rfl ((hunique names false).mpr ⟨rfl, rfl⟩)) hread

/-- A partial with an apostrophe in its name, and one without. -/
def namedOptions : Options :=
  { Options.standard with
    flags := ⟨false, true, false, false⟩
    partials := .ofList [("it's".toList, "x".toList), ("a\\\\b".toList, "y".toList)] }

/-- A block with a backslash in its name can be lexed, a reference with an apostrophe cannot. -/
theorem literals_read_back_apostrophe :
    namedOptions.flags.runtime = true ∧ namedOptions.fragments = .standard ∧
    (∃ outcome, compile (.emptyAt ['/']) namedOptions none
        "\x7b\x7b#> a\\b\x7d\x7d\x7b\x7b> c\x7d\x7d\x7b\x7b/a\\b\x7d\x7d".toList = some outcome ∧
      Readable (nameLiteral outcome.code) [⟨"a\\\\b".toList, false⟩, ⟨"c".toList, true⟩]) ∧
    ∃ outcome, compile (.emptyAt ['/']) namedOptions none "\x7b\x7b> it's\x7d\x7d".toList =
        some outcome ∧
      ¬ ∃ names, Lexes false (nameLiteral outcome.code) names false := by
  have hblock : templateCalls "\x7b\x7b#> a\\b\x7d\x7d\x7b\x7b> c\x7d\x7d\x7b\x7b/a\\b\x7d\x7d".toList =
      [⟨"a\\\\b".toList, false⟩, ⟨"c".toList, true⟩] := by
    decide +kernel
  have hreference : templateCalls "\x7b\x7b> it's\x7d\x7d".toList = [⟨"it's".toList, false⟩] := by
    decide +kernel
  refine ⟨rfl, rfl, ?_, ?_⟩
  · obtain ⟨outcome, hcompile, hread, -⟩ := literals_read_back (.emptyAt ['/']) namedOptions
      "\x7b\x7b#> a\\b\x7d\x7d\x7b\x7b> c\x7d\x7d\x7b\x7b/a\\b\x7d\x7d".toList rfl rfl
    rw [hblock] at hread
    exact ⟨outcome, hcompile, (hread (by decide)).1⟩
  · obtain ⟨outcome, hcompile, -, hlex, -⟩ := literals_read_back (.emptyAt ['/']) namedOptions
      "\x7b\x7b> it's\x7d\x7d".toList rfl rfl
    rw [hreference] at hlex
    exact ⟨outcome, hcompile, fun h => hlex (by decide) h _ List.mem_cons_self (by decide)⟩

end Handlebars

end Inlay
