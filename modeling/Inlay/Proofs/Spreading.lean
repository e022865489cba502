import Inlay.Proofs.Margins
import Inlay.Proofs.StaticExpansion
import Mathlib.Data.Fintype.Card
import Mathlib.Data.Set.Finite.Basic

/-!
# Putting out nodes with margins

A partial can be put out with a margin on its lines without indenting its
source first. Two ways of doing so differ in one place: whether the line
after a tag that is alone on its line has its margin. One of them is the
expansion, the other one is what callables do. They agree if nothing but
such tags comes after such a tag.
-/

namespace Inlay.Handlebars

open Target Margin

/-- The nodes put this out with a margin on their lines. If `resumes`, then the line after
a tag that is alone on its line has its margin. -/
inductive Spreads (source? : Text → Option Text) (resumes : Bool) :
    Text → Margin → List Node → List Output → Prop
  | nil {w m} : Spreads source? resumes w m [] ((m.closing w).map .char)
  | literal {w m text ns out} :
      Spreads source? resumes w (m.after text) ns out →
      Spreads source? resumes w m (.literal text :: ns) ((Text.lead w m text).map .char ++ out)
  | variable {w m name ns out} :
      Spreads source? resumes w .paid ns out →
      Spreads source? resumes w m (.variable name :: ns)
        ((m.owed w).map .char ++ .variable name :: out)
  | inside {w m name source ns a b} :
      source? name = some source → Spreads source? resumes [] .fresh source.nodes a →
      Spreads source? resumes w .paid ns b →
      Spreads source? resumes w m (.reference (.named name) none :: ns)
        ((m.owed w).map .char ++ (a ++ b))
  | alone {w m name v source ns a b} :
      source? name = some source → Spreads source? resumes (w ++ v) .fresh source.nodes a →
      Spreads source? resumes w (if resumes then .due else .paid) ns b →
      Spreads source? resumes w m (.reference (.named name) (some v) :: ns) (a ++ b)

theorem Spreads.unique {source? : Text → Option Text} {resumes : Bool} {w : Text} {m : Margin}
    {ns : List Node} {a b : List Output} (h : Spreads source? resumes w m ns a)
    (h' : Spreads source? resumes w m ns b) : b = a := by
  induction h generalizing b with
  | nil =>
      cases h'
      rfl
  | literal _ ih =>
      cases h' with
      | literal h' => rw [ih h']
  | «variable» _ ih =>
      cases h' with
      | «variable» h' => rw [ih h']
  | inside hsource _ _ ih₁ ih₂ =>
      cases h' with
      | inside hsource' hinner hrest =>
          obtain rfl := Option.some.inj (hsource.symm.trans hsource')
          rw [ih₁ hinner, ih₂ hrest]
  | alone hsource _ _ ih₁ ih₂ =>
      cases h' with
      | alone hsource' hinner hrest =>
          obtain rfl := Option.some.inj (hsource.symm.trans hsource')
          rw [ih₁ hinner, ih₂ hrest]

/-! ## References between partials -/

/-- The source of the caller, a name of the given kind, refers to the callee. -/
def Refers (source? : Text → Option Text) (P : Text → Prop) (caller callee : Text) : Prop :=
  P caller ∧ ∃ source, source? caller = some source ∧ callee ∈ source.references

theorem mem_references_of_mem_nodes {s name : Text} {indent : Option Text}
    (h : .reference (.named name) indent ∈ s.nodes) : name ∈ s.references :=
  Node.references_subset h List.mem_cons_self

theorem mem_references_kind {P : Text → Prop} {s name : Text} (hs : s.Plain P)
    (h : name ∈ s.references) : P name := by
  obtain ⟨tag, htag, hname⟩ := List.mem_filterMap.mp h
  have hplain := hs tag htag
  cases tag with
  | reference target =>
      cases target with
      | named other =>
          obtain rfl := Option.some.inj hname
          exact hplain
      | _ => cases hname
  | openBlock other => exact hplain.elim
  | _ => cases hname

/-- Steps that leave a class of names and do not come back make no cycle. -/
theorem not_transGen_self {steps : Text → Text → Prop} {p : Text → Prop}
    (h : ∀ caller callee, steps caller callee → p caller ∧ ¬ p callee) (name : Text) :
    ¬ Relation.TransGen steps name name := by
  intro hcycle
  obtain ⟨callee, hfirst, -⟩ := Relation.TransGen.head'_iff.mp hcycle
  obtain ⟨caller, -, hlast⟩ := Relation.TransGen.tail'_iff.mp hcycle
  exact (h _ _ hlast).2 (h _ _ hfirst).1

/-- Without cycles among finitely many names, references come to an end. -/
theorem wellFounded_refers {source? : Text → Option Text} {P : Text → Prop} {names : Set Text}
    (hfinite : names.Finite) (hnames : ∀ caller callee, Refers source? P caller callee → callee ∈ names)
    (hacyclic : ∀ name, ¬ Relation.TransGen (Refers source? P) name name) :
    WellFounded fun callee caller => Refers source? P caller callee := by
  have hfinite' : Finite names := hfinite
  have htrans : IsTrans names fun a b => Relation.TransGen (Refers source? P) b.1 a.1 :=
    ⟨fun _ _ _ h₁ h₂ => h₂.trans h₁⟩
  have hirrefl : Std.Irrefl fun a b : names => Relation.TransGen (Refers source? P) b.1 a.1 :=
    ⟨fun a h => hacyclic a.1 h⟩
  have hbelow := Finite.wellFounded_of_trans_of_irrefl
    fun a b : names => Relation.TransGen (Refers source? P) b.1 a.1
  have hlisted : ∀ a : names, Acc (fun callee caller => Refers source? P caller callee) a.1 := by
    intro a
    induction hbelow.apply a with
    | intro a _ ih =>
        refine ⟨_, fun callee hcallee => ?_⟩
        exact ih ⟨callee, hnames _ _ hcallee⟩ (.single hcallee)
  refine ⟨fun caller => ⟨_, fun callee hcallee => ?_⟩⟩
  exact hlisted ⟨callee, hnames caller callee hcallee⟩

section

variable {source? : Text → Option Text} {P : Text → Prop}

/-- The sources of these names are plain, refer to such names, and break no variable over
lines. -/
def PlainSources (source? : Text → Option Text) (P : Text → Prop) : Prop :=
  ∀ name source, P name → source? name = some source → source.Plain P ∧ source.Unbroken

theorem PlainSources.woven (h : PlainSources source? P) {name source : Text} (hname : P name)
    (hsource : source? name = some source) : Woven P true source.nodes :=
  (h name source hname hsource).1.woven (h name source hname hsource).2 true

/-- The nodes of an indented source are its nodes with margins. -/
theorem PlainSources.nodes_indentLines (h : PlainSources source? P) {name source w : Text}
    (hname : P name) (hsource : source? name = some source) (hw : ∀ c ∈ w, c = ' ' ∨ c = '\t') :
    (Text.indentLines w source).nodes = Node.shift w .fresh source.nodes := by
  obtain ⟨hplain, hunbroken⟩ := h name source hname hsource
  rw [Text.indentLines_eq_laid]
  exact Text.scan_laid hw hplain hunbroken .fresh

/-! ## Expansion -/

/-- All callers on the chain refer to the references of the nodes, directly or not. -/
def Above (source? : Text → Option Text) (P : Text → Prop) (chain : List Text)
    (ns : List Node) : Prop :=
  ∀ caller ∈ chain, ∀ name indent, .reference (.named name) indent ∈ ns →
    Relation.TransGen (Refers source? P) caller name

theorem Above.tail {chain : List Text} {n : Node} {ns : List Node}
    (h : Above source? P chain (n :: ns)) : Above source? P chain ns :=
  fun caller hcaller name indent hname =>
    h caller hcaller name indent (List.mem_cons_of_mem _ hname)

theorem Above.enter {chain : List Text} {name source : Text} {indent : Option Text}
    {ns : List Node} (h : Above source? P chain (.reference (.named name) indent :: ns))
    (hname : P name) (hsource : source? name = some source) :
    Above source? P (name :: chain) source.nodes := by
  intro caller hcaller callee other hcallee
  have hrefers : Refers source? P name callee :=
    ⟨hname, source, hsource, mem_references_of_mem_nodes hcallee⟩
  rcases List.mem_cons.mp hcaller with rfl | hcaller
  · exact .single hrefers
  · exact (h caller hcaller name indent List.mem_cons_self).tail hrefers

theorem Above.not_mem {chain : List Text} {name : Text} {indent : Option Text} {ns : List Node}
    (h : Above source? P chain (.reference (.named name) indent :: ns))
    (hacyclic : ∀ name, ¬ Relation.TransGen (Refers source? P) name name) : name ∉ chain :=
  fun hname => hacyclic name (h name hname name indent List.mem_cons_self)

/-- What is put out with resumed margins is the expansion of the nodes with margins, after
the margin that stands before them. -/
theorem Spreads.expands (hplain : PlainSources source? P)
    (hacyclic : ∀ name, ¬ Relation.TransGen (Refers source? P) name name) {w : Text} {m : Margin}
    {ns : List Node} {out : List Output} (h : Spreads source? true w m ns out) {b : Bool}
    (hns : Woven P b ns) (hw : ∀ c ∈ w, c = ' ' ∨ c = '\t') {chain : List Text}
    (hchain : Above source? P chain ns) :
    ∃ rest, out = (Node.trailing w m ns).map .char ++ rest ∧
      Expands source? false chain (Node.shift w m ns) rest := by
  induction h generalizing b chain with
  | nil => exact ⟨[], (List.append_nil _).symm, .nil⟩
  | @literal w m text ns out _ ih =>
      cases hns with
      | literal hns =>
          obtain ⟨rest, rfl, hrest⟩ := ih hns hw hchain.tail
          have hexpands : Expands source? false chain (Node.shift w m (.literal text :: ns))
              ((Text.lead w m text ++ Node.trailing w (m.after text) ns).map .char ++ rest) :=
            .literal hrest
          rw [List.map_append, List.append_assoc] at hexpands
          exact ⟨_, rfl, hexpands⟩
  | @«variable» w m name ns out _ ih =>
      cases hns with
      | «variable» _ hns =>
          obtain ⟨rest, rfl, hrest⟩ := ih hns hw hchain.tail
          rw [hns.trailing_eq]
          exact ⟨_, rfl, .variable hrest⟩
  | @inside w m name source ns a b' hsource _ _ ih₁ ih₂ =>
      cases hns with
      | reference hP _ hns =>
          obtain ⟨a', rfl, ha⟩ := ih₁ (hplain.woven hP hsource) (by simp) (hchain.enter hP hsource)
          obtain ⟨rest, rfl, hrest⟩ := ih₂ hns hw hchain.tail
          rw [(hplain.woven hP hsource).trailing_eq, hns.trailing_eq]
          rw [← hplain.nodes_indentLines hP hsource (by simp)] at ha
          exact ⟨_, rfl, .embedded hsource (hchain.not_mem hacyclic) ha hrest⟩
  | @alone w m name v source ns a b' hsource _ _ ih₁ ih₂ =>
      cases hns with
      | reference hP hv hns =>
          have hwv : ∀ c ∈ w ++ v, c = ' ' ∨ c = '\t' := List.forall_mem_append.mpr ⟨hw, hv⟩
          obtain ⟨a', rfl, ha⟩ := ih₁ (hplain.woven hP hsource) hwv (hchain.enter hP hsource)
          obtain ⟨rest, rfl, hrest⟩ := ih₂ hns hw hchain.tail
          rw [(hplain.woven hP hsource).trailing_eq, hns.trailing_eq]
          rw [← hplain.nodes_indentLines hP hsource hwv] at ha
          exact ⟨_, rfl, .embedded hsource (hchain.not_mem hacyclic) ha hrest⟩

/-! ## The two ways compared -/

theorem sublist_append_eq_iff {a a' b b' : List Output} (ha : a'.Sublist a) (hb : b'.Sublist b) :
    a' ++ b' = a ++ b ↔ a' = a ∧ b' = b := by
  constructor
  · intro h
    have hlen := congrArg List.length h
    rw [List.length_append, List.length_append] at hlen
    have hla := ha.length_le
    have hlb := hb.length_le
    exact ⟨ha.eq_of_length (by omega), hb.eq_of_length (by omega)⟩
  · rintro ⟨rfl, rfl⟩
    rfl

/-- Nothing but tags that are alone on their lines comes after such a tag. -/
def AloneLast (ns : List Node) : Prop :=
  ns.Pairwise fun n k => n.indent?.isSome = true → k = .literal [] ∨ k.indent?.isSome = true

/-- The same after a tag that is alone on its line, if there was one. -/
def AloneLastAfter (behind : Bool) (ns : List Node) : Prop :=
  (behind = true → ∀ k ∈ ns, k = .literal [] ∨ k.indent?.isSome = true) ∧ AloneLast ns

theorem aloneLastAfter_cons {behind : Bool} {n : Node} {ns : List Node} :
    AloneLastAfter behind (n :: ns) ↔
      (behind = true → n = .literal [] ∨ n.indent?.isSome = true) ∧
        AloneLastAfter (behind || n.indent?.isSome) ns := by
  unfold AloneLastAfter AloneLast
  rw [List.pairwise_cons, List.forall_mem_cons]
  constructor
  · rintro ⟨hbehind, hn, hns⟩
    refine ⟨fun h => (hbehind h).1, fun h => ?_, hns⟩
    rcases Bool.or_eq_true_iff.mp h with h | h
    · exact (hbehind h).2
    · exact fun k hk => hn k hk h
  · rintro ⟨hhead, hafter, hns⟩
    refine ⟨fun h => ⟨hhead h, hafter ?_⟩, fun k hk hn => hafter ?_ k hk, hns⟩
    · rw [h, Bool.true_or]
    · rw [hn, Bool.or_true]

/-- The margins in the two ways: the same, or behind a tag alone on its line. -/
inductive Lags : Bool → Margin → Margin → Prop
  | same (m : Margin) : Lags false m m
  | behind : Lags true .due .paid

/-- Behind such a tag the margin of the line is missing. -/
theorem Lags.owed_append {behind : Bool} {m m' : Margin} (h : Lags behind m m') (w : Text)
    (x : List Output) :
    ((m'.owed w).map Output.char ++ x).Sublist ((m.owed w).map Output.char ++ x) ∧
      ((m'.owed w).map Output.char ++ x = (m.owed w).map Output.char ++ x ↔
        w = [] ∨ behind = false) := by
  cases h with
  | same m => exact ⟨List.Sublist.refl _, by simp⟩
  | behind =>
      refine ⟨(List.nil_sublist _).append (List.Sublist.refl x), ?_⟩
      rw [List.append_cancel_right_eq]
      simp [Margin.owed, eq_comm]

/-- The margin with which a partial is called from a line with the given margin. -/
def passed (w : Text) : Option Text → Text
  | none => []
  | some v => w ++ v

/-- The partial puts out the same in the two ways. -/
def Agrees (source? : Text → Option Text) (name w : Text) : Prop :=
  ∃ source out, source? name = some source ∧
    Spreads source? true w .fresh source.nodes out ∧
    Spreads source? false w .fresh source.nodes out

/-- The nodes put something out in the two ways, less in the second one; these are equal
exactly if the condition holds. -/
def Compared (source? : Text → Option Text) (w : Text) (m m' : Margin) (ns : List Node)
    (condition : Prop) : Prop :=
  ∃ a a', Spreads source? true w m ns a ∧ Spreads source? false w m' ns a' ∧ a'.Sublist a ∧
    (a' = a ↔ condition)

theorem agrees_iff {name source w : Text} {a a' : List Output} (hsource : source? name = some source)
    (ha : Spreads source? true w .fresh source.nodes a)
    (ha' : Spreads source? false w .fresh source.nodes a') : Agrees source? name w ↔ a' = a := by
  constructor
  · rintro ⟨other, out, hother, hout, hout'⟩
    obtain rfl := Option.some.inj (hsource.symm.trans hother)
    rw [← ha.unique hout, ← ha'.unique hout']
  · rintro rfl
    exact ⟨source, a', hsource, ha, ha'⟩

/-- What comes first, and then the rest. -/
theorem Compared.step {w : Text} {m m' k k' : Margin} {ns : List Node} {rest : Prop}
    (h : Compared source? w k k' ns rest) (n : Node) {first : Prop} {x x' : List Output}
    (hx : x'.Sublist x) (hfirst : x' = x ↔ first)
    (hstep : ∀ b, Spreads source? true w k ns b → Spreads source? true w m (n :: ns) (x ++ b))
    (hstep' : ∀ b, Spreads source? false w k' ns b →
      Spreads source? false w m' (n :: ns) (x' ++ b)) :
    Compared source? w m m' (n :: ns) (first ∧ rest) := by
  obtain ⟨b, b', hb, hb', hsub, hrest⟩ := h
  refine ⟨x ++ b, x' ++ b', hstep b hb, hstep' b' hb', hx.append hsub, ?_⟩
  rw [sublist_append_eq_iff hx hsub, hfirst, hrest]

theorem Compared.congr {w : Text} {m m' : Margin} {ns : List Node} {p q : Prop}
    (h : Compared source? w m m' ns p) (hpq : p ↔ q) : Compared source? w m m' ns q :=
  propext hpq ▸ h

/-- All references of the nodes put out the same in the two ways. -/
def AllAgree (source? : Text → Option Text) (w : Text) (ns : List Node) : Prop :=
  ∀ name indent, .reference (.named name) indent ∈ ns → Agrees source? name (passed w indent)

theorem allAgree_cons {w : Text} {n : Node} {ns : List Node} :
    AllAgree source? w (n :: ns) ↔
      (∀ name indent, n = .reference (.named name) indent →
        Agrees source? name (passed w indent)) ∧ AllAgree source? w ns := by
  unfold AllAgree
  constructor
  · intro h
    exact ⟨fun name indent hn => h name indent (hn ▸ List.mem_cons_self),
      fun name indent hmem => h name indent (List.mem_cons_of_mem _ hmem)⟩
  · rintro ⟨hhead, htail⟩ name indent hmem
    rcases List.mem_cons.mp hmem with hn | hmem
    · exact hhead name indent hn.symm
    · exact htail name indent hmem

theorem allAgree_cons_of_ne {w : Text} {n : Node} {ns : List Node}
    (hn : ∀ name indent, n ≠ .reference (.named name) indent) :
    AllAgree source? w (n :: ns) ↔ AllAgree source? w ns := by
  rw [allAgree_cons]
  exact and_iff_right fun name indent h => absurd h (hn name indent)

theorem allAgree_cons_reference {w name : Text} {indent : Option Text} {ns : List Node} :
    AllAgree source? w (.reference (.named name) indent :: ns) ↔
      Agrees source? name (passed w indent) ∧ AllAgree source? w ns := by
  rw [allAgree_cons]
  refine and_congr_left fun _ => ⟨fun h => h name indent rfl, ?_⟩
  rintro h other indent' heq
  cases heq
  exact h

/-- Something stands on a line: its margin is there in the two ways. -/
theorem aloneLastAfter_of_on_line {behind : Bool} {n : Node} (hn : n ≠ .literal [])
    (hindent : n.indent? = none) (ns : List Node) :
    AloneLastAfter behind (n :: ns) ↔ behind = false ∧ AloneLastAfter false ns := by
  rw [aloneLastAfter_cons, hindent]
  cases behind with
  | true => simp [hn]
  | false => simp

/-- The sources that the nodes refer to put something out in the two ways. -/
def Covered (source? : Text → Option Text) (w : Text) (ns : List Node) : Prop :=
  ∀ name indent, .reference (.named name) indent ∈ ns → ∃ source p,
    source? name = some source ∧ Compared source? (passed w indent) .fresh .fresh source.nodes p

theorem Covered.tail {w : Text} {n : Node} {ns : List Node} (h : Covered source? w (n :: ns)) :
    Covered source? w ns :=
  fun name indent hmem => h name indent (List.mem_cons_of_mem _ hmem)

section

variable {w : Text} {m m' : Margin} {behind : Bool} {ns : List Node} (hlag : Lags behind m m')
  (hrest : ∀ {k k' : Margin} {behind : Bool}, Lags behind k k' → Compared source? w k k' ns
    ((w = [] ∨ AloneLastAfter behind ns) ∧ AllAgree source? w ns))

include hlag hrest

/-- A literal that is not empty stands on its line, and so does what follows it. -/
theorem compared_literal (text : Text) : Compared source? w m m' (.literal text :: ns)
    ((w = [] ∨ AloneLastAfter behind (.literal text :: ns)) ∧
      AllAgree source? w (.literal text :: ns)) := by
  rw [allAgree_cons_of_ne fun _ _ h => by cases h]
  cases text with
  | nil =>
      have hstep := (hrest hlag).step (.literal []) (List.Sublist.refl []) Iff.rfl
        (fun b hb => .literal hb) fun b hb => .literal hb
      refine hstep.congr ?_
      have hindent : (Node.literal []).indent? = none := rfl
      rw [aloneLastAfter_cons, hindent, Option.isSome_none, Bool.or_false]
      simp
  | cons c text =>
      obtain ⟨hsub, hequal⟩ := hlag.owed_append w ((c :: Text.lead w (next c) text).map .char)
      have hlead : ∀ k : Margin, (k.owed w).map Output.char ++
          (c :: Text.lead w (next c) text).map .char = (Text.lead w k (c :: text)).map .char :=
        fun k => List.map_append.symm
      rw [hlead, hlead] at hsub hequal
      have hstep := (hrest (Lags.same ((next c).after text))).step (.literal (c :: text)) hsub hequal
        (fun b hb => .literal hb) fun b hb => .literal hb
      refine hstep.congr ?_
      rw [aloneLastAfter_of_on_line (by simp) rfl, or_and_left]
      exact and_assoc.symm

theorem compared_variable (name : Text) : Compared source? w m m' (.variable name :: ns)
    ((w = [] ∨ AloneLastAfter behind (.variable name :: ns)) ∧
      AllAgree source? w (.variable name :: ns)) := by
  obtain ⟨hsub, hequal⟩ := hlag.owed_append w [.variable name]
  have hfirst : ∀ (resumes : Bool) (k : Margin) (b : List Output),
      Spreads source? resumes w .paid ns b → Spreads source? resumes w k (.variable name :: ns)
        ((k.owed w).map Output.char ++ [.variable name] ++ b) := by
    intro resumes k b hb
    rw [List.append_assoc]
    exact .variable hb
  have hstep := (hrest (Lags.same .paid)).step (.variable name) hsub hequal (hfirst true m)
    (hfirst false m')
  refine hstep.congr ?_
  rw [allAgree_cons_of_ne fun _ _ h => by cases h]
  rw [aloneLastAfter_of_on_line (by simp) rfl, or_and_left]
  exact and_assoc.symm

/-- What follows a tag that is alone on its line lags behind in the second way. -/
theorem compared_reference {name source : Text} {indent : Option Text} {p : Prop}
    (hsource : source? name = some source)
    (hinner : Compared source? (passed w indent) .fresh .fresh source.nodes p) :
    Compared source? w m m' (.reference (.named name) indent :: ns)
      ((w = [] ∨ AloneLastAfter behind (.reference (.named name) indent :: ns)) ∧
        AllAgree source? w (.reference (.named name) indent :: ns)) := by
  obtain ⟨a, a', ha, ha', hchild, -⟩ := hinner
  rw [allAgree_cons_reference, agrees_iff hsource ha ha']
  cases indent with
  | none =>
      obtain ⟨hsub, hequal⟩ := hlag.owed_append w []
      rw [List.append_nil, List.append_nil] at hsub hequal
      have hfirst : ∀ (resumes : Bool) (k : Margin) (x b : List Output),
          Spreads source? resumes [] .fresh source.nodes x → Spreads source? resumes w .paid ns b →
          Spreads source? resumes w k (.reference (.named name) none :: ns)
            ((k.owed w).map Output.char ++ x ++ b) := by
        intro resumes k x b hx hb
        rw [List.append_assoc]
        exact .inside hsource hx hb
      have hstep := (hrest (Lags.same .paid)).step (.reference (.named name) none)
        (hsub.append hchild) (sublist_append_eq_iff hsub hchild) (fun b => hfirst true m a b ha)
        fun b => hfirst false m' a' b ha'
      refine hstep.congr ?_
      rw [hequal, aloneLastAfter_of_on_line (by simp) rfl, or_and_left]
      exact and_and_and_comm
  | some v =>
      -- the margin of the next line is due in the first way, and counts as paid in the second
      have hstep : Compared source? w m m' (.reference (.named name) (some v) :: ns) _ :=
        (hrest Lags.behind).step _ hchild Iff.rfl (fun b hb => .alone hsource ha hb)
          fun b hb => .alone hsource ha' hb
      refine hstep.congr ?_
      rw [aloneLastAfter_cons, Node.indent?, Option.isSome_some, Bool.or_true,
        and_iff_right fun _ => .inr rfl]
      exact and_left_comm

end

/-- The two ways with the nodes of one text, from what they do with the sources that it
refers to. -/
theorem compared_nodes {b : Bool} {ns : List Node} (hns : Woven P b ns) {w : Text}
    (hcovered : Covered source? w ns) {m m' : Margin} {behind : Bool} (hlag : Lags behind m m') :
    Compared source? w m m' ns
      ((w = [] ∨ AloneLastAfter behind ns) ∧ AllAgree source? w ns) := by
  induction hns generalizing m m' behind with
  | done =>
      have hequal : m'.closing w = m.closing w := by
        cases hlag with
        | same m => rfl
        | behind => rfl
      have hafter : AloneLastAfter behind [] :=
        ⟨fun _ k hk => absurd hk List.not_mem_nil, List.Pairwise.nil⟩
      have hagree : AllAgree source? w [] := fun _ _ h => absurd h List.not_mem_nil
      refine ⟨_, _, .nil, .nil, ?_, ?_⟩
      · rw [hequal]
      · rw [hequal]
        exact iff_of_true rfl ⟨.inr hafter, hagree⟩
  | @literal text ns _ ih => exact compared_literal hlag (ih hcovered.tail) text
  | @«variable» name ns _ _ ih => exact compared_variable hlag (ih hcovered.tail) name
  | reference _ _ _ ih =>
      obtain ⟨source, p, hsource, hinner⟩ := hcovered _ _ List.mem_cons_self
      exact compared_reference hlag (ih hcovered.tail) hsource hinner

/-! ## Calls -/

/-- The template, or a partial called from it, refers to the name, and the margin `w` goes
with the call. -/
inductive Called (source? : Text → Option Text) (template : Text) : Text → Text → Prop
  | template {name indent} :
      .reference (.named name) indent ∈ template.nodes →
      Called source? template name (passed [] indent)
  | source {caller w source name indent} :
      Called source? template caller w → source? caller = some source →
      .reference (.named name) indent ∈ source.nodes →
      Called source? template name (passed w indent)

/-- Called names are of the kind that references have. -/
theorem Called.kind (hplain : PlainSources source? P) {template name w : Text}
    (htemplate : template.Plain P) (h : Called source? template name w) : P name := by
  induction h with
  | template hmem => exact (htemplate.node hmem).1
  | source _ hsource hmem ih => exact ((hplain _ _ ih hsource).1.node hmem).1

/-- Where lines of a called partial have a margin, nothing but tags alone on their lines
comes after such a tag. -/
def LinesKept (source? : Text → Option Text) (template : Text) : Prop :=
  ∀ name w source, Called source? template name w → source? name = some source → w ≠ [] →
    AloneLast source.nodes

theorem aloneLastAfter_false {ns : List Node} : AloneLastAfter false ns ↔ AloneLast ns :=
  and_iff_right fun h => by cases h

section

variable {template : Text} (hplain : PlainSources source? P)
  (hwell : WellFounded fun callee caller => Refers source? P caller callee)
  (hkind : ∀ name w, Called source? template name w → P name)
  (hfound : ∀ name w, Called source? template name w → ∃ source, source? name = some source)

include hplain hwell hkind hfound

/-- Every called partial puts something out in the two ways. -/
theorem compared_source {name w source : Text} (hcalled : Called source? template name w)
    (hsource : source? name = some source) :
    Compared source? w .fresh .fresh source.nodes
      ((w = [] ∨ AloneLast source.nodes) ∧ AllAgree source? w source.nodes) := by
  induction name using hwell.induction generalizing w source with
  | _ name ih =>
      have hcovered : Covered source? w source.nodes := by
        intro callee indent hmem
        have hcallee : Called source? template callee (passed w indent) :=
          .source hcalled hsource hmem
        obtain ⟨inner, hinner⟩ := hfound _ _ hcallee
        have hrefers : Refers source? P name callee :=
          ⟨hkind name w hcalled, source, hsource, mem_references_of_mem_nodes hmem⟩
        exact ⟨inner, _, hinner, ih callee hrefers hcallee hinner⟩
      have hnodes := compared_nodes (hplain.woven (hkind name w hcalled) hsource) hcovered (Lags.same .fresh)
      rwa [aloneLastAfter_false] at hnodes

theorem kept_of_agrees {name w source : Text} (hcalled : Called source? template name w)
    (hsource : source? name = some source) (h : Agrees source? name w) :
    (w = [] ∨ AloneLast source.nodes) ∧ AllAgree source? w source.nodes := by
  obtain ⟨a, a', ha, ha', -, hequal⟩ := compared_source hplain hwell hkind hfound hcalled hsource
  exact hequal.mp ((agrees_iff hsource ha ha').mp h)

/-- If lines are kept, every called partial puts out the same. -/
theorem agrees_of_linesKept (hlines : LinesKept source? template) {name w : Text}
    (hcalled : Called source? template name w) : Agrees source? name w := by
  induction name using hwell.induction generalizing w with
  | _ name ih =>
      obtain ⟨source, hsource⟩ := hfound _ _ hcalled
      obtain ⟨a, a', ha, ha', -, hequal⟩ := compared_source hplain hwell hkind hfound hcalled hsource
      refine (agrees_iff hsource ha ha').mpr (hequal.mpr ⟨?_, ?_⟩)
      · exact or_iff_not_imp_left.mpr fun hw => hlines name w source hcalled hsource hw
      · intro callee indent hmem
        have hrefers : Refers source? P name callee :=
          ⟨hkind name w hcalled, source, hsource, mem_references_of_mem_nodes hmem⟩
        exact ih callee hrefers (.source hcalled hsource hmem)

/-- The template puts out the same in the two ways exactly if lines are kept. -/
theorem compared_template (htemplate : Woven P true template.nodes) :
    Compared source? [] .fresh .fresh template.nodes (LinesKept source? template) := by
  have hcovered : Covered source? [] template.nodes := by
    intro name indent hmem
    obtain ⟨source, hsource⟩ := hfound _ _ (.template hmem)
    exact ⟨source, _, hsource, compared_source hplain hwell hkind hfound (.template hmem) hsource⟩
  refine (compared_nodes htemplate hcovered (Lags.same .fresh)).congr ?_
  constructor
  · rintro ⟨-, hagree⟩
    have hall : ∀ name w, Called source? template name w → Agrees source? name w := by
      intro name w hcalled
      induction hcalled with
      | template hmem => exact hagree _ _ hmem
      | source hcaller hsource hmem ih =>
          exact (kept_of_agrees hplain hwell hkind hfound hcaller hsource ih).2 _ _ hmem
    intro name w source hcalled hsource hw
    have hkept := kept_of_agrees hplain hwell hkind hfound hcalled hsource (hall name w hcalled)
    exact hkept.1.resolve_left hw
  · intro hlines
    exact ⟨.inl rfl, fun name indent hmem =>
      agrees_of_linesKept hplain hwell hkind hfound hlines (.template hmem)⟩

end

end

end Inlay.Handlebars
