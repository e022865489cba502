import Inlay.Proofs.IndentedRuns
import Inlay.Proofs.Spreading
import Mathlib.Data.Set.Finite.List

/-!
# Nested indentation

Sources are indented before they are scanned, and the code is what comes of
them in the end. If references are alone on their lines and sources end
their last line, the two fit together: code that is embedded with an
indentation is the code that is embedded without one, and then indented.
-/

namespace Inlay

open Margin

/-! ## Lines of code -/

namespace Text

theorem quote_lead {w : Text} (hw : '\'' ∉ w) (m : Margin) (s : Text) :
    (lead w m s).quote = lead w m s.quote := by
  have howed : ∀ k : Margin, (k.owed w).quote = k.owed w :=
    fun k => quote_of_not_mem fun h => hw (mem_of_mem_owed h)
  induction s generalizing m with
  | nil => rfl
  | cons c s ih =>
      have hcons : ∀ t : Text, quote (c :: t) = quote [c] ++ quote t := quote_append [c]
      rw [lead_cons, quote_append, howed, hcons (lead w (next c) s), ih, hcons s, lead_append]
      by_cases hc : c = '\''
      · subst hc
        exact (List.append_assoc (m.owed w) ['\\', '\''] _).symm
      · have hquote : quote [c] = [c] := by simp [quote, hc]
        rw [hquote]
        exact (List.append_assoc (m.owed w) [c] _).symm

theorem after_lead (w : Text) (m : Margin) (s : Text) : m.after (lead w m s) = m.after s := by
  induction s generalizing m with
  | nil => rfl
  | cons c s ih => rw [lead_cons, after_append, after_cons, after_cons, ih]

/-- Code that ends its last line is put out with a margin like a line of its own. -/
theorem laid_indentLines_append {m : Margin} (hm : m.atStart = true) {v code : Text}
    (hv : '\n' ∉ v) (hcode : Margin.fresh.after code = .due) (w t : Text) :
    m.after (indentLines v code) = .due ∧
      laid w m (indentLines v code ++ t) = indentLines (w ++ v) code ++ laid w .due t := by
  obtain ⟨c, s, rfl⟩ : ∃ c s, code = c :: s := by
    cases code with
    | nil => cases hcode
    | cons c s => exact ⟨c, s, rfl⟩
  have hlead : indentLines v (c :: s) = v ++ c :: lead v (next c) s := by
    rw [indentLines_eq_laid, laid_eq_lead v (.inr (List.cons_ne_nil c s)), lead_cons]
    rfl
  have hne : indentLines v (c :: s) ≠ [] := by
    rw [hlead]
    simp
  have hafter : m.after (indentLines v (c :: s)) = .due := by
    rw [hlead, after_append, after_cons, after_lead]
    exact hcode
  have hstart : lead w m (indentLines v (c :: s)) = indentLines w (indentLines v (c :: s)) := by
    obtain ⟨d, k, hk⟩ := List.exists_cons_of_ne_nil hne
    rw [indentLines_eq_laid w, hk, laid_eq_lead w (.inr (List.cons_ne_nil d k)), lead_cons, lead_cons,
      owed_of_atStart hm]
    rfl
  refine ⟨hafter, ?_⟩
  rw [laid_append, hafter, hstart, indentLines_indentLines w hv]

end Text

theorem Node.mem_of_mem_trailing {w : Text} {m : Margin} {ns : List Node} {c : Char}
    (h : c ∈ trailing w m ns) : c ∈ w := by
  unfold trailing at h
  split at h
  · cases m with
    | fresh => exact h
    | _ => cases h
  · cases h
  · cases h
  · exact mem_of_mem_owed h

/-! ## References alone on their lines -/

/-- A reference is alone on its line. -/
def Node.Alone : Node → Prop
  | .reference _ none => False
  | _ => True

instance (n : Node) : Decidable n.Alone :=
  match n with
  | .reference _ none => isFalse id
  | .reference _ (some _) => isTrue trivial
  | .literal _ => isTrue trivial
  | .variable _ => isTrue trivial
  | .block _ _ _ => isTrue trivial
  | .inlinePartial _ _ _ => isTrue trivial
  | .strayClose _ => isTrue trivial

/-- References start on lines that nothing stands on, and the last line is ended. -/
inductive Lined : Margin → List Node → Prop
  | done : Lined .due []
  | literal {m text ns} : Lined (m.after text) ns → Lined m (.literal text :: ns)
  | variable {m name ns} : Lined .paid ns → Lined m (.variable name :: ns)
  | reference {m target v ns} :
      m.atStart = true → Lined .due ns → Lined m (.reference target (some v) :: ns)

/-- A tag stands on its line. -/
theorem Margin.after_of_next? {s before inside rest : Text}
    (h : Tag.next? s = some (before, inside, rest)) (m : Margin) :
    m.after s = Margin.paid.after rest := by
  rw [Tag.eq_append_of_next? h]
  simp only [after_append, Tag.opening, Tag.closing, after_cons, after_nil]
  rfl

namespace Node

/-- A tag alone on its line comes where nothing stands on the line, and leaves an ended line. -/
theorem lined_standalone {m : Margin} {before rest kept v next : Text}
    (h : standalone m.atStart before rest = (kept, some v, next)) :
    (m.after kept).atStart = true ∧ (Margin.paid.after rest = .due → Margin.due.after next = .due) := by
  unfold standalone at h
  split at h
  · rename_i kept' v' next' hindent hrest
    obtain ⟨rfl, rfl, rfl⟩ := by simpa using h
    constructor
    · rw [lineIndent?_eq] at hindent
      split at hindent
      · rename_i hstart
        obtain ⟨rfl, -⟩ := Prod.mk.injEq .. ▸ Option.some.inj hindent
        rcases beforeLastLine_cases before with hkept | ⟨k, hkept⟩
        · rw [hkept] at hstart ⊢
          simpa using (Bool.and_eq_true_iff.mp hstart).2
        · rw [hkept, after_append]
          rfl
      · cases hindent
    · unfold lineRest? at hrest
      split at hrest
      · obtain rfl := Option.some.inj hrest
        have hline : '\n' ∉ rest.takeWhile (· != '\n') := by
          intro hmem
          have hne := List.mem_takeWhile_imp hmem
          simp at hne
        have hsplit : Margin.paid.after rest = Margin.paid.after (rest.dropWhile (· != '\n')) := by
          conv_lhs => rw [← List.takeWhile_append_dropWhile (p := (· != '\n')) (l := rest)]
          rw [after_append, after_of_not_mem hline]
        intro hended
        rw [hsplit] at hended
        cases hdrop : rest.dropWhile (· != '\n') with
        | nil => rfl
        | cons c t =>
            have hc := List.head?_dropWhile_not (· != '\n') rest
            rw [hdrop] at hc hended
            obtain rfl : c = '\n' := by simpa using hc
            exact hended
      · cases hrest
  · cases h

end Node

/-- A text whose references are alone on their lines is lined, if its last line is ended. -/
theorem Text.Plain.lined {P : Text → Prop} {s : Text} (hs : s.Plain P) {m : Margin}
    (hended : m.after s = .due) (halone : ∀ n ∈ Node.scan m.atStart s, n.Alone) :
    Lined m (Node.scan m.atStart s) := by
  suffices h : ∀ atStart, ∀ m : Margin, m.atStart = atStart → m.after s = .due →
      (∀ n ∈ Node.scan atStart s, n.Alone) → Lined m (Node.scan atStart s) from
    h _ m rfl hended halone
  intro atStart
  refine hs.induction (motive := fun atStart s => ∀ m : Margin, m.atStart = atStart →
    m.after s = .due → (∀ n ∈ Node.scan atStart s, n.Alone) → Lined m (Node.scan atStart s))
    ?_ ?_ ?_ atStart
  · intro atStart s hnext m _ hended _
    rw [Node.scan_of_none hnext]
    refine .literal ?_
    rw [hended]
    exact .done
  · rintro _ s before inside rest name hnext htag - ih m rfl hended halone
    rw [Node.scan_of_reference hnext htag] at halone ⊢
    rcases hline : Node.standalone m.atStart before rest with ⟨kept, indent, next⟩
    rw [hline] at ih halone
    obtain ⟨-, hreference, hns⟩ := by simpa only [List.forall_mem_cons] using halone
    cases indent with
    | none => exact hreference.elim
    | some v =>
        obtain ⟨hstart, hrest⟩ := Node.lined_standalone hline
        rw [after_of_next? hnext] at hended
        exact .literal (.reference hstart (ih .due rfl (hrest hended) hns))
  · intro atStart s before inside rest name hnext htag ih m _ hended halone
    rw [Node.scan_of_variable hnext htag] at halone ⊢
    obtain ⟨-, -, hns⟩ := by simpa only [List.forall_mem_cons] using halone
    rw [after_of_next? hnext] at hended
    exact .literal (.variable (ih .paid rfl hended hns))

/-- All tags are variables on one line, or references to names of the given kind that are alone
on their lines, and the last line is ended. -/
structure Text.Lined (P : Text → Prop) (s : Text) : Prop where
  plain : s.Plain P
  unbroken : s.Unbroken
  alone : ∀ n ∈ s.nodes, n.Alone
  ended : s.getLast? = some '\n'

instance (P : Text → Prop) [DecidablePred P] (s : Text) : Decidable (s.Lined P) :=
  decidable_of_iff (s.Plain P ∧ s.Unbroken ∧ (∀ n ∈ s.nodes, n.Alone) ∧ s.getLast? = some '\n')
    ⟨fun h => ⟨h.1, h.2.1, h.2.2.1, h.2.2.2⟩, fun h => ⟨h.plain, h.unbroken, h.alone, h.ended⟩⟩

theorem Text.Lined.nodes {P : Text → Prop} {s : Text} (h : s.Lined P) :
    Inlay.Lined .fresh s.nodes := by
  refine h.plain.lined ?_ h.alone
  obtain ⟨k, rfl⟩ := List.getLast?_eq_some_iff.mp h.ended
  rw [after_append]
  rfl

/-- The source that a reference embeds: the one that is cached, or else the registered one,
with its backslashes doubled. -/
def View.source? (v : View) (name : Text) : Option Text :=
  (v.cached.get? name).or ((v.partials.get? name).map Text.escape)

namespace Handlebars

open Compilation

/-! ## States -/

/-- A state of an embedding compilation that finds the same sources as the view `v`. -/
structure Finds (v : View) (s : Compilation) : Prop where
  embeds : s.view.flags.runtime = false
  indents : s.view.flags.noIndent = false
  fragments : s.view.fragments = .standard
  hookFree : s.HookFree
  nodup : s.view.chain.Nodup
  partials : s.view.partials = v.partials
  source : ∀ name, s.view.source? name = v.source? name

namespace Finds

variable {v : View} {s : Compilation} (h : Finds v s)

include h

theorem emit (e : Event) : Finds v (s.emit e) :=
  ⟨h.embeds, h.indents, h.fragments, ⟨h.hookFree.hook, h.hookFree.aliases⟩, h.nodup, h.partials,
    h.source⟩

theorem counted (name : Text) : Finds v (s.counted name) :=
  ⟨h.embeds, h.indents, h.fragments, ⟨h.hookFree.hook, h.hookFree.aliases⟩, h.nodup, h.partials,
    h.source⟩

theorem atIndent (w : Text) : Finds v (atIndent w s) :=
  ⟨h.embeds, h.indents, h.fragments, ⟨h.hookFree.hook, h.hookFree.aliases⟩, h.nodup, h.partials,
    h.source⟩

theorem enter {name : Text} (hname : name ∉ s.view.chain) : Finds v (s.enter name) :=
  ⟨h.embeds, h.indents, h.fragments, ⟨h.hookFree.hook, h.hookFree.aliases⟩,
    List.nodup_cons.mpr ⟨hname, h.nodup⟩, h.partials, h.source⟩

theorem leave : Finds v s.leave :=
  ⟨h.embeds, h.indents, h.fragments, ⟨h.hookFree.hook, h.hookFree.aliases⟩, h.nodup.tail,
    h.partials, h.source⟩

/-- A source that is cached is found already. -/
theorem cache {name raw : Text} (hraw : s.view.partials.get? name = some raw) :
    Finds v (s.cache name name raw) := by
  refine ⟨h.embeds, h.indents, h.fragments, h.hookFree.cache name raw, h.nodup, h.partials,
    fun other => ?_⟩
  rw [← h.source other]
  show ((s.view.cached.insertIfNew name raw.escape).get? other).or _ = _
  rw [OrderedMap.get?_insertIfNew, View.source?]
  cases s.view.cached.get? other with
  | some source => rfl
  | none =>
      rw [Option.none_or, Option.none_or]
      split
      · rename_i hother
        rw [hother, hraw]
        rfl
      · rfl

/-- Reading a registered partial caches its source. -/
theorem exists_read (fs : FileSystem) {name : Text} (hname : name ∈ v.partials) :
    ∃ t, Runs fs (.read name) s [] t ∧ Finds v t ∧ name ∈ t.view.cached := by
  rw [← h.partials] at hname
  obtain ⟨raw, hraw⟩ := OrderedMap.mem_iff_exists_get?.mp hname
  have hfound : s.context.rawSource? fs name = some raw := (rawSource?_of_mem hname fs).trans hraw
  refine ⟨_, runs_read_embedding h.embeds h.hookFree hfound, (h.counted _).cache hraw, ?_⟩
  exact OrderedMap.mem_insertIfNew.mpr (.inr rfl)

end Finds

/-! ## Embedded code -/

section

variable {fs : FileSystem} {v : View}

variable (fs v) in
/-- The code of a partial is this one, with its lines indented like the line of the reference.
The code ends its last line. -/
def Embeds (name code : Text) : Prop :=
  Margin.fresh.after code = .due ∧
    ∀ s, Finds v s → (∀ c ∈ s.view.lineIndent, c = ' ' ∨ c = '\t') → name ∈ s.view.cached →
      (∀ caller ∈ s.view.chain,
        Relation.TransGen (Refers v.source? fun name => name ∈ v.partials) caller name) →
      ∃ t, Runs fs (.embed name) s (Text.indentLines s.view.lineIndent code) t ∧ Finds v t

/-- The code of a variable stays on its line. -/
theorem newline_not_mem_variable {name : Text} (hname : '\n' ∉ name) :
    '\n' ∉ Fragments.standard.splice (lookup name) := by
  have hquote : '\n' ∉ name.quote := fun h => hname (Text.mem_of_mem_quote (by decide) h)
  unfold Fragments.splice lookup
  simp only [List.mem_append, hquote]
  decide

/-- A reference alone on its line embeds the code of its partial, with the indentation of the
tag. -/
theorem Embeds.exists_run {name code w : Text} (h : Embeds fs v name code)
    (hname : name ∈ v.partials) (hw : ∀ c ∈ w, c = ' ' ∨ c = '\t') {s : Compilation}
    (hs : Finds v s)
    (hchain : ∀ caller ∈ s.view.chain,
      Relation.TransGen (Refers v.source? fun name => name ∈ v.partials) caller name) :
    ∃ t, Runs fs (.node (.reference (.named name) (some w))) s (Text.indentLines w code) t ∧
      Finds v t := by
  obtain ⟨s₁, hread, hs₁, hcached⟩ := (hs.atIndent w).exists_read fs hname
  have hindent : s₁.view.lineIndent = w := congrArg (fun c => c.lineIndent) hread.scope_eq
  have hembed := h.2 s₁ hs₁ (hindent ▸ hw) hcached (hread.chain_eq ▸ hchain)
  rw [hindent] at hembed
  obtain ⟨t, hembed, ht⟩ := hembed
  rw [← hs₁.hookFree.resolvedName_eq name, ← hs₁.hookFree.resolvedName_eq name] at hembed
  have hrun : Runs fs (.node (.reference (.named name) (some w))) s (Text.indentLines w code)
      (atIndent s.view.lineIndent t) := .embedded hread hs₁.embeds hembed
  exact ⟨_, hrun, ht.atIndent _⟩

/-- Nodes with margins come to one code with margins, whatever the margin. -/
theorem exists_base {b : Bool} {ns : List Node} (hns : Woven (fun name => name ∈ v.partials) b ns)
    {m : Margin} (hlined : Lined m ns)
    (hcalls : ∀ name indent, .reference (.named name) indent ∈ ns → ∃ code, Embeds fs v name code) :
    ∃ base, m.after base = .due ∧
      ∀ w s, (∀ c ∈ w, c = ' ' ∨ c = '\t') → Finds v s →
        Above v.source? (fun name => name ∈ v.partials) s.view.chain ns →
        ∃ code t, Runs fs (.nodes (Node.shift w m ns)) s code t ∧ Finds v t ∧
          Node.trailing w m ns ++ code = Text.laid w m base := by
  -- the code is found before the margin is known, since the margin grows from partial to partial
  induction hns generalizing m with
  | done =>
      cases hlined
      exact ⟨[], rfl, fun w s _ hs _ => ⟨[], s, .nil, hs, rfl⟩⟩
  | @literal text ns hns ih =>
      cases hlined with
      | literal hlined =>
          obtain ⟨base, hended, hbase⟩ := ih hlined fun name indent hmem =>
            hcalls name indent (List.mem_cons_of_mem _ hmem)
          refine ⟨text.quote ++ base, ?_, fun w s hw hs habove => ?_⟩
          · rw [after_append, after_quote, hended]
          · obtain ⟨code, t, hrun, ht, hcode⟩ := hbase w s hw hs habove.tail
            refine ⟨_, t, .cons .literal hrun, ht, ?_⟩
            have hw' : '\'' ∉ w := Text.not_mem_of_blank hw (by decide) (by decide)
            have htrailing : (Node.trailing w (m.after text) ns).quote = _ :=
              Text.quote_of_not_mem fun h => hw' (Node.mem_of_mem_trailing h)
            rw [Text.quote_append, Text.quote_lead hw', htrailing, List.append_assoc, hcode,
              Text.laid_append, after_quote]
            rfl
  | @«variable» name ns hname hns ih =>
      cases hlined with
      | «variable» hlined =>
          obtain ⟨base, hended, hbase⟩ := ih hlined fun name indent hmem =>
            hcalls name indent (List.mem_cons_of_mem _ hmem)
          have hline := newline_not_mem_variable hname
          have hne : Fragments.standard.splice (lookup name) ≠ [] :=
            List.append_ne_nil_of_right_ne_nil _ (by decide)
          refine ⟨Fragments.standard.splice (lookup name) ++ base, ?_, fun w s hw hs habove => ?_⟩
          · rw [after_append, (Text.lead_of_line hne hline [] m).2, hended]
          · obtain ⟨code, t, hrun, ht, hcode⟩ := hbase w s hw hs habove.tail
            rw [hns.trailing_eq, List.nil_append] at hcode
            refine ⟨_, t, .cons .variable hrun, ht, ?_⟩
            rw [hs.fragments, hcode, Text.laid_append_of_line hne hline]
            rfl
  | @reference name indent ns hname hindent hns ih =>
      cases hlined with
      | @reference _ _ indent _ hstart hlined =>
          obtain ⟨inner, hinner⟩ := hcalls name (some indent) List.mem_cons_self
          obtain ⟨base, hended, hbase⟩ := ih hlined fun name indent hmem =>
            hcalls name indent (List.mem_cons_of_mem _ hmem)
          have hline : '\n' ∉ indent := Text.not_mem_of_blank hindent (by decide) (by decide)
          refine ⟨Text.indentLines indent inner ++ base, ?_, fun w s hw hs habove => ?_⟩
          · rw [after_append, (Text.laid_indentLines_append hstart hline hinner.1 [] []).1, hended]
          · have hblank : ∀ c ∈ w ++ indent, c = ' ' ∨ c = '\t' :=
              List.forall_mem_append.mpr ⟨hw, hindent⟩
            obtain ⟨s₁, hrun₁, hs₁⟩ := hinner.exists_run hname hblank hs fun caller hcaller =>
              habove caller hcaller name (some indent) List.mem_cons_self
            obtain ⟨code, t, hrun, ht, hcode⟩ := hbase w s₁ hw hs₁ (hrun₁.chain_eq ▸ habove.tail)
            rw [hns.trailing_eq, List.nil_append] at hcode
            refine ⟨_, t, .cons hrun₁ hrun, ht, ?_⟩
            rw [hcode, (Text.laid_indentLines_append hstart hline hinner.1 w base).2]
            rfl

section

variable (hlined : ∀ name source, name ∈ v.partials → v.source? name = some source →
    source.Lined fun name => name ∈ v.partials)
  (hacyclic : ∀ name,
    ¬ Relation.TransGen (Refers v.source? fun name => name ∈ v.partials) name name)

include hlined

/-- References come to an end, as registered names are finitely many. -/
theorem wellFounded_registered (hacyclic : ∀ name,
    ¬ Relation.TransGen (Refers v.source? fun name => name ∈ v.partials) name name) :
    WellFounded fun callee caller =>
      Refers v.source? (fun name => name ∈ v.partials) caller callee := by
  refine wellFounded_refers (List.finite_toSet v.partials.keys) ?_ hacyclic
  rintro caller callee ⟨hcaller, source, hsource, hcallee⟩
  exact mem_references_kind (hlined caller source hcaller hsource).plain hcallee

include hacyclic

/-- The code of a registered partial with an indentation is its code without, indented. -/
theorem exists_embeds {name : Text} (hname : name ∈ v.partials) : ∃ code, Embeds fs v name code := by
  induction name using (wellFounded_registered hlined hacyclic).induction with
  | _ name ih =>
      obtain ⟨source, hsource⟩ : ∃ source, v.source? name = some source := by
        obtain ⟨raw, hraw⟩ := OrderedMap.mem_iff_exists_get?.mp hname
        unfold View.source?
        rw [hraw]
        cases v.cached.get? name with
        | none => exact ⟨_, rfl⟩
        | some source => exact ⟨source, rfl⟩
      have hlines := hlined name source hname hsource
      have hwoven : Woven (fun name => name ∈ v.partials) true source.nodes :=
        hlines.plain.woven hlines.unbroken true
      have hrefers : ∀ callee indent, .reference (.named callee) indent ∈ source.nodes →
          Refers v.source? (fun name => name ∈ v.partials) name callee :=
        fun callee indent hmem => ⟨hname, source, hsource, mem_references_of_mem_nodes hmem⟩
      obtain ⟨base, hended, hbase⟩ := exists_base hwoven hlines.nodes fun callee indent hmem =>
        ih callee (hrefers callee indent hmem) (hlines.plain.node hmem).1
      refine ⟨base, hended, fun s hs hw hcached hchain => ?_⟩
      have hnew : name ∉ s.view.chain := fun h => hacyclic name (hchain name h)
      obtain ⟨other, hother⟩ := OrderedMap.mem_iff_exists_get?.mp hcached
      obtain rfl : other = source := by
        have hfound := hs.source name
        unfold View.source? at hfound hsource
        rw [hother, hsource] at hfound
        exact Option.some.inj hfound
      have habove : Above v.source? (fun name => name ∈ v.partials) (name :: s.view.chain)
          other.nodes := by
        intro caller hcaller callee indent hmem
        rcases List.mem_cons.mp hcaller with rfl | hcaller
        · exact .single (hrefers callee indent hmem)
        · exact (hchain caller hcaller).tail (hrefers callee indent hmem)
      have hnodes : (embedded s.view other).nodes =
          Node.shift s.view.lineIndent .fresh other.nodes := by
        have hplaced : embedded s.view other = Text.indentLines s.view.lineIndent other :=
          if_neg (Bool.eq_false_iff.mp hs.indents)
        rw [hplaced, Text.indentLines_eq_laid]
        exact Text.scan_laid hw hlines.plain hlines.unbroken .fresh
      have henter := (hs.enter hnew).emit (.compile (s.enter name).view (embedded s.view other))
      obtain ⟨code, t, hrun, ht, hcode⟩ := hbase s.view.lineIndent _ hw henter habove
      rw [hwoven.trailing_eq, List.nil_append, ← Text.indentLines_eq_laid] at hcode
      rw [← hnodes, hcode] at hrun
      exact ⟨t.leave, .embedGuarded hother hs.embeds (List.nodup_cons.mpr ⟨hnew, hs.nodup⟩)
        (.text hrun), ht.leave⟩

end

/-- A partial that is embedded has its code, indented, once calls may nest deep
enough. -/
theorem Embeds.exists_bound {name code : Text} (h : Embeds fs v name code) {s : Compilation}
    (hs : Finds v s) (hcached : name ∈ s.view.cached) (hchain : s.view.chain = []) {w : Text}
    (hw : ∀ c ∈ w, c = ' ' ∨ c = '\t') :
    ∃ bound, ∀ depth, bound ≤ depth →
      ∃ t, embed (host depth) name fs (atIndent w s) = some (Text.indentLines w code, t) := by
  have hindent := hs.atIndent w
  have hblank : ∀ c ∈ w, isBlank c = true := fun c hc => isBlank_of_space_or_tab (hw c hc)
  have hnone : ∀ caller ∈ (atIndent w s).view.chain,
      Relation.TransGen (Refers v.source? fun name => name ∈ v.partials) caller name := by
    intro caller hcaller
    have hmem : caller ∈ s.view.chain := hcaller
    rw [hchain] at hmem
    cases hmem
  obtain ⟨t, hrun, -⟩ := h.2 (atIndent w s) hindent hw hcached hnone
  obtain ⟨bound, hbound⟩ :=
    exists_embed_of_hookFree fs hindent.embeds hindent.hookFree hblank hindent.nodup name
  refine ⟨bound, fun depth hdepth => ⟨t, ?_⟩⟩
  obtain ⟨other, t', hembed⟩ := hbound depth hdepth
  have hruns := (sound_host fs depth).runs_embed hembed
  rw [hindent.hookFree.resolvedName_eq] at hruns
  obtain ⟨rfl, rfl⟩ := hrun.unique hruns
  exact hembed

end

/-- Nested indentation adds up. If references in registered sources are alone on their lines,
name registered partials and do not go round in circles, and sources end their last line, then
the code of a partial that is embedded on an indented line is its code on a line that is not
indented, with every line of that code indented. -/
theorem nested_indentation_adds_up (fs : FileSystem) (s : Compilation) (name w : Text)
    (hembeds : s.view.flags.runtime = false) (hindents : s.view.flags.noIndent = false)
    (hfragments : s.view.fragments = .standard) (hfree : s.HookFree)
    (hlined : ∀ name source, name ∈ s.view.partials → s.view.source? name = some source →
      source.Lined fun name => name ∈ s.view.partials)
    (hacyclic : ∀ name,
      ¬ Relation.TransGen (Refers s.view.source? fun name => name ∈ s.view.partials) name name)
    (hname : name ∈ s.view.partials) (hcached : name ∈ s.view.cached) (hchain : s.view.chain = [])
    (hw : ∀ c ∈ w, c = ' ' ∨ c = '\t') :
    ∃ bound, ∀ depth, bound ≤ depth → ∃ code t t',
      embed (host depth) name fs (atIndent [] s) = some (code, t) ∧
      embed (host depth) name fs (atIndent w s) = some (Text.indentLines w code, t') := by
  obtain ⟨code, hcode⟩ := exists_embeds hlined hacyclic hname
  have hs : Finds s.view s :=
    ⟨hembeds, hindents, hfragments, hfree, hchain ▸ List.nodup_nil, rfl, fun _ => rfl⟩
  obtain ⟨bound, hplain⟩ := hcode.exists_bound hs hcached hchain (w := []) (by simp)
  obtain ⟨bound', hmargins⟩ := hcode.exists_bound hs hcached hchain hw
  refine ⟨max bound bound', fun depth hdepth => ?_⟩
  obtain ⟨t, hembed⟩ := hplain depth (le_of_max_le_left hdepth)
  obtain ⟨t', hembed'⟩ := hmargins depth (le_of_max_le_right hdepth)
  rw [Text.indentLines_empty] at hembed
  exact ⟨code, t, t', hembed, hembed'⟩

/-! A partial that calls another one on an indented line. -/

def stackedOptions : Options :=
  { Options.standard with
    partials := .ofList
      [("outer".toList, "o\n  \x7b\x7b> inner\x7d\x7d\n".toList),
        ("inner".toList, "i\x7b\x7bv\x7d\x7d\n".toList)] }

/-- The partial that calls is cached, the other one is not yet. -/
def stackedState : Compilation :=
  (Compilation.initial stackedOptions none (.emptyAt ['/'])).cache "outer".toList "outer".toList
    "o\n  \x7b\x7b> inner\x7d\x7d\n".toList

theorem nested_indentation_adds_up_stacked :
    ("outer".toList ∈ stackedState.view.partials ∧ "outer".toList ∈ stackedState.view.cached) ∧
    ∃ bound, ∀ depth, bound ≤ depth → ∃ t t',
      embed (host depth) "outer".toList (.emptyAt ['/']) (atIndent [] stackedState) =
        some ("o\n  i'.$in['v'].'\n".toList, t) ∧
      embed (host depth) "outer".toList (.emptyAt ['/']) (atIndent "\t".toList stackedState) =
        some ("\to\n\t  i'.$in['v'].'\n".toList, t') := by
  have hall : ∀ name ∈ stackedState.view.partials.keys,
      ∀ source ∈ stackedState.view.source? name,
        (source.Lined fun name => name ∈ stackedState.view.partials) ∧
          ∀ callee ∈ source.references, name = "outer".toList ∧ callee = "inner".toList := by
    decide +kernel
  have hrefers : ∀ caller callee, Refers stackedState.view.source?
      (fun name => name ∈ stackedState.view.partials) caller callee →
        caller = "outer".toList ∧ callee = "inner".toList := by
    rintro caller callee ⟨hcaller, source, hsource, hcallee⟩
    exact (hall caller hcaller source hsource).2 callee hcallee
  have hmem : "outer".toList ∈ stackedState.view.partials := by decide +kernel
  have hcached : "outer".toList ∈ stackedState.view.cached := by decide +kernel
  have hacyclic : ∀ name, ¬ Relation.TransGen (Refers stackedState.view.source?
      fun name => name ∈ stackedState.view.partials) name name := by
    refine not_transGen_self (p := fun name => name = "outer".toList) fun caller callee h => ?_
    obtain ⟨rfl, rfl⟩ := hrefers caller callee h
    exact ⟨rfl, by decide⟩
  have hplain : (embed (host 3) "outer".toList (.emptyAt ['/']) (atIndent [] stackedState)).map
      (·.1) = some "o\n  i'.$in['v'].'\n".toList := by
    decide +kernel
  obtain ⟨⟨code, s₃⟩, hembed, rfl⟩ := Option.map_eq_some_iff.mp hplain
  have hruns := (sound_host _ 3).runs_embed hembed
  obtain ⟨bound, hadds⟩ := nested_indentation_adds_up (.emptyAt ['/']) stackedState "outer".toList
    "\t".toList rfl rfl rfl ⟨rfl, rfl⟩
    (fun name source hname hsource => (hall name hname source hsource).1) hacyclic hmem hcached rfl
    (by decide)
  refine ⟨⟨hmem, hcached⟩, bound, fun depth hdepth => ?_⟩
  obtain ⟨code', t, t', hempty, htab⟩ := hadds depth hdepth
  -- deeper nesting gives the code that is known
  obtain ⟨rfl, -⟩ := hruns.unique ((sound_host _ depth).runs_embed hempty)
  refine ⟨t, t', hempty, ?_⟩
  rw [htab]
  rfl

end Handlebars

end Inlay
