import Inlay.Proofs.Operations
import Inlay.Proofs.Unindenting

/-!
# States that differ in indentation only

Two compilations of one template go along with each other, one with
indentation switched off. Where partials are dispatched they meet the same
texts. Where partials are embedded, indentation is written into the sources,
and the texts are the same without the indentation of their lines. What is
known of the two states is kept by everything that is done to both.
-/

namespace Inlay

/-! ## What indentation leaves alone -/

/-- All of the text where partials are dispatched, and the text without the indentation of its
lines where they are embedded. -/
def Text.essence (runtime atStart : Bool) (s : Text) : Text :=
  if runtime then s else unindent atStart s

/-- The name is told by its essence. -/
def Text.Exact (runtime : Bool) (name : Text) : Prop :=
  runtime = true ∨ '\n' ∉ name

instance (runtime : Bool) : DecidablePred (Text.Exact runtime) := fun name =>
  inferInstanceAs (Decidable (runtime = true ∨ '\n' ∉ name))

namespace Text

variable {runtime : Bool} {s t : Text}

theorem Exact.essence_eq (h : s.Exact runtime) : s.essence runtime false = s := by
  cases runtime with
  | true => rfl
  | false => exact unindent_of_not_mem (h.resolve_left nofun)

theorem exact_iff_of_essence_eq (h : t.essence runtime false = s.essence runtime false) :
    t.Exact runtime ↔ s.Exact runtime := by
  cases runtime with
  | true => exact ⟨fun _ => .inl rfl, fun _ => .inl rfl⟩
  | false =>
      have hsame : unindent false t = unindent false s := h
      refine or_congr Iff.rfl (not_congr ?_)
      rw [← mem_unindent (b := false) isIndent_newline (s := t), hsame, mem_unindent isIndent_newline]

/-- An exact name has no other one with its essence. -/
theorem Exact.eq_of_essence_eq (hs : s.Exact runtime)
    (h : t.essence runtime false = s.essence runtime false) : t = s := by
  rw [← ((exact_iff_of_essence_eq h).mpr hs).essence_eq, h, hs.essence_eq]

theorem essence_unmask (h : t.essence runtime true = s.essence runtime true) :
    (Keyword.unmask t).essence runtime true = (Keyword.unmask s).essence runtime true := by
  cases runtime with
  | true => exact congrArg Keyword.unmask h
  | false =>
      show unindent true (replace _ _ t) = unindent true (replace _ _ s)
      rw [inert_unmask.unindent_replace, inert_unmask.unindent_replace]
      exact congrArg _ h

end Text

/-! ## Nodes -/

/-- Both tags are alone on their lines or neither is, and the lines are indented by spaces and
tabs. -/
structure IndentsAligned (runtime : Bool) (indent indent' : Option Text) : Prop where
  isSome : indent'.isSome = indent.isSome
  blank : ∀ c ∈ indent.getD [], Text.isIndent c = true
  blank' : ∀ c ∈ indent'.getD [], Text.isIndent c = true
  same : runtime = true → indent' = indent

/-- The nodes are the same but for indentation. Names of partials are the same. A literal has
indentation at its own start only where it starts a line. -/
inductive Node.Aligned (runtime atStart : Bool) : Node → Node → Prop
  | literal {text text'} : text'.essence runtime atStart = text.essence runtime atStart →
      Aligned runtime atStart (.literal text) (.literal text')
  | variable {name name'} : name'.essence runtime false = name.essence runtime false →
      Aligned runtime atStart (.variable name) (.variable name')
  | named {name indent indent'} : name.Exact runtime → IndentsAligned runtime indent indent' →
      Aligned runtime atStart (.reference (.named name) indent) (.reference (.named name) indent')
  | dynamic {expr expr' indent indent'} : expr'.essence runtime false = expr.essence runtime false →
      IndentsAligned runtime indent indent' →
      Aligned runtime atStart (.reference (.dynamic expr) indent) (.reference (.dynamic expr') indent')
  | enclosing {indent indent'} : IndentsAligned runtime indent indent' →
      Aligned runtime atStart (.reference .block indent) (.reference .block indent')
  | block {name body body' closed} : name.Exact runtime →
      body'.essence runtime true = body.essence runtime true →
      Aligned runtime atStart (.block name body closed) (.block name body' closed)
  | inlinePartial {name name' body body' closed} :
      name'.essence runtime false = name.essence runtime false →
      body'.essence runtime true = body.essence runtime true →
      Aligned runtime atStart (.inlinePartial name body closed) (.inlinePartial name' body' closed)
  | strayClose {name name'} : name'.essence runtime false = name.essence runtime false →
      Aligned runtime atStart (.strayClose name) (.strayClose name')

/-- The nodes go along with each other, and each of them starts a line where the one before it is
alone on its line. -/
inductive Node.AlignedAll (runtime : Bool) : Bool → List Node → List Node → Prop
  | nil {atStart} : AlignedAll runtime atStart [] []
  | cons {atStart n n' ns ns'} : Node.Aligned runtime atStart n n' →
      AlignedAll runtime n.takesLine ns ns' → AlignedAll runtime atStart (n :: ns) (n' :: ns')

namespace Node

/-- A node as a scan makes it: names of partials have no newlines, and lines are indented by
spaces and tabs. -/
structure Scanned (n : Node) : Prop where
  word : ∀ name ∈ n.references, '\n' ∉ name
  indent : n.BlankIndent

theorem scanned_of_mem {s : Text} {n : Node} (hn : n ∈ s.nodes) : n.Scanned :=
  ⟨fun _ hname => Text.newline_not_mem_of_blankless
    (Text.not_isBlank_of_mem_references (references_subset hn hname)), blankIndent_of_mem hn⟩

theorem Scanned.isIndent {target : Reference} {indent : Option Text}
    (h : (Node.reference target indent).Scanned) : ∀ c ∈ indent.getD [], Text.isIndent c = true := by
  intro c hc
  cases indent with
  | none => cases hc
  | some w =>
      rcases h.indent w rfl c hc with rfl | rfl <;> rfl

variable {runtime atStart : Bool} {n n' : Node}

theorem Scanned.aligned_self (h : n.Scanned) : Node.Aligned true atStart n n := by
  cases n with
  | literal text => exact .literal rfl
  | «variable» name => exact .variable rfl
  | reference target indent =>
      have hindent : IndentsAligned true indent indent := ⟨rfl, h.isIndent, h.isIndent, fun _ => rfl⟩
      cases target with
      | named name => exact .named (.inl rfl) hindent
      | dynamic expr => exact .dynamic rfl hindent
      | block => exact .enclosing hindent
  | block name body closed => exact .block (.inl rfl) rfl
  | inlinePartial name body closed => exact .inlinePartial rfl rfl
  | strayClose name => exact .strayClose rfl

theorem aligned_of_unindented_eq (hn : n.Scanned) (hn' : n'.Scanned)
    (h : n'.unindented atStart = n.unindented atStart) : Node.Aligned false atStart n n' := by
  -- a name that stays on its line has no indentation to lose
  have hword : ∀ {name name' : Text}, '\n' ∉ name → '\n' ∉ name' →
      Text.unindent false name' = Text.unindent false name → name' = name := by
    intro name name' hname hname' heq
    rwa [Text.unindent_of_not_mem hname, Text.unindent_of_not_mem hname'] at heq
  cases n with
  | literal text =>
      cases n' with
      | literal text' => exact .literal (Node.literal.inj h)
      | _ => cases h
  | «variable» name =>
      cases n' with
      | «variable» name' => exact .variable (Node.variable.inj h)
      | _ => cases h
  | reference target indent =>
      cases n' with
      | reference target' indent' =>
          obtain ⟨htarget, hmap⟩ := Node.reference.inj h
          have hsome : indent'.isSome = indent.isSome := by
            have hisSome := congrArg Option.isSome hmap
            rwa [Option.isSome_map, Option.isSome_map] at hisSome
          have hindent : IndentsAligned false indent indent' := ⟨hsome, hn.isIndent, hn'.isIndent, nofun⟩
          cases target with
          | named name =>
              cases target' with
              | named name' =>
                  have hname : '\n' ∉ name := hn.word name List.mem_cons_self
                  obtain rfl := hword hname (hn'.word name' List.mem_cons_self) (Reference.named.inj htarget)
                  exact .named (.inr hname) hindent
              | _ => cases htarget
          | dynamic expr =>
              cases target' with
              | dynamic expr' => exact .dynamic (Reference.dynamic.inj htarget) hindent
              | _ => cases htarget
          | block =>
              cases target' with
              | block => exact .enclosing hindent
              | _ => cases htarget
      | _ => cases h
  | block name body closed =>
      cases n' with
      | block name' body' closed' =>
          obtain ⟨hname, hbody, rfl⟩ := Node.block.inj h
          have hline : '\n' ∉ name := hn.word name List.mem_cons_self
          obtain rfl := hword hline (hn'.word name' List.mem_cons_self) hname
          exact .block (.inr hline) hbody
      | _ => cases h
  | inlinePartial name body closed =>
      cases n' with
      | inlinePartial name' body' closed' =>
          obtain ⟨hname, hbody, rfl⟩ := Node.inlinePartial.inj h
          exact .inlinePartial hname hbody
      | _ => cases h
  | strayClose name =>
      cases n' with
      | strayClose name' => exact .strayClose (Node.strayClose.inj h)
      | _ => cases h

theorem Aligned.takesLine_eq (h : Node.Aligned runtime atStart n n') : n'.takesLine = n.takesLine := by
  cases h with
  | named _ hindent => exact hindent.isSome
  | dynamic _ hindent => exact hindent.isSome
  | enclosing hindent => exact hindent.isSome
  | _ => rfl

theorem alignedAll_self {ns : List Node} (hns : ∀ n ∈ ns, n.Scanned) (atStart : Bool) :
    AlignedAll true atStart ns ns := by
  induction ns generalizing atStart with
  | nil => exact .nil
  | cons n ns ih =>
      obtain ⟨hn, hns⟩ := List.forall_mem_cons.mp hns
      exact .cons hn.aligned_self (ih hns _)

theorem alignedAll_of_unindentedNodes_eq {ns ns' : List Node} (hns : ∀ n ∈ ns, n.Scanned)
    (hns' : ∀ n ∈ ns', n.Scanned)
    (h : unindentedNodes atStart ns' = unindentedNodes atStart ns) :
    AlignedAll false atStart ns ns' := by
  induction ns generalizing ns' atStart with
  | nil =>
      cases ns' with
      | nil => exact .nil
      | cons => cases h
  | cons n ns ih =>
      cases ns' with
      | nil => cases h
      | cons n' ns' =>
          obtain ⟨hn, hns⟩ := List.forall_mem_cons.mp hns
          obtain ⟨hn', hns'⟩ := List.forall_mem_cons.mp hns'
          obtain ⟨hhead, htail⟩ := List.cons.inj h
          have hfirst := aligned_of_unindented_eq hn hn' hhead
          rw [hfirst.takesLine_eq] at htail
          exact .cons hfirst (ih hns hns' htail)

/-- Texts with one essence have the same nodes but for indentation. -/
theorem alignedAll_nodes {s s' : Text} (h : s'.essence runtime true = s.essence runtime true) :
    AlignedAll runtime true s.nodes s'.nodes := by
  have hs : ∀ n ∈ s.nodes, n.Scanned := fun n hn => scanned_of_mem hn
  have hs' : ∀ n ∈ s'.nodes, n.Scanned := fun n hn => scanned_of_mem hn
  cases runtime with
  | true =>
      obtain rfl : s' = s := h
      exact alignedAll_self hs true
  | false => exact alignedAll_of_unindentedNodes_eq hs hs' (Text.unindentedNodes_eq h)

end Node

/-! ## Sources found so far -/

namespace OrderedMap

/-- The maps have the same exact names in the same order, with values of one essence, and other
names of the same essences. -/
structure Alike (runtime : Bool) (m m' : OrderedMap Text) : Prop where
  keys : m'.keys.filter (fun name => name.Exact runtime) =
    m.keys.filter fun name => name.Exact runtime
  values : ∀ name, name.Exact runtime →
    (m'.get? name).map (Text.essence runtime true) = (m.get? name).map (Text.essence runtime true)
  names : ∀ name, name ∈ m'.keys.map (Text.essence runtime false) ↔
    name ∈ m.keys.map (Text.essence runtime false)

namespace Alike

variable {runtime : Bool} {m m' : OrderedMap Text} (h : Alike runtime m m')

theorem empty : Alike runtime ∅ ∅ :=
  ⟨rfl, fun _ _ => rfl, fun _ => Iff.rfl⟩

include h

theorem mem_iff {name : Text} (hname : name.Exact runtime) : name ∈ m' ↔ name ∈ m := by
  have hmem : ∀ m : OrderedMap Text, name ∈ m ↔ name ∈ m.keys.filter fun name => name.Exact runtime := by
    intro m
    simp [List.mem_filter, hname, mem_iff_mem_keys]
  rw [hmem, hmem, h.keys]

/-- A source goes to both maps, whether they have one for that name or not. -/
theorem insertIfNew {name name' value value' : Text}
    (hname : name'.essence runtime false = name.essence runtime false)
    (hvalue : value'.essence runtime true = value.essence runtime true) :
    Alike runtime (m.insertIfNew name value) (m'.insertIfNew name' value') := by
  have hkeys : ∀ (m : OrderedMap Text) (name value : Text),
      (m.insertIfNew name value).keys = if name ∈ m then m.keys else m.keys ++ [name] := by
    intro m name value
    split
    · rename_i hmem
      rw [insertIfNew_of_mem hmem]
    · rename_i hmem
      rw [OrderedMap.keys, entries_insertIfNew_of_not_mem hmem, List.map_append]
      rfl
  have hexact := Text.exact_iff_of_essence_eq hname
  refine ⟨?_, fun other hother => ?_, fun other => ?_⟩
  · rw [hkeys, hkeys]
    by_cases hfirst : name.Exact runtime
    · obtain rfl := hfirst.eq_of_essence_eq hname
      rw [if_congr (h.mem_iff hfirst) rfl rfl]
      split
      · exact h.keys
      · rw [List.filter_append, List.filter_append, h.keys]
    · have hskip : ∀ (m : OrderedMap Text) {name : Text}, ¬ name.Exact runtime →
          (if name ∈ m then m.keys else m.keys ++ [name]).filter (fun name => name.Exact runtime) =
            m.keys.filter fun name => name.Exact runtime := by
        intro m name hname
        split
        · rfl
        · rw [List.filter_append]
          simp [hname]
      rw [hskip m hfirst, hskip m' (hexact.not.mpr hfirst), h.keys]
  · rw [get?_insertIfNew, get?_insertIfNew, Option.map_or, Option.map_or, h.values other hother]
    congr 1
    by_cases heq : other = name
    · subst heq
      rw [hother.eq_of_essence_eq hname, if_pos rfl, if_pos rfl, Option.map_some, Option.map_some, hvalue]
    · have hne : other ≠ name' := by
        rintro rfl
        exact heq ((hexact.mp hother).eq_of_essence_eq hname)
      rw [if_neg heq, if_neg hne]
  · have hmem : ∀ (m : OrderedMap Text) (name value : Text),
        other ∈ (m.insertIfNew name value).keys.map (Text.essence runtime false) ↔
          other ∈ m.keys.map (Text.essence runtime false) ∨ other = name.essence runtime false := by
      intro m name value
      simp only [List.mem_map, ← mem_iff_mem_keys, mem_insertIfNew, or_and_right, exists_or,
        exists_eq_left]
      exact or_congr_right eq_comm
    rw [hmem, hmem, h.names, hname]

end Alike

/-- Where nothing is indented, the maps are equal. -/
theorem Alike.eq {m m' : OrderedMap Text} (h : Alike true m m') : m' = m := by
  have hall : ∀ keys : List Text, keys.filter (fun name => name.Exact true) = keys := fun keys =>
    List.filter_eq_self.mpr fun name _ => decide_eq_true (.inl rfl)
  refine ext_keys_get? ?_ fun name => ?_
  · have hkeys := h.keys
    rwa [hall, hall] at hkeys
  · have hvalue := h.values name (.inl rfl)
    have hself : ∀ o : Option Text, o.map (Text.essence true true) = o := fun o => by cases o <;> rfl
    rwa [hself, hself] at hvalue

end OrderedMap

/-! ## Diagnostics -/

namespace Diagnostic

/-- The diagnostic with the essence of the text that it quotes from inside of a tag. -/
def essence (runtime : Bool) : Diagnostic → Diagnostic
  | dynamicName expr => dynamicName (expr.essence runtime false)
  | unexpectedClose name => unexpectedClose (name.essence runtime false)
  | d => d

theorem map_essence_true (ds : List Diagnostic) : ds.map (essence true) = ds := by
  have hself : ∀ d ∈ ds, essence true d = id d := fun d _ => by cases d <;> rfl
  rw [List.map_congr_left hself, List.map_id]

theorem missingPartial_mem_map_essence (runtime : Bool) {name : Text} {ds : List Diagnostic} :
    missingPartial name ∈ ds.map (essence runtime) ↔ missingPartial name ∈ ds := by
  constructor
  · intro h
    obtain ⟨d, hd, heq⟩ := List.mem_map.mp h
    cases d with
    | missingPartial other =>
        obtain rfl : other = name := Diagnostic.missingPartial.inj heq
        exact hd
    | _ => cases heq
  · exact fun h => List.mem_map.mpr ⟨_, h, rfl⟩

end Diagnostic

/-! ## States -/

namespace Handlebars

open Compilation

/-- Indentation is off in the first state and on in the second one, and else they are the same but
for indentation. The units in the table have the same names. -/
structure Aligned (runtime : Bool) (f : Fragments) (bound : Bool) (s s' : Compilation) : Prop where
  mode : s.view.flags.runtime = runtime
  plain : s.view.flags.noIndent = true
  flags : s'.view.flags = { s.view.flags with noIndent := false }
  fragments : s.view.fragments = f
  fragments' : s'.view.fragments = f
  indentBound : s'.view.indentBound = bound
  hookFree : s.HookFree
  hookFree' : s'.HookFree
  directories : s'.view.directories = s.view.directories
  endings : s'.view.endings = s.view.endings
  partials : s'.view.partials = s.view.partials
  counters : s'.view.counters = s.view.counters
  chain : s'.view.chain = s.view.chain
  cached : OrderedMap.Alike runtime s.view.cached s'.view.cached
  table : s'.view.table.keys = s.view.table.keys
  diagnostics : s'.view.diagnostics.map (Diagnostic.essence runtime) =
    s.view.diagnostics.map (Diagnostic.essence runtime)
  blocks : List.Forall₂ (fun body body' : Text => body'.essence runtime true = body.essence runtime true)
    s.view.blocks s'.view.blocks
  lineIndent : ∀ c ∈ s'.view.lineIndent, Text.isIndent c = true

namespace Aligned

variable {runtime : Bool} {f : Fragments} {bound : Bool} {s s' : Compilation}
  (h : Aligned runtime f bound s s')

include h

theorem mode' : s'.view.flags.runtime = runtime := by
  rw [h.flags]
  exact h.mode

theorem noIndent_eq : s'.view.flags.noIndent = false := by
  rw [h.flags]

theorem rawSource?_eq (fs : FileSystem) (name : Text) :
    s'.context.rawSource? fs name = s.context.rawSource? fs name := by
  unfold Context.rawSource? View.candidates
  rw [h.partials, h.directories, h.endings]

theorem preloaded_eq : preloaded s'.view = preloaded s.view := by
  unfold preloaded
  rw [h.counters, h.partials]

theorem mem_table_iff (name : Text) : name ∈ s'.view.table ↔ name ∈ s.view.table := by
  rw [OrderedMap.mem_iff_mem_keys, h.table, OrderedMap.mem_iff_mem_keys]

/-! ### What is done to both states -/

theorem emit (e e' : Event) : Aligned runtime f bound (s.emit e) (s'.emit e') :=
  { h with
    hookFree := ⟨h.hookFree.hook, h.hookFree.aliases⟩
    hookFree' := ⟨h.hookFree'.hook, h.hookFree'.aliases⟩ }

theorem counted (name : Text) : Aligned runtime f bound (s.counted name) (s'.counted name) :=
  { h with
    hookFree := ⟨h.hookFree.hook, h.hookFree.aliases⟩
    hookFree' := ⟨h.hookFree'.hook, h.hookFree'.aliases⟩
    counters := congrArg (fun m : OrderedMap UInt32 => m.increment name) h.counters }

theorem report {d d' : Diagnostic} (hd : d'.essence runtime = d.essence runtime) :
    Aligned runtime f bound (s.mapView (·.report d)) (s'.mapView (·.report d')) :=
  { h with
    hookFree := ⟨h.hookFree.hook, h.hookFree.aliases⟩
    hookFree' := ⟨h.hookFree'.hook, h.hookFree'.aliases⟩
    diagnostics := by
      show (s'.view.diagnostics ++ [d']).map _ = (s.view.diagnostics ++ [d]).map _
      rw [List.map_append, List.map_append, h.diagnostics, List.map_singleton, List.map_singleton, hd] }

theorem missed (name : Text) : Aligned runtime f bound (s.missed name) (s'.missed name) := by
  unfold Compilation.missed
  rw [h.flags]
  split
  · exact h
  · exact h.report rfl

theorem missedOnce (name : Text) :
    Aligned runtime f bound (s.missedOnce name) (s'.missedOnce name) := by
  have hmem : .missingPartial name ∈ s'.view.diagnostics ↔ .missingPartial name ∈ s.view.diagnostics := by
    rw [← Diagnostic.missingPartial_mem_map_essence runtime, h.diagnostics,
      Diagnostic.missingPartial_mem_map_essence]
  unfold Compilation.missedOnce
  simp only [h.flags, hmem]
  split
  · exact h.report rfl
  · exact h

theorem dynamicNoted {expr expr' : Text} (hexpr : expr'.essence runtime false = expr.essence runtime false) :
    Aligned runtime f bound (dynamicNoted expr s) (dynamicNoted expr' s') := by
  unfold Handlebars.dynamicNoted
  rw [h.flags]
  split
  · exact h.report (congrArg Diagnostic.dynamicName hexpr)
  · exact h

theorem closeChecked (name : Text) (closed : Bool) :
    Aligned runtime f bound (closeChecked name closed s) (closeChecked name closed s') := by
  cases closed with
  | true => exact h
  | false => exact h.report rfl

theorem inlineNoted (name name' source source' : Text) :
    Aligned runtime f bound (inlineNoted name source s) (inlineNoted name' source' s') :=
  { h.counted Counter.inlineDefinitions with
    hookFree := ⟨h.hookFree.hook, h.hookFree.aliases⟩
    hookFree' := ⟨h.hookFree'.hook, h.hookFree'.aliases⟩ }

theorem atIndent (w : Text) {w' : Text} (hw : ∀ c ∈ w', Text.isIndent c = true) :
    Aligned runtime f bound (atIndent w s) (atIndent w' s') :=
  { h with
    hookFree := ⟨h.hookFree.hook, h.hookFree.aliases⟩
    hookFree' := ⟨h.hookFree'.hook, h.hookFree'.aliases⟩
    lineIndent := hw }

theorem inBlocks {blocks blocks' : List Text}
    (hblocks : List.Forall₂ (fun body body' : Text =>
      body'.essence runtime true = body.essence runtime true) blocks blocks') :
    Aligned runtime f bound (inBlocks blocks s) (inBlocks blocks' s') :=
  { h with
    hookFree := ⟨h.hookFree.hook, h.hookFree.aliases⟩
    hookFree' := ⟨h.hookFree'.hook, h.hookFree'.aliases⟩
    blocks := hblocks }

theorem enter (name : Text) : Aligned runtime f bound (s.enter name) (s'.enter name) :=
  { h with
    hookFree := ⟨h.hookFree.hook, h.hookFree.aliases⟩
    hookFree' := ⟨h.hookFree'.hook, h.hookFree'.aliases⟩
    chain := congrArg (List.cons name) h.chain }

theorem leave : Aligned runtime f bound s.leave s'.leave :=
  { h with
    hookFree := ⟨h.hookFree.hook, h.hookFree.aliases⟩
    hookFree' := ⟨h.hookFree'.hook, h.hookFree'.aliases⟩
    chain := congrArg List.tail h.chain }

theorem cache (name raw : Text) :
    Aligned runtime f bound (s.cache name name raw) (s'.cache name name raw) :=
  { h with
    hookFree := h.hookFree.cache name raw
    hookFree' := h.hookFree'.cache name raw
    cached := h.cached.insertIfNew rfl rfl }

theorem enroll (name unit unit' : Text) :
    Aligned runtime f bound (s.enroll name unit) (s'.enroll name unit') :=
  { h with
    hookFree := ⟨h.hookFree.hook, h.hookFree.aliases⟩
    hookFree' := ⟨h.hookFree'.hook, h.hookFree'.aliases⟩
    table := by
      have hkeys := OrderedMap.keys_insert h.table name unit (tableEntry name unit)
      exact (OrderedMap.keys_insert rfl name unit (tableEntry name unit')).symm.trans hkeys }

theorem isolated : Aligned runtime f true s.isolated s'.isolated :=
  { h with
    hookFree := ⟨h.hookFree.hook, h.hookFree.aliases⟩
    hookFree' := ⟨h.hookFree'.hook, h.hookFree'.aliases⟩
    indentBound := by
      show (!s'.view.flags.noIndent) = true
      rw [h.noIndent_eq]
      rfl
    blocks := .nil }

/-- Copies that were worked on are merged back. -/
theorem merge {t t' : Compilation} (ht : Aligned runtime f true t t')
    (happends : Appends s.isolated t) (happends' : Appends s'.isolated t') :
    Aligned runtime f bound (s.merge t) (s'.merge t') :=
  { h with
    hookFree := h.hookFree.merge ht.hookFree
    hookFree' := h.hookFree'.merge ht.hookFree'
    partials := congrArg₂ OrderedMap.absorb h.partials ht.partials
    counters := congrArg₂ OrderedMap.raiseAll h.counters ht.counters
    cached := by
      have hcached : (s.merge t).view.cached = t.view.cached := OrderedMap.absorb_of_prefix happends.cached
      have hcached' : (s'.merge t').view.cached = t'.view.cached :=
        OrderedMap.absorb_of_prefix happends'.cached
      rw [hcached, hcached']
      exact ht.cached
    table := by
      have htable : (s.merge t).view.table = t.view.table := OrderedMap.absorb_of_prefix happends.table
      have htable' : (s'.merge t').view.table = t'.view.table := OrderedMap.absorb_of_prefix happends'.table
      rw [htable, htable']
      exact ht.table
    diagnostics := by
      have hlength := congrArg List.length h.diagnostics
      rw [List.length_map, List.length_map] at hlength
      show (s'.view.diagnostics ++ t'.view.diagnostics.drop s'.view.diagnostics.length).map _ =
        (s.view.diagnostics ++ t.view.diagnostics.drop s.view.diagnostics.length).map _
      rw [List.map_append, List.map_append, List.map_drop, List.map_drop, h.diagnostics, ht.diagnostics,
        hlength] }

end Aligned

end Handlebars

end Inlay
