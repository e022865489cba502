import Inlay.Proofs.PrivateMarks
import Inlay.Proofs.Termination

/-!
# Compilations that are given no bells

Where neither the template, the registered partials, the files nor the
fragments have a bell, a name with one finds nothing. A compilation that
embeds has no use for private marks, so it comes to no bell at all.
-/

namespace Inlay

open Keyword

/-! ## Files without bells -/

namespace Path

theorem mem_components {path : Text} {c : Char} (hslash : c ≠ '/') (hc : c ∈ path) :
    ∃ part ∈ components path, c ∈ part := by
  induction path with
  | nil => cases hc
  | cons d path ih =>
      have hstep : components (d :: path) = if d = '/' then [] :: components path else
          (d :: (components path).headD []) :: (components path).tail := rfl
      rw [hstep]
      rcases List.mem_cons.mp hc with rfl | hc
      · rw [if_neg hslash]
        exact ⟨_, List.mem_cons_self, List.mem_cons_self⟩
      · obtain ⟨part, hpart, hmem⟩ := ih hc
        split
        · exact ⟨part, List.mem_cons_of_mem _ hpart, hmem⟩
        · cases hparts : components path with
          | nil =>
              rw [hparts] at hpart
              cases hpart
          | cons first parts =>
              rw [hparts] at hpart
              rcases List.mem_cons.mp hpart with rfl | hpart
              · exact ⟨_, List.mem_cons_self, List.mem_cons_of_mem _ hmem⟩
              · exact ⟨part, List.mem_cons_of_mem _ hpart, hmem⟩

theorem mem_join {left right : Text} {c : Char} (hc : c ∈ right) : c ∈ join left right := by
  unfold join
  split
  · exact hc
  · split
    · exact List.mem_append_right _ hc
    · exact List.mem_append_right _ (List.mem_cons_of_mem _ hc)

end Path

namespace FileSystem

/-- No file or directory has a bell in its place, and no file has one in its text. -/
structure BellFree (fs : FileSystem) : Prop where
  place : ∀ e ∈ fs.entries, ∀ part ∈ e.1, bell ∉ part
  content : ∀ e ∈ fs.entries, ∀ text, e.2 = .file (some text) → bell ∉ text

variable {fs : FileSystem} (h : fs.BellFree)

include h

theorem BellFree.bell_not_mem_part {here : Location} {part : Text} {entry : Entry}
    (hentry : fs.entry? (here ++ [part]) = some entry) : bell ∉ part := by
  unfold entry? at hentry
  rw [if_neg (List.append_ne_nil_of_right_ne_nil here (List.cons_ne_nil part []))] at hentry
  obtain ⟨front, back, hentries, -⟩ := List.lookup_eq_some_iff.mp hentry
  have hmem : (here ++ [part], entry) ∈ fs.entries := by
    rw [hentries]
    exact List.mem_append_right _ List.mem_cons_self
  exact h.place _ hmem part (List.mem_append_right _ List.mem_cons_self)

/-- Nothing is behind a path with a bell. -/
theorem BellFree.bell_not_mem_of_walk {here : Location} {entry found : Entry} {parts : List Text}
    (hwalk : fs.walk here entry parts = some found) : ∀ part ∈ parts, bell ∉ part := by
  fun_induction walk fs here entry parts with
  | case1 => exact fun part hpart => absurd hpart List.not_mem_nil
  | case2 => cases hwalk
  | case3 here part parts hstay ih =>
      refine List.forall_mem_cons.mpr ⟨?_, ih hwalk⟩
      simp only [Bool.or_eq_true, decide_eq_true_eq] at hstay
      rcases hstay with rfl | rfl
      · exact List.not_mem_nil
      · decide
  | case4 here parts hstay ih => exact List.forall_mem_cons.mpr ⟨by decide, ih hwalk⟩
  | case5 here part parts hstay hup entry hentry ih =>
      exact List.forall_mem_cons.mpr ⟨h.bell_not_mem_part hentry, ih hwalk⟩
  | case6 => cases hwalk

theorem BellFree.of_readText? {path text : Text} (hread : fs.readText? path = some text) :
    bell ∉ path ∧ bell ∉ text := by
  unfold readText? at hread
  split at hread
  · rename_i content hfind
    obtain rfl : content = some text := hread
    unfold find? at hfind
    split at hfind
    · constructor
      · intro hbell
        obtain ⟨part, hpart, hmem⟩ := Path.mem_components (by decide) (Path.mem_join hbell)
        exact h.bell_not_mem_of_walk hfind part hpart hmem
      · rcases mem_entries_of_walk hfind with hdirectory | ⟨e, he, hfile⟩
        · cases hdirectory
        · exact h.content e he text hfile
    · cases hfind
  · cases hread

end FileSystem

namespace Handlebars

open Compilation

/-! ## What is given has no bells -/

/-- Nothing that a compilation is given has a bell. -/
structure BellFree (fs : FileSystem) (options : Options) (template : Text) : Prop where
  template : bell ∉ template
  fragments : WithoutBells options.fragments
  partials : ∀ name source, options.partials.get? name = some source → bell ∉ name ∧ bell ∉ source
  files : fs.BellFree

theorem bell_not_mem_escape {s : Text} (h : bell ∉ s) : bell ∉ s.escape :=
  fun hmem => h (Text.mem_of_mem_escape hmem)

theorem bell_not_mem_unmask_of_not_mem {s : Text} (h : bell ∉ s) : bell ∉ unmask s :=
  (Clear.of_not_mem h).bell_not_mem_unmask

theorem bell_not_mem_indentLines {w s : Text} (hw : bell ∉ w) (hs : bell ∉ s) :
    bell ∉ Text.indentLines w s :=
  (Whole.indentLines (List.nil_subset _) hw (.of_not_mem hs)).bell_not_mem

/-- A name with a bell finds no source, and a source that is found has no bell. -/
theorem BellFree.of_rawSource? {fs : FileSystem} {options : Options} {template name raw : Text}
    (h : BellFree fs options template)
    (hraw : (initial options none fs).context.rawSource? fs name = some raw) :
    bell ∉ name ∧ bell ∉ raw := by
  unfold Context.rawSource? at hraw
  split at hraw
  · rename_i source hsource
    obtain rfl := Option.some.inj hraw
    exact h.partials name source hsource
  · obtain ⟨path, hpath, hread⟩ := List.exists_of_findSome?_eq_some hraw
    obtain ⟨directory, -, hpath⟩ := List.mem_flatMap.mp hpath
    obtain ⟨ending, -, rfl⟩ := List.mem_map.mp hpath
    obtain ⟨hpath, hraw⟩ := h.files.of_readText? hread
    exact ⟨fun hname => hpath (Path.mem_join (List.mem_append_left _ hname)), hraw⟩

/-! ## Messages -/

theorem not_mem_around {x y name : Text} (hx : bell ∉ x) (hname : bell ∉ name) (hy : bell ∉ y) :
    bell ∉ x ++ name ++ y :=
  List.not_mem_append (List.not_mem_append hx hname) hy

theorem bell_not_mem_missingPartial {name : Text} (h : bell ∉ name) :
    bell ∉ (Diagnostic.missingPartial name).message :=
  not_mem_around (by decide) h (by decide)

theorem bell_not_mem_arrowed : ∀ {path : List Text}, (∀ name ∈ path, bell ∉ name) →
    bell ∉ Text.arrowed path
  | [], _ => List.not_mem_nil
  | [name], h => by
      rw [Text.arrowed, List.intercalate_singleton]
      exact h name List.mem_cons_self
  | name :: other :: path, h => by
      obtain ⟨hname, hpath⟩ := List.forall_mem_cons.mp h
      rw [Text.arrowed, List.intercalate_cons_cons]
      exact not_mem_around hname (by decide) (bell_not_mem_arrowed hpath)

theorem bell_not_mem_recursivePartial {path : List Text} (h : ∀ name ∈ path, bell ∉ name) :
    bell ∉ (Diagnostic.recursivePartial path).message :=
  not_mem_around (by decide) (bell_not_mem_arrowed h) (by decide)

/-! ## Embedding -/

variable {fs : FileSystem}

/-- A state of a compilation that embeds, with no bell in its texts. -/
structure Hushed (fs : FileSystem) (s : Compilation) : Prop where
  embeds : s.view.flags.runtime = false
  hookFree : s.HookFree
  unbound : s.view.indentBound = false
  fragments : WithoutBells s.view.fragments
  raw : ∀ name raw, s.context.rawSource? fs name = some raw → bell ∉ raw
  cached : ∀ name source, s.view.cached.get? name = some source → bell ∉ name ∧ bell ∉ source
  diagnostics : ∀ d ∈ s.view.diagnostics, bell ∉ d.message
  chain : ∀ name ∈ s.view.chain, bell ∉ name
  blocks : ∀ body ∈ s.view.blocks, bell ∉ body
  lineIndent : bell ∉ s.view.lineIndent

namespace Hushed

variable {s : Compilation} (h : Hushed fs s)

include h

theorem emit (e : Event) : Hushed fs (s.emit e) :=
  { h with hookFree := ⟨h.hookFree.hook, h.hookFree.aliases⟩ }

theorem counted (name : Text) : Hushed fs (s.counted name) :=
  { h with hookFree := ⟨h.hookFree.hook, h.hookFree.aliases⟩ }

theorem report {d : Diagnostic} (hd : bell ∉ d.message) : Hushed fs (s.mapView (·.report d)) :=
  { h with
    hookFree := ⟨h.hookFree.hook, h.hookFree.aliases⟩
    diagnostics := List.forall_mem_append.mpr ⟨h.diagnostics, List.forall_mem_singleton.mpr hd⟩ }

theorem missed {name : Text} (hname : bell ∉ name) : Hushed fs (s.missed name) := by
  unfold Compilation.missed
  split
  · exact h
  · exact h.report (bell_not_mem_missingPartial hname)

theorem missedOnce {name : Text} (hname : bell ∉ name) : Hushed fs (s.missedOnce name) := by
  unfold Compilation.missedOnce
  split
  · exact h.report (bell_not_mem_missingPartial hname)
  · exact h

theorem dynamicNoted {expr : Text} (hexpr : bell ∉ expr) : Hushed fs (dynamicNoted expr s) := by
  unfold Handlebars.dynamicNoted
  split
  · exact h.report (not_mem_around (by decide) hexpr (by decide))
  · exact h

theorem closeChecked {name : Text} (hname : bell ∉ name) (closed : Bool) :
    Hushed fs (closeChecked name closed s) := by
  cases closed with
  | true => exact h
  | false => exact h.report (not_mem_around (by decide) hname (by decide))

theorem inlineNoted (name source : Text) : Hushed fs (inlineNoted name source s) :=
  { h with hookFree := ⟨h.hookFree.hook, h.hookFree.aliases⟩ }

theorem atIndent {w : Text} (hw : bell ∉ w) : Hushed fs (atIndent w s) :=
  { h with hookFree := ⟨h.hookFree.hook, h.hookFree.aliases⟩, lineIndent := hw }

theorem inBlocks {blocks : List Text} (hblocks : ∀ body ∈ blocks, bell ∉ body) :
    Hushed fs (inBlocks blocks s) :=
  { h with hookFree := ⟨h.hookFree.hook, h.hookFree.aliases⟩, blocks := hblocks }

theorem enter {name : Text} (hname : bell ∉ name) : Hushed fs (s.enter name) :=
  { h with
    hookFree := ⟨h.hookFree.hook, h.hookFree.aliases⟩
    chain := List.forall_mem_cons.mpr ⟨hname, h.chain⟩ }

theorem leave : Hushed fs s.leave :=
  { h with
    hookFree := ⟨h.hookFree.hook, h.hookFree.aliases⟩
    chain := fun name hname => h.chain name (List.mem_of_mem_tail hname) }

theorem cache {name raw : Text} (hname : bell ∉ name) (hraw : bell ∉ raw) :
    Hushed fs (s.cache name name raw) :=
  { h with
    hookFree := h.hookFree.cache name raw
    cached := OrderedMap.forall_insertIfNew h.cached ⟨hname, bell_not_mem_escape hraw⟩ }

theorem inlineCached {name source : Text} (hname : bell ∉ name) (hsource : bell ∉ source) :
    Hushed fs (inlineCached name source s) :=
  { h with
    hookFree := ⟨h.hookFree.hook, h.hookFree.aliases⟩
    cached := OrderedMap.forall_insert h.cached ⟨hname, hsource⟩ }

theorem bell_not_mem_embedded {source : Text} (hsource : bell ∉ source) :
    bell ∉ embedded s.view source := by
  unfold Inlay.embedded
  split
  · exact hsource
  · exact bell_not_mem_indentLines h.lineIndent hsource

end Hushed

/-- No text of the node has a bell. -/
structure NodeHushed (n : Node) : Prop where
  texts : ∀ t ∈ n.texts, bell ∉ t
  indent : n.BlankIndent

/-- No text of the task has a bell. Nothing is compiled apart. -/
def Task.Hushed : Task → Prop
  | .text source => bell ∉ source
  | .nodes ns => ∀ n ∈ ns, NodeHushed n
  | .node n => NodeHushed n
  | .read name => bell ∉ name
  | .unit _ => True
  | .apart _ => False
  | .embed name => bell ∉ name

theorem NodeHushed.getD {target : Reference} {indent : Option Text}
    (h : NodeHushed (.reference target indent)) : bell ∉ indent.getD [] := by
  cases indent with
  | none => exact List.not_mem_nil
  | some w => exact h.indent.bell_not_mem w rfl

/-- The code of a node that needs no run has no bell. -/
theorem NodeHushed.bell_not_mem_code {n : Node} (h : NodeHushed n) {s : Compilation} (hs : Hushed fs s)
    (hbody : n.body? = none) : bell ∉ nodeCode s.view (fun _ => []) n := by
  refine bell_not_mem_nodeCode hs.fragments hs.unbound h.texts h.indent fun body hsome => ?_
  rw [hbody] at hsome
  cases hsome

/-- A compilation that embeds comes to no bells. -/
theorem Runs.hushed {task : Task} {s t : Compilation} {code : Text} (h : Runs fs task s code t)
    (hs : Hushed fs s) (htask : task.Hushed) : Hushed fs t ∧ bell ∉ code := by
  induction h with
  | text _ ih =>
      exact ih (hs.emit _) fun n hn => ⟨bell_not_mem_texts htask hn, Node.blankIndent_of_mem hn⟩
  | nil => exact ⟨hs, List.not_mem_nil⟩
  | cons _ _ ih₁ ih₂ =>
      obtain ⟨hn, hns⟩ := List.forall_mem_cons.mp htask
      obtain ⟨hs₁, ha⟩ := ih₁ hs hn
      obtain ⟨ht, hb⟩ := ih₂ hs₁ hns
      exact ⟨ht, List.not_mem_append ha hb⟩
  | literal => exact ⟨hs, htask.bell_not_mem_code hs rfl⟩
  | «variable» => exact ⟨hs, htask.bell_not_mem_code hs rfl⟩
  | @dispatched name indent s u s₁ _ hruntime ih =>
      have hread := (ih (hs.atIndent htask.getD) (htask.texts name List.mem_cons_self)).1
      simp [hread.embeds] at hruntime
  | @embedded name indent s u s₁ code t _ _ _ ih₁ ih₂ =>
      have hname : bell ∉ name := htask.texts name List.mem_cons_self
      have hread := (ih₁ (hs.atIndent htask.getD) hname).1
      rw [hread.hookFree.resolvedName_eq, hread.hookFree.resolvedName_eq] at ih₂
      obtain ⟨ht, hcode⟩ := ih₂ hread hname
      exact ⟨ht.atIndent hs.lineIndent, hcode⟩
  | @dynamic expr indent s =>
      have hcounted := (hs.atIndent htask.getD).counted Counter.dynamicReferences
      have hexpr : bell ∉ expr := htask.texts expr List.mem_cons_self
      exact ⟨(hcounted.dynamicNoted hexpr).atIndent hs.lineIndent, htask.bell_not_mem_code hcounted rfl⟩
  | @enclosed body outer indent s code t hblocks _ ih =>
      have hbody : ∀ b ∈ body :: outer, bell ∉ b := hblocks ▸ hs.blocks
      obtain ⟨hbody, houter⟩ := List.forall_mem_cons.mp hbody
      obtain ⟨ht, hcode⟩ := ih ((hs.atIndent htask.getD).inBlocks houter)
        (bell_not_mem_indentLines htask.getD hbody)
      have hrestored := ht.inBlocks (List.forall_mem_cons.mpr ⟨hbody, ht.blocks⟩)
      exact ⟨hrestored.atIndent hs.lineIndent, hcode⟩
  | enclosedCall _ hruntime => simp [hs.embeds] at hruntime
  | notEnclosed => exact ⟨hs.report (by decide), List.not_mem_nil⟩
  | @blockDispatched name body closed s u s₁ unit t _ hruntime _ ih₁ ih₂ =>
      have hname : bell ∉ name := htask.texts name List.mem_cons_self
      have hread := (ih₁ ((hs.closeChecked hname closed).atIndent List.not_mem_nil) hname).1
      simp [hread.embeds] at hruntime
  | @blockEmbedded name body closed s u s₁ code t _ _ _ ih₁ ih₂ =>
      have hname : bell ∉ name := htask.texts name List.mem_cons_self
      have hbody : bell ∉ body := htask.texts body (List.mem_cons_of_mem _ List.mem_cons_self)
      have hread := (ih₁ ((hs.closeChecked hname closed).atIndent List.not_mem_nil) hname).1
      rw [hread.hookFree.resolvedName_eq, hread.hookFree.resolvedName_eq] at ih₂
      obtain ⟨ht, hcode⟩ := ih₂ (hread.inBlocks (List.forall_mem_cons.mpr ⟨hbody, hread.blocks⟩)) hname
      have hrestored := ht.inBlocks fun b hb => ht.blocks b (List.mem_of_mem_tail hb)
      exact ⟨hrestored.atIndent hs.lineIndent, hcode⟩
  | @inlineKnown name body closed s _ =>
      have hword : bell ∉ "inline".toList := by decide
      exact ⟨(hs.closeChecked hword closed).inlineNoted name _, List.not_mem_nil⟩
  | @inlineNew name body closed s u t _ _ ih =>
      have hname : bell ∉ name := htask.texts name List.mem_cons_self
      have hbody : bell ∉ body := htask.texts body (List.mem_cons_of_mem _ List.mem_cons_self)
      have hword : bell ∉ "inline".toList := by decide
      have hnoted := (hs.closeChecked hword closed).inlineNoted name (unmask body)
      have hcached := hnoted.inlineCached hname (bell_not_mem_unmask_of_not_mem hbody)
      exact ⟨(ih hcached trivial).1, List.not_mem_nil⟩
  | @strayClose name s =>
      have hname : bell ∉ name := htask.texts name List.mem_cons_self
      exact ⟨hs.report (not_mem_around (by decide) hname (by decide)), List.not_mem_nil⟩
  | readKnown => exact ⟨hs.counted _, List.not_mem_nil⟩
  | readMissing => exact ⟨(hs.counted _).missed htask, List.not_mem_nil⟩
  | @readFound name s raw source target u t _ hraw hparts h ih =>
      have hcounted := hs.counted Counter.references
      obtain ⟨rfl, rfl⟩ := hcounted.hookFree.parts_eq hparts
      rw [hcounted.hookFree.preprocessed_eq] at ih
      exact ⟨(ih (hcounted.cache htask (hs.raw name raw hraw)) trivial).1, List.not_mem_nil⟩
  | unitIdle => exact ⟨hs, List.not_mem_nil⟩
  | unitNew hruntime => simp [hs.embeds] at hruntime
  | apart => exact htask.elim
  | embedMissing => exact ⟨hs.missedOnce htask, List.not_mem_nil⟩
  | embedOpen _ hruntime => simp [hs.embeds] at hruntime
  | @embedGuarded name s source code t hsource _ _ _ ih =>
      obtain ⟨-, hsource⟩ := hs.cached name source hsource
      obtain ⟨ht, hcode⟩ := ih (hs.enter htask) (hs.bell_not_mem_embedded hsource)
      exact ⟨ht.leave, hcode⟩
  | @embedRepeated name s source =>
      refine ⟨hs.report (bell_not_mem_recursivePartial fun other hother => ?_), List.not_mem_nil⟩
      rcases List.mem_cons.mp (List.mem_reverse.mp hother) with rfl | hother
      · exact htask
      · exact hs.chain other hother

theorem ReadsAll.hushed {names : List Text} {s t : Compilation} (h : ReadsAll fs names s t)
    (hs : Hushed fs s) (hnames : ∀ name ∈ names, bell ∉ name) : Hushed fs t := by
  induction h with
  | nil => exact hs
  | cons hread _ ih =>
      obtain ⟨hname, hnames⟩ := List.forall_mem_cons.mp hnames
      exact ih (hread.hushed hs hname).1 hnames

end Handlebars

end Inlay
