import Inlay.Proofs.UnitCallables
import Inlay.Proofs.EmbeddedSources
import Inlay.Proofs.SourceInvariants

/-!
# Text with the function keyword

A template and partials without bells stay so: no source that is cached has
one. So every unit can be written down from its source, if no callable opens
in what is heard of it, and has each run of literal text that is in the
source, also where a body is nested in a body. A body is heard as it was
written, so the function keyword before a parenthesis in a body makes a
callable of what is literal text.
-/

namespace Inlay.Handlebars

open Callable Compilation Keyword

/-! ## Sources without bells -/

/-- Preprocessing brings no bells to sources, and to names none but those of a masked keyword. -/
structure QuietHook (hook : Hook) : Prop where
  source : ∀ v raw name, bell ∉ raw → bell ∉ (hook v raw name).1
  target : ∀ v raw name, bell ∉ raw → Clear name → Clear (hook v raw name).2

/-- Sources that can be found have no bells, and preprocessing brings none. -/
structure Muted (fs : FileSystem) (s : Compilation) : Prop where
  raw : ∀ name raw, s.context.rawSource? fs name = some raw → bell ∉ raw
  hook : ∀ hook, s.context.hook = some hook → QuietHook hook

namespace Muted

variable {fs : FileSystem} {s : Compilation} (h : Muted fs s)

include h

theorem of_findsAlike {t : Compilation} (ht : FindsAlike fs s t) : Muted fs t :=
  ⟨fun name raw hraw => h.raw name raw ((ht.raw name).symm.trans hraw),
    fun hook hhook => h.hook hook (ht.hook.symm.trans hhook)⟩

theorem of_scope {t : Compilation} (hscope : t.scope = s.scope) : Muted fs t :=
  h.of_findsAlike ((FindsAlike.refl s).of_scope hscope)

theorem preprocess {raw : Text} (hraw : bell ∉ raw) (name : Text) :
    bell ∉ (s.context.preprocess raw name).1 ∧
      (Clear name → Clear (s.context.preprocess raw name).2) := by
  unfold Context.preprocess
  split
  · rename_i hook hhook
    have hquiet := h.hook hook hhook
    exact ⟨hquiet.source _ raw name hraw, hquiet.target _ raw name hraw⟩
  · exact ⟨hraw, id⟩

end Muted

/-- No cached source has bells, and names that were given are clear. -/
structure ClearNames (n : Names) : Prop where
  sources : ∀ name source, n.cached.get? name = some source → bell ∉ source
  targets : ∀ name target, n.aliases.get? name = some target → Clear name → Clear target

namespace ClearNames

variable {n m : Names} (h : ClearNames n)

include h

theorem cache {name target source : Text} (hsource : bell ∉ source)
    (htarget : Clear name → Clear target) : ClearNames (n.cache name target source) := by
  constructor
  · refine OrderedMap.forall_insertIfNew h.sources fun hmem => ?_
    exact hsource (Text.mem_of_mem_escape hmem)
  · intro other found hfound
    rw [Names.get?_cache] at hfound
    rcases Option.or_eq_some_iff.mp hfound with hold | ⟨-, hnew⟩
    · exact h.targets other found hold
    · split at hnew
      · rename_i hboth
        obtain rfl := Option.some.inj hnew
        exact hboth.1 ▸ htarget
      · cases hnew

theorem insert {name source : Text} (hsource : bell ∉ source) :
    ClearNames ⟨n.aliases, n.cached.insert name source⟩ :=
  ⟨OrderedMap.forall_insert h.sources hsource, h.targets⟩

theorem merge (hm : ClearNames m) : ClearNames (n.merge m) :=
  ⟨OrderedMap.forall_absorb h.sources hm.sources, OrderedMap.forall_absorb h.targets hm.targets⟩

/-- Masked names of a compilation without bells stand for such. -/
theorem quiet : Quiet n.resolve := by
  intro name hname
  have hclear : Clear (mask name) := (Clear.of_not_mem hname).masked
  unfold Names.resolve
  cases htarget : n.aliases.get? (mask name) with
  | none => exact hclear
  | some target => exact h.targets _ _ htarget hclear

end ClearNames

/-- The texts that the task comes to are clear. With dispatching nothing is embedded. -/
def Task.Clear : Task → Prop
  | .text source => Handlebars.Clear source
  | .nodes ns => ∀ n ∈ ns, ∀ body, n.body? = some body → Handlebars.Clear body
  | .node n => ∀ body, n.body? = some body → Handlebars.Clear body
  | .apart template => Handlebars.Clear template
  | .embed _ => False
  | _ => True

variable {fs : FileSystem} {flags : Flags} {fragments : Fragments}

theorem Muted.upheld {first : Compilation} (h : Muted fs first) : Upheld fs first ClearNames Clear where
  found s hs name raw source target n hraw hparts hclear := by
    have hmuted := h.of_findsAlike hs
    obtain ⟨hsource, htarget⟩ := hmuted.preprocess (hmuted.raw name raw hraw) name
    rw [hparts] at hsource htarget
    exact hclear.cache hsource htarget
  defined n name body hbody hclear := hclear.insert hbody.bell_not_mem_unmask
  merged n m hn hm := hn.merge hm
  source n name source hclear hsource := .of_not_mem (hclear.sources name source hsource)
  masked text htext := htext.masked
  body text htext n hn body hbody := Clear.body htext hn hbody

theorem Runs.clearNames {task : Task} {s t : Compilation} {code : Text} (h : Runs fs task s code t)
    (hs : Calling flags fragments s) (hmuted : Muted fs s) (htask : task.Clear)
    (hclear : ClearNames s.names) : ClearNames t.names := by
  have hbears : task.Bears Handlebars.Clear := by
    cases task <;> exact htask
  exact h.upheld hmuted.upheld hs (.refl s) hbears hclear

theorem ReadsAll.clearNames {names : List Text} {s t : Compilation} (h : ReadsAll fs names s t)
    (hs : Calling flags fragments s) (hmuted : Muted fs s) (hclear : ClearNames s.names) :
    ClearNames t.names :=
  h.upheld hmuted.upheld hs (.refl s) hclear

/-! ## Runs of literal text -/

/-- The literal text stands in the text, or in the body of a block in it, at any depth. -/
inductive HasRun : Text → Text → Prop
  | own {text run} : .literal run ∈ text.nodes → HasRun text run
  | inside {text name body closed run} :
      .block name body closed ∈ text.nodes → HasRun body run → HasRun text run

/-- The first text is the second one with margins put into it. -/
inductive Margined (f : Fragments) : Text → Text → Prop
  | nil : Margined f [] []
  | char (c : Char) {u s : Text} : Margined f u s → Margined f (c :: u) (c :: s)
  | led {u s : Text} : Margined f u s → Margined f (margin f ++ u) s

section

variable {f : Fragments} {u s : Text}

theorem Margined.refl (s : Text) : Margined f s s := by
  induction s with
  | nil => exact .nil
  | cons c s ih => exact .char c ih

theorem Margined.owed (h : Margined f u s) (m : Margin) : Margined f (m.owed (margin f) ++ u) s := by
  cases m with
  | paid => exact h
  | _ => exact h.led

theorem Margined.lead (hf : Neutral f) (h : Margined f u s) (m : Margin) :
    Margined f (Text.lead (margin f) m u) s := by
  induction h generalizing m with
  | nil => exact .nil
  | char c _ ih => exact (Margined.char c (ih _)).owed m
  | led _ ih =>
      have hne : margin f ≠ [] := List.cons_ne_nil _ _
      obtain ⟨hlead, hafter⟩ := Text.lead_of_line hne hf.guarded_margin.line (margin f) m
      rw [Text.lead_append, hlead, hafter, List.append_assoc]
      exact (ih .paid).led.owed m

theorem lead_isInfix {x y : Text} (h : x <:+: y) (w : Text) (m : Margin) :
    ∃ m', Text.lead w m' x <:+: Text.lead w m y := by
  obtain ⟨before, after, rfl⟩ := h
  rw [Text.lead_append, Text.lead_append]
  exact ⟨m.after before, _, _, rfl⟩

theorem nodeText_isInfix_bodyText (unit : Text → Text) {ns : List Node} {n : Node} (hn : n ∈ ns)
    (m : Margin) : ∃ m', Text.lead (margin f) m' (nodeText f unit n) <:+: bodyText f unit m ns := by
  induction ns generalizing m with
  | nil => cases hn
  | cons first ns ih =>
      rw [bodyText]
      rcases List.mem_cons.mp hn with rfl | hn
      · exact ⟨n.start m, (List.prefix_append _ _).isInfix⟩
      · obtain ⟨m', h⟩ := ih hn _
        exact ⟨m', h.trans (List.suffix_append _ _).isInfix⟩

theorem bodyText_isInfix_unitText (rename : Text → Text) (k : Nat) (text : Text) :
    bodyText f (unitText f rename (k + 1)) .fresh (text.renamedNodes rename) <:+:
      unitText f rename k text := by
  rw [unitText_eq]
  refine ⟨header k ++ (f.opening ++ ['\'']), '\'' :: (f.closing ++ ['\x7d']), ?_⟩
  simp [enclose]

theorem unit_isInfix_nodeText {unit : Text → Text} {name body : Text} {closed : Bool} :
    unit body <:+: nodeText f unit (.block name body closed) := by
  have hcall : unit body <:+: callOf f (nameLiteral name) none (", ".toList ++ unit body) := by
    unfold callOf
    refine ⟨"LR::p($cx, ".toList ++ (nameLiteral name ++ (", $in, ".toList ++
      (passedIndent f none ++ ", ".toList))), [')'], ?_⟩
    simp only [List.append_assoc]
  refine hcall.trans ⟨'\'' :: f.separator, f.separator ++ ['\''], ?_⟩
  simp [nodeText, splice_eq]

/-- Each run of literal text is in the unit, with quoted apostrophes and with margins. -/
theorem HasRun.margined {text run : Text} (h : HasRun text run) (hf : Neutral f)
    (rename : Text → Text) (k : Nat) :
    ∃ u, Margined f u run.quote ∧ u <:+: unitText f rename k text := by
  induction h generalizing k with
  | own hn =>
      have hn' := List.mem_map_of_mem (f := Node.called rename) hn
      obtain ⟨m, hinside⟩ := nodeText_isInfix_bodyText (unitText f rename (k + 1)) hn' .fresh
      exact ⟨_, (Margined.refl _).lead hf m, hinside.trans (bodyText_isInfix_unitText rename k _)⟩
  | inside hn _ ih =>
      have hn' := List.mem_map_of_mem (f := Node.called rename) hn
      obtain ⟨u, hu, hinside⟩ := ih (k + 1)
      obtain ⟨m, hnode⟩ := nodeText_isInfix_bodyText (unitText f rename (k + 1)) hn' .fresh
      obtain ⟨m', hlead⟩ := lead_isInfix (hinside.trans unit_isInfix_nodeText) (margin f) m
      exact ⟨_, hu.lead hf m', hlead.trans (hnode.trans (bodyText_isInfix_unitText rename k _))⟩

end

/-! ## Units of a compilation -/

/-- In a dispatching compilation of texts without bells each cached source has its unit. If no
callable opens in what is heard of it, then the unit is the one written down from the source, with
each run of literal text, and only the callables of bodies capture. Partials are called by the
names that preprocessing gave them. -/
theorem keyword_text_kept (fs : FileSystem) (options : Options) (hook : Option Hook)
    (template : Text) (hruntime : options.flags.runtime = true)
    (hindent : options.flags.noIndent = false) (hfragments : Neutral options.fragments)
    (htemplate : bell ∉ template)
    (hsources : ∀ name raw,
      (Context.start options hook fs).rawSource? fs name = some raw → bell ∉ raw)
    (hhook : ∀ h, hook = some h → QuietHook h) :
    (hook = none → ∃ outcome, compile fs options hook template = some outcome) ∧
    ∀ depth code final, runWith (host depth) fs options hook template = some (code, final) →
      (∀ name, name ∈ final.view.table ↔ name ∈ final.view.cached) ∧
      ∀ name source, final.view.cached.get? name = some source →
        Calm (heard final.names.resolve source) →
        final.view.table.get? name = some (tableEntry name
          (unitText options.fragments (writtenName final.names.resolve) 0 source)) ∧
        ∀ run, HasRun source run → ∃ u, Margined options.fragments u run.quote ∧
          u <:+: unitText options.fragments (writtenName final.names.resolve) 0 source := by
  constructor
  · rintro rfl
    obtain ⟨code, middle, final, hrun, -⟩ := exists_compiles fs options template
    refine ⟨Outcome.ofRun (code, final), ?_⟩
    unfold compile
    rw [hrun]
    rfl
  · intro depth code final hrun
    obtain ⟨middle, hcompiles⟩ := (sound_host fs depth).compiles hrun
    have hs := calling_initial fs hook hruntime
    have hmuted : Muted fs (initial options hook fs) := ⟨hsources, hhook⟩
    have htext : (Task.text template.escape).Clear :=
      .of_not_mem fun hmem => htemplate (Text.mem_of_mem_escape hmem)
    have hempty : ClearNames (initial options hook fs).names :=
      ⟨fun _ _ h => (by cases h), fun _ _ h => (by cases h)⟩
    have hmiddle := hcompiles.runs.clearNames hs hmuted htext hempty
    have hclear : ClearNames final.names := hcompiles.reads.clearNames (hs.after hcompiles.runs)
      (hmuted.of_scope hcompiles.runs.scope_eq) hmiddle
    obtain ⟨htable, hunits⟩ := hcompiles.canonical hruntime
    refine ⟨htable, fun name source hsource hcalm => ⟨?_, fun run hrun => ?_⟩⟩
    · have hbell := hclear.sources name source hsource
      rw [← renamedUnit_eq_unitText hfragments hclear.quiet hindent hbell hcalm]
      exact hunits name source hsource
    · exact hrun.margined hfragments _ 0

def nestedBody : Text :=
  "a function\n\x7b\x7b#> r\x7d\x7dit's deep\x7b\x7b/r\x7d\x7d".toList

/-- A source with the keyword before a parenthesis in its own text, and with a body in a body. -/
def nestedSource : Text :=
  "function (x) \x7b \x7b\x7b#> q\x7d\x7d".toList ++ (nestedBody ++ "\x7b\x7b/q\x7d\x7d".toList)

def nestedOptions : Options :=
  { Options.standard with
    flags := ⟨false, true, false, false⟩
    partials := .ofList
      [("p".toList, nestedSource), ("q".toList, "q".toList), ("r".toList, "r".toList)] }

/-- Gives `q` the name `s`. -/
def renameNested : Hook := fun _ source name =>
  (source, if name = "q".toList then "s".toList else name)

theorem quietHook_renameNested : QuietHook renameNested := by
  constructor
  · exact fun _ _ _ hraw => hraw
  · intro v raw name _ hname
    show Clear (if name = "q".toList then "s".toList else name)
    split
    · exact .of_not_mem (by decide)
    · exact hname

theorem keyword_text_kept_nested :
    QuietHook renameNested ∧ ∃ code final,
      run (.emptyAt ['/']) nestedOptions (some renameNested) "\x7b\x7b> p\x7d\x7d".toList =
        some (code, final) ∧
      Calm (heard final.names.resolve nestedSource) ∧
      final.view.table.get? "p".toList = some (tableEntry "p".toList
        (unitText .standard (writtenName final.names.resolve) 0 nestedSource)) ∧
      ∃ u, Margined .standard u "it\\'s deep".toList ∧
        u <:+: unitText .standard (writtenName final.names.resolve) 0 nestedSource := by
  have hraw : ∀ raw ∈ rawTexts (.emptyAt ['/'])
      (Context.start nestedOptions (some renameNested) (.emptyAt ['/'])).toView [], bell ∉ raw := by
    decide
  have hresult : (run (.emptyAt ['/']) nestedOptions (some renameNested)
      "\x7b\x7b> p\x7d\x7d".toList).map (fun result =>
        (result.2.view.cached.get? "p".toList,
          decide (Calm (heard result.2.names.resolve nestedSource)))) =
      some (some nestedSource, true) := by decide +kernel
  have houter : .block "q".toList nestedBody true ∈ nestedSource.nodes := by decide +kernel
  have hinner : .block "r".toList "it's deep".toList true ∈ nestedBody.nodes := by decide +kernel
  have hrun : HasRun nestedSource "it's deep".toList :=
    .inside houter (.inside hinner (.own (by decide +kernel)))
  obtain ⟨⟨code, final⟩, hcompile, hresult⟩ := Option.map_eq_some_iff.mp hresult
  obtain ⟨hcached, hcalm⟩ := Prod.mk.injEq .. ▸ hresult
  have hcalm := of_decide_eq_true hcalm
  obtain ⟨-, hkept⟩ := keyword_text_kept (.emptyAt ['/']) nestedOptions (some renameNested)
    "\x7b\x7b> p\x7d\x7d".toList rfl rfl neutral_standard (by decide)
    (fun name raw hfound => hraw raw (mem_rawTexts_of_rawSource? hfound []))
    (fun h hh => Option.some.inj hh ▸ quietHook_renameNested)
  obtain ⟨-, hunits⟩ := hkept _ code final hcompile
  obtain ⟨hentry, hruns⟩ := hunits _ _ hcached hcalm
  exact ⟨quietHook_renameNested, code, final, hcompile, hcalm, hentry, hruns _ hrun⟩

/-- Literal text in the body of a block that reads like a callable. -/
def callableSource : Text :=
  "\x7b\x7b#> q\x7d\x7dfunction (x) \x7b y \x7d\x7b\x7b/q\x7d\x7d".toList

def callableOptions : Options :=
  { Options.standard with
    flags := ⟨false, true, false, false⟩
    partials := .ofList [("p".toList, callableSource), ("q".toList, "q".toList)] }

/-- The entry of its unit. -/
def callableEntry : Text :=
  "'p' => function ($cx, $in, $sp) \x7breturn ''.$sp.''.LR::p($cx, 'q', $in, '', ".toList ++
    ("function($cx, $in, $sp)use($sp)\x7breturn ''.$sp.'function(x)use($sp)\x7b y \x7d';\x7d".toList ++
      ").'';\x7d".toList)

/-- The literal text of the body captures. It is not in the unit, also where all margins are taken
out of it. -/
theorem body_text_captures :
    HasRun callableSource "function (x) \x7b y \x7d".toList ∧
    ∃ outcome,
      compile (.emptyAt ['/']) callableOptions none "\x7b\x7b> p\x7d\x7d".toList = some outcome ∧
      outcome.table.get? "p".toList = some callableEntry ∧
      ¬ "function (x) \x7b y \x7d".toList <:+: Text.replace (margin .standard) [] callableEntry := by
  have hblock : .block "q".toList "function (x) \x7b y \x7d".toList true ∈ callableSource.nodes := by
    decide +kernel
  have hrun : HasRun callableSource "function (x) \x7b y \x7d".toList :=
    .inside hblock (.own (by decide +kernel))
  have htable : (compile (.emptyAt ['/']) callableOptions none "\x7b\x7b> p\x7d\x7d".toList).map
      (fun o => o.table.get? "p".toList) = some (some callableEntry) := by decide +kernel
  obtain ⟨outcome, hcompile, hentry⟩ := Option.map_eq_some_iff.mp htable
  exact ⟨hrun, outcome, hcompile, hentry, by decide +kernel⟩

end Inlay.Handlebars
