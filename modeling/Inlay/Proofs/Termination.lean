import Inlay.Proofs.RuntimeTermination
import Inlay.Proofs.StaticTermination
import Mathlib.Algebra.Order.BigOperators.Group.List
import Mathlib.Tactic.Ring

/-!
# Compilation comes to an end

The names that a compilation can meet are spelled in the template, in the
registered partials and in the files, as they are, masked or unmasked. Their
number and the lengths of the texts give a bound on how deep calls of the
host nest, with and without dispatching.
-/

namespace Inlay

/-! ## Where sources come from -/

namespace FileSystem

/-- The texts of the files. -/
def contents (fs : FileSystem) : List Text :=
  fs.entries.filterMap fun entry =>
    match entry.2 with
    | .file content => content
    | .directory => none

theorem exists_file_of_lookup {fs : FileSystem} {here : Location} {content : Option Text}
    (h : fs.entry? here = some (.file content)) : ∃ e ∈ fs.entries, e.2 = .file content := by
  unfold entry? at h
  split at h
  · cases h
  · obtain ⟨front, back, hentries, -⟩ := List.lookup_eq_some_iff.mp h
    refine ⟨(here, .file content), ?_, rfl⟩
    rw [hentries]
    exact List.mem_append_right _ List.mem_cons_self

theorem mem_entries_of_walk {fs : FileSystem} {content : Option Text} {here : Location}
    {entry : Entry} {parts : List Text} (h : fs.walk here entry parts = some (.file content)) :
    entry = .file content ∨ ∃ e ∈ fs.entries, e.2 = .file content := by
  fun_induction walk fs here entry parts with
  | case1 => exact .inl (Option.some.inj h)
  | case2 => cases h
  | case3 here part parts hstay ih => exact .inr ((ih h).resolve_left (by simp))
  | case4 here parts hstay ih => exact .inr ((ih h).resolve_left (by simp))
  | case5 here part parts hstay hup entry hentry ih =>
      rcases ih h with rfl | he
      · exact .inr (exists_file_of_lookup hentry)
      · exact .inr he
  | case6 => cases h

/-- What is read is the text of a file. -/
theorem mem_contents_of_readText? {fs : FileSystem} {path content : Text}
    (h : fs.readText? path = some content) : content ∈ fs.contents := by
  unfold readText? at h
  split at h
  · rename_i c hfind
    obtain rfl : c = some content := h
    unfold find? at hfind
    split at hfind
    · rcases mem_entries_of_walk hfind with hdir | ⟨e, he, hfile⟩
      · cases hdir
      · refine List.mem_filterMap.mpr ⟨e, he, ?_⟩
        rw [hfile]
    · cases hfind
  · cases h

theorem sum_length_contents_le (fs : FileSystem) :
    (fs.contents.map List.length).sum ≤ fs.weight := by
  unfold contents weight
  induction fs.entries with
  | nil => simp
  | cons entry entries ih =>
      obtain ⟨here, entry⟩ := entry
      cases entry with
      | directory => simpa using ih
      | file content =>
          cases content with
          | none => simpa using ih
          | some content =>
              simp only [List.filterMap_cons, List.map_cons, List.sum_cons, List.foldr_cons]
              omega

end FileSystem

theorem OrderedMap.mem_entries_of_get? {α : Type} {m : OrderedMap α} {name : Text} {value : α}
    (h : m.get? name = some value) : (name, value) ∈ m.entries := by
  obtain ⟨front, back, hentries, -⟩ := List.lookup_eq_some_iff.mp h
  rw [hentries]
  exact List.mem_append_right _ List.mem_cons_self

theorem OrderedMap.sum_length_values_le (m : OrderedMap Text) :
    (m.entries.map fun entry => entry.2.length).sum ≤ m.weight := by
  unfold weight
  induction m.entries with
  | nil => simp
  | cons entry entries ih =>
      simp only [List.map_cons, List.sum_cons, List.foldr_cons]
      omega

/-- The texts that sources are made of. -/
def rawTexts (fs : FileSystem) (v : View) (source : Text) : List Text :=
  source :: (v.partials.entries.map Prod.snd ++ fs.contents)

theorem mem_rawTexts_of_rawSource? {fs : FileSystem} {c : Context} {name raw : Text}
    (h : c.rawSource? fs name = some raw) (source : Text) :
    raw ∈ rawTexts fs c.toView source := by
  refine List.mem_cons_of_mem _ (List.mem_append.mpr ?_)
  unfold Context.rawSource? at h
  split at h
  · rename_i registered hget
    obtain rfl := Option.some.inj h
    exact .inl (List.mem_map.mpr ⟨_, OrderedMap.mem_entries_of_get? hget, rfl⟩)
  · obtain ⟨path, -, hpath⟩ := List.exists_of_findSome?_eq_some h
    exact .inr (FileSystem.mem_contents_of_readText? hpath)

/-- Files are not looked for where the name is registered. -/
theorem rawSource?_of_mem {c : Context} {name : Text} (h : name ∈ c.partials) (fs : FileSystem) :
    c.rawSource? fs name = c.partials.get? name := by
  obtain ⟨source, hsource⟩ := OrderedMap.mem_iff_exists_get?.mp h
  unfold Context.rawSource?
  rw [hsource]

theorem sum_length_rawTexts_le (fs : FileSystem) (v : View) (source : Text) :
    ((rawTexts fs v source).map List.length).sum ≤ weight fs v source := by
  have h₁ := v.partials.sum_length_values_le
  have h₂ := fs.sum_length_contents_le
  unfold rawTexts weight
  rw [List.map_cons, List.sum_cons, List.map_append, List.sum_append, List.map_map]
  have h₃ : (v.partials.entries.map (List.length ∘ Prod.snd)).sum ≤ v.partials.weight := h₁
  omega

/-! ## The names that a compilation can meet -/

/-- A name as it is, masked and unmasked. -/
def spellings (name : Text) : List Text :=
  [name, Keyword.unmask name, Keyword.mask name, Keyword.mask (Keyword.unmask name)]

/-- The names that texts refer to, in all spellings. -/
def spelled (raws : List Text) : List Text :=
  raws.flatMap fun raw => raw.escape.references.flatMap spellings

theorem length_escape_le (s : Text) : s.escape.length ≤ 2 * s.length := by
  rw [Text.escape_eq_replace]
  exact Text.length_replace_le (by simp) (by decide) (by decide) s

theorem length_spelled_le (raws : List Text) :
    (spelled raws).length ≤ 2 * (raws.map List.length).sum := by
  unfold spelled
  induction raws with
  | nil => simp
  | cons raw raws ih =>
      have hfour : ∀ names : List Text, (names.flatMap spellings).length = 4 * names.length := by
        intro names
        induction names with
        | nil => rfl
        | cons name names ih =>
            rw [List.flatMap_cons, List.length_append, ih, List.length_cons]
            simp only [spellings, List.length_cons, List.length_nil]
            omega
      have href := Text.length_references_le raw.escape
      have hescape := length_escape_le raw
      rw [List.flatMap_cons, List.length_append, hfour, List.map_cons, List.sum_cons]
      omega

theorem mem_spelled {raws : List Text} {raw name spelling : Text} (hraw : raw ∈ raws)
    (hname : name ∈ raw.escape.references) (hspelling : spelling ∈ spellings name) :
    spelling ∈ spelled raws :=
  List.mem_flatMap.mpr ⟨raw, hraw, List.mem_flatMap.mpr ⟨name, hname, hspelling⟩⟩

/-! ## The initial state -/

namespace Handlebars

open Compilation

variable (fs : FileSystem) (options : Options) (source : Text)

/-- The texts that a hook-free compilation starts from. -/
def startTexts : List Text :=
  rawTexts fs (Context.start options none fs).toView source

/-- The weight of a hook-free compilation. -/
def startWeight : Nat :=
  weight fs (Context.start options none fs).toView source

theorem length_spelled_startTexts_le :
    (spelled (startTexts fs options source)).length ≤ 2 * startWeight fs options source := by
  have h₁ := length_spelled_le (startTexts fs options source)
  have h₂ := sum_length_rawTexts_le fs (Context.start options none fs).toView source
  unfold startTexts startWeight at *
  omega

theorem within_of_mem {raws : List Text} {raw : Text} (h : raw ∈ raws) :
    Within (spelled raws) raw.escape := by
  intro name hname
  constructor
  · exact mem_spelled h hname (by simp [spellings])
  · exact mem_spelled h hname (by simp [spellings])

theorem embedding_initial (h : options.flags.runtime = false) :
    Embedding fs (spelled (startTexts fs options source)) (initial options none fs) := by
  refine ⟨⟨h, rfl, by simp [initial, scope, Context.start], List.nil_subset _, List.nodup_nil,
    by simp [initial, scope, Context.start], ?_⟩, rfl, ?_⟩
  · intro name raw hraw
    exact within_of_mem (mem_rawTexts_of_rawSource? hraw source)
  · intro name cached hcached
    cases hcached

/-- The names that a state can meet in its sources and blocks. -/
def spelledIn (fs : FileSystem) (v : View) : List Text :=
  ((rawTexts fs v []).map Text.escape ++ (v.cached.entries.map Prod.snd ++ v.blocks)).flatMap
    fun text => text.references.flatMap fun name => [name, Keyword.unmask name]

/-- Every state without preprocessing in which partials are embedded refers to finitely many
names. -/
theorem exists_embedding {s : Compilation} (hembeds : s.view.flags.runtime = false)
    (hfree : s.HookFree) (hindent : ∀ c ∈ s.view.lineIndent, isBlank c = true)
    (hnodup : s.view.chain.Nodup) (name : Text) : ∃ names, name ∈ names ∧ Embedding fs names s := by
  have hwithin : ∀ text ∈ (rawTexts fs s.view []).map Text.escape ++
      (s.view.cached.entries.map Prod.snd ++ s.view.blocks),
      Within (name :: (s.view.chain ++ spelledIn fs s.view)) text := by
    intro text htext other hother
    have hmem : ∀ spelling ∈ [other, Keyword.unmask other],
        spelling ∈ name :: (s.view.chain ++ spelledIn fs s.view) := by
      intro spelling hspelling
      refine List.mem_cons_of_mem _ (List.mem_append_right _ (List.mem_flatMap.mpr ⟨text, htext, ?_⟩))
      exact List.mem_flatMap.mpr ⟨other, hother, hspelling⟩
    exact ⟨hmem other (by simp), hmem (Keyword.unmask other) (by simp)⟩
  refine ⟨name :: (s.view.chain ++ spelledIn fs s.view), List.mem_cons_self,
    ⟨hembeds, hfree.hook, hindent, ?_, hnodup, ?_, ?_⟩, hfree.aliases, ?_⟩
  · exact fun caller hcaller => List.mem_cons_of_mem _ (List.mem_append_left _ hcaller)
  · intro body hbody
    exact hwithin body (List.mem_append_right _ (List.mem_append_right _ hbody))
  · intro other raw hraw
    have hmem : raw ∈ rawTexts fs s.view [] := mem_rawTexts_of_rawSource? hraw []
    exact hwithin raw.escape (List.mem_append_left _ (List.mem_map_of_mem hmem))
  · intro other source hsource
    have hmem : source ∈ s.view.cached.entries.map Prod.snd :=
      List.mem_map.mpr ⟨_, OrderedMap.mem_entries_of_get? hsource, rfl⟩
    exact hwithin source (List.mem_append_right _ (List.mem_append_left _ hmem))

/-- Embedding a name comes to an end, whatever the state. -/
theorem exists_embed_of_hookFree {s : Compilation} (hembeds : s.view.flags.runtime = false)
    (hfree : s.HookFree) (hindent : ∀ c ∈ s.view.lineIndent, isBlank c = true)
    (hnodup : s.view.chain.Nodup) (name : Text) :
    ∃ bound, ∀ depth, bound ≤ depth → ∃ code t, embed (host depth) name fs s = some (code, t) := by
  obtain ⟨names, hname, hs⟩ := exists_embedding fs hembeds hfree hindent hnodup name
  refine ⟨potential names s, fun depth hdepth => ?_⟩
  exact exists_embed (embedsBelow_host depth) hs hname (Nat.le_succ_of_le hdepth)

/-- A masked text of a list has the names that are masked in the list, and its length. -/
theorem unitText_of_mem {texts : List Text} {text : Text} (h : text ∈ texts) :
    UnitText (texts.flatMap fun other => other.references.map Keyword.mask)
      (texts.map fun other => (Keyword.mask other).length).sum (Keyword.mask text) := by
  refine ⟨Keyword.not_word_infix_mask _, ?_, List.le_sum_of_mem (List.mem_map.mpr ⟨text, h, rfl⟩)⟩
  rw [Text.references_mask]
  exact fun name hname => List.mem_flatMap.mpr ⟨text, h, hname⟩

/-- Compiling a text apart comes to an end, whatever the state. -/
theorem exists_apart_of_hookFree {s : Compilation} (hdispatches : s.view.flags.runtime = true)
    (hfree : s.HookFree) (text : Text) : ∃ bound, ∀ depth, bound ≤ depth →
      ∃ unit t, compileLocal (host depth) text fs s = some (unit, t) := by
  let texts := text :: (rawTexts fs s.view []).map Text.escape
  let names := texts.flatMap fun other => other.references.map Keyword.mask
  let limit := (texts.map fun other => (Keyword.mask other).length).sum
  have hs : Dispatching fs s.context s.isolated :=
    ⟨hdispatches, rfl, ⟨hfree.hook, hfree.aliases⟩, rfl, fun _ => rfl⟩
  have hfit : SourcesFit fs names limit s.context := fun name raw hraw => unitText_of_mem <|
    List.mem_cons_of_mem _ (List.mem_map_of_mem (mem_rawTexts_of_rawSource? hraw []))
  have htext : UnitText names limit (Keyword.mask text) := unitText_of_mem List.mem_cons_self
  refine ⟨missing names s * (limit + 1) + (Keyword.mask text).length + 1, fun depth hdepth => ?_⟩
  exact exists_apart (dispatchesBelow_host hfit depth) hs htext hdepth

/-- The length that no text compiled apart exceeds. -/
def lengthBound : Nat :=
  4 * startWeight fs options source

variable {fs options source}

theorem length_mask_escape_le {raw : Text} (h : raw ∈ startTexts fs options source) :
    4 * raw.length ≤ lengthBound fs options source := by
  have h₁ : raw.length ≤ ((startTexts fs options source).map List.length).sum :=
    List.le_sum_of_mem (List.mem_map.mpr ⟨raw, h, rfl⟩)
  have h₂ := sum_length_rawTexts_le fs (Context.start options none fs).toView source
  unfold startTexts lengthBound startWeight at *
  omega

theorem length_unmask_le (s : Text) : (Keyword.unmask s).length ≤ s.length := by
  have h : (Keyword.unmask s).length ≤ 1 * s.length :=
    Text.length_replace_le (by decide) (by decide) (by decide) s
  omega

theorem unitText_mask_of_mem {raw : Text} (h : raw ∈ startTexts fs options source) :
    UnitText (spelled (startTexts fs options source)) (lengthBound fs options source)
      (Keyword.mask raw.escape) := by
  refine ⟨Keyword.not_word_infix_mask _, ?_, ?_⟩
  · intro name hname
    rw [Text.references_mask] at hname
    obtain ⟨old, hold, rfl⟩ := List.mem_map.mp hname
    exact mem_spelled h hold (by simp [spellings])
  · have h₁ := Keyword.length_mask_le raw.escape
    have h₂ := length_escape_le raw
    have h₃ := length_mask_escape_le h
    omega

theorem sourcesFit_start (fs : FileSystem) (options : Options) (source : Text) :
    SourcesFit fs (spelled (startTexts fs options source)) (lengthBound fs options source)
      (Context.start options none fs) :=
  fun _ _ hraw => unitText_mask_of_mem (mem_rawTexts_of_rawSource? hraw source)

/-- The nodes of the template itself, which is not masked. -/
theorem nodeFits_template {n : Node} (hn : n ∈ source.escape.nodes) :
    NodeFits (spelled (startTexts fs options source)) (lengthBound fs options source)
      (lengthBound fs options source + 1) n := by
  have hsource : source ∈ startTexts fs options source := List.mem_cons_self
  have href := Node.references_subset hn
  have hlength := length_mask_escape_le hsource
  have hescape := length_escape_le source
  refine ⟨fun name hname => ?_, fun body hb => ?_, fun body hb => ?_⟩
  · exact mem_spelled hsource (href hname) (by simp [spellings])
  · have hless := (Node.body?_isInfix hn hb).2
    have hmask := Keyword.length_mask_le body
    refine ⟨⟨Keyword.not_word_infix_mask _, fun name hname => ?_, by omega⟩, by omega⟩
    rw [Text.references_mask] at hname
    obtain ⟨old, hold, rfl⟩ := List.mem_map.mp hname
    exact mem_spelled hsource (href (Node.references_body_subset hb hold)) (by simp [spellings])
  · have hless := (Node.body?_isInfix hn hb).2
    have hunmask := length_unmask_le body
    have hmask := Keyword.length_mask_le (Keyword.unmask body)
    refine ⟨⟨Keyword.not_word_infix_mask _, fun name hname => ?_, by omega⟩, by omega⟩
    rw [Text.references_mask, Text.references_unmask, List.map_map] at hname
    obtain ⟨old, hold, rfl⟩ := List.mem_map.mp hname
    exact mem_spelled hsource (href (Node.references_body_subset hb hold)) (by simp [spellings])

/-! ## Whole compilations -/

variable (fs options source) in
/-- The bound on nesting leaves room for the names times the lengths. -/
theorem room_of_nestingBound :
    2 * startWeight fs options source * (lengthBound fs options source + 1) +
      lengthBound fs options source + 2 ≤
        nestingBound fs (Context.start options none fs).toView source := by
  unfold lengthBound nestingBound startWeight
  generalize weight fs (Context.start options none fs).toView source = w
  rw [Nat.pow_eq]
  have hpower : (w + 8) ^ 4 = w ^ 4 + 32 * w ^ 3 + 384 * w ^ 2 + 2048 * w + 4096 := by ring
  have hroom : 2 * w * (4 * w + 1) + 4 * w + 2 = 8 * w ^ 2 + 6 * w + 2 := by ring
  rw [hpower, hroom]
  omega

theorem exists_run_static (h : options.flags.runtime = false) {depth : Nat}
    (hdepth : nestingBound fs (Context.start options none fs).toView source ≤ depth) :
    ∃ code t, runWith (host depth) fs options none source = some (code, t) := by
  have hs := embedding_initial fs options source h
  have hroom := room_of_nestingBound fs options source
  have hnames := length_spelled_startTexts_le fs options source
  have hpotential : potential (spelled (startTexts fs options source)) (initial options none fs) <
      depth := by
    show 2 * ((spelled (startTexts fs options source)).length - 0) + 0 < depth
    unfold lengthBound at hroom
    omega
  have hsource : Within (spelled (startTexts fs options source)) source.escape :=
    within_of_mem List.mem_cons_self
  have hsound := sound_host fs depth
  obtain ⟨code, t, hcode⟩ := exists_compile_of_embedding (embedsBelow_host depth) hs hsource
    hpotential
  have ht := hs.after (hsound.runs_text hcode) hsource
  obtain ⟨r, hreads⟩ := exists_reads_of_embedding hsound (preloaded t.view) ht
  rw [runWith_apply, hcode, Option.bind_some, preload_apply, hreads]
  exact ⟨_, _, rfl⟩

theorem exists_run_runtime (h : options.flags.runtime = true) {depth : Nat}
    (hdepth : nestingBound fs (Context.start options none fs).toView source ≤ depth) :
    ∃ code t, runWith (host depth) fs options none source = some (code, t) := by
  have hs := dispatching_initial fs h
  have hc := sourcesFit_start fs options source
  have hroom := room_of_nestingBound fs options source
  have hnames := length_spelled_startTexts_le fs options source
  have hmissing : missing (spelled (startTexts fs options source)) (initial options none fs) ≤
      2 * startWeight fs options source := List.countP_le_length.trans hnames
  have hmul := Nat.mul_le_mul_right (lengthBound fs options source + 1) hmissing
  obtain ⟨d, rfl⟩ : ∃ d, depth = d + 1 := Nat.exists_eq_add_one.mpr (by omega)
  have hcode : ∃ code t, (host (d + 1)).compile source.escape fs (initial options none fs) =
      some (code, t) := by
    refine exists_dispatch_nodes (dispatchesBelow_host hc d) hc (hs.emit _)
      (fun n hn => nodeFits_template hn) ?_ (sound_host fs d)
    show missing (spelled (startTexts fs options source)) (initial options none fs) *
      (lengthBound fs options source + 1) + (lengthBound fs options source + 1) ≤ d
    omega
  obtain ⟨code, t, hcode⟩ := hcode
  have hsound := sound_host fs (d + 1)
  have hruns := hsound.runs_text hcode
  have hgrown := Nat.mul_le_mul_right (lengthBound fs options source + 1)
    (missing_le_of_grows (spelled (startTexts fs options source)) hruns.grows)
  obtain ⟨r, hreads⟩ := exists_reads (dispatchesBelow_host hc (d + 1)) hc hsound
    (preloaded t.view) (hs.after hruns) (by omega)
  rw [runWith_apply, hcode, Option.bind_some, preload_apply, hreads]
  exact ⟨_, _, rfl⟩

/-- A compilation whose calls may nest deep enough has a result. -/
theorem exists_run {depth : Nat}
    (hdepth : nestingBound fs (Context.start options none fs).toView source ≤ depth) :
    ∃ code t, runWith (host depth) fs options none source = some (code, t) := by
  cases h : options.flags.runtime with
  | false => exact exists_run_static h hdepth
  | true => exact exists_run_runtime h hdepth

/-- A hook-free compilation has a result, and it is a run. -/
theorem exists_compiles (fs : FileSystem) (options : Options) (source : Text) :
    ∃ code middle final, run fs options none source = some (code, final) ∧
      Compiles fs options none source code middle final := by
  obtain ⟨code, final, hrun⟩ := exists_run (Nat.le_refl
    (nestingBound fs (Context.start options none fs).toView source))
  obtain ⟨middle, h⟩ := (sound_host fs _).compiles hrun
  exact ⟨code, middle, final, hrun, h⟩

end Handlebars

/-- Every hook-free compilation comes to an end: it has an outcome, and letting calls nest
deeper gives no other one. -/
theorem compile_terminates (fs : FileSystem) (options : Options) (source : Text) :
    ∃ outcome, compile fs options none source = some outcome ∧
      ∀ depth, nestingBound fs (Context.start options none fs).toView source ≤ depth →
        compileWith (Handlebars.host depth) fs options none source = some outcome := by
  obtain ⟨code, t, hrun⟩ := Handlebars.exists_run (Nat.le_refl
    (nestingBound fs (Context.start options none fs).toView source))
  refine ⟨Outcome.ofRun (code, t), ?_, fun depth hdepth => ?_⟩
  · unfold compile run standardHost
    rw [hrun]
    rfl
  · obtain ⟨code', t', hrun'⟩ := Handlebars.exists_run hdepth
    obtain ⟨m, h⟩ := (Handlebars.sound_host fs _).compiles hrun
    obtain ⟨m', h'⟩ := (Handlebars.sound_host fs _).compiles hrun'
    obtain ⟨rfl, rfl⟩ := h.unique h'
    unfold compileWith
    rw [hrun']
    rfl

end Inlay
