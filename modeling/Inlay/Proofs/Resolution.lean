import Mathlib.Data.Prod.Lex
import Inlay.Proofs.Equations
import Inlay.Proofs.Lookup

/-!
# The source that is found for a name

A candidate has a place in the two lists that are searched: the number of its
directory and the number of its ending. Places are ordered lexicographically,
directories first. The source of a name that is not registered is the text at
the first place where a file can be read. What is at later places, and at all
places if the name is registered, has no part in it.
-/

namespace Inlay

/-! ## First hits by their numbers -/

section Hits

variable {α β γ : Type}

theorem findSome?_eq_some_iff_getElem? {f : α → Option γ} {as : List α} {c : γ} :
    as.findSome? f = some c ↔
      ∃ i : Nat, as[i]?.bind f = some c ∧ ∀ k < i, as[k]?.bind f = none := by
  induction as with
  | nil => simp
  | cons a as ih =>
      cases ha : f a with
      | some b =>
          rw [List.findSome?_cons_of_isSome (by simp [ha]), ha]
          refine ⟨fun h => ⟨0, by simpa [ha] using h, by simp⟩, fun ⟨i, hi, hfirst⟩ => ?_⟩
          cases i with
          | zero => simpa [ha] using hi
          | succ i => simpa [ha] using hfirst 0 (Nat.succ_pos i)
      | none =>
          rw [List.findSome?_cons_of_isNone (by simp [ha]), ih]
          constructor
          · rintro ⟨i, hi, hfirst⟩
            refine ⟨i + 1, by simpa using hi, fun k hk => ?_⟩
            cases k with
            | zero => simp [ha]
            | succ k => simpa using hfirst k (Nat.lt_of_succ_lt_succ hk)
          · rintro ⟨i, hi, hfirst⟩
            cases i with
            | zero => simp [ha] at hi
            | succ i =>
                exact ⟨i, by simpa using hi, fun k hk => by
                  simpa using hfirst (k + 1) (Nat.succ_lt_succ hk)⟩

theorem findSome?_eq_none_iff_getElem? {f : α → Option γ} {as : List α} :
    as.findSome? f = none ↔ ∀ i : Nat, as[i]?.bind f = none := by
  rw [List.findSome?_eq_none_iff]
  constructor
  · intro h i
    exact Option.bind_eq_none_iff.mpr fun a ha => h a (List.mem_of_getElem? ha)
  · intro h a ha
    obtain ⟨i, hi⟩ := List.mem_iff_getElem?.mp ha
    simpa [hi] using h i

/-- A search through rows and their items is a search in lexicographic order. -/
theorem findSome?_findSome?_eq_some_iff {f : α → β → Option γ} {as : List α} {bs : List β} {c : γ} :
    as.findSome? (fun a => bs.findSome? (f a)) = some c ↔
      ∃ p : Nat ×ₗ Nat,
        (as[(ofLex p).1]?.bind fun a => bs[(ofLex p).2]?.bind (f a)) = some c ∧
        ∀ q < p, (as[(ofLex q).1]?.bind fun a => bs[(ofLex q).2]?.bind (f a)) = none := by
  rw [findSome?_eq_some_iff_getElem?]
  constructor
  · rintro ⟨i, hi, hrows⟩
    obtain ⟨a, ha, hrow⟩ := Option.bind_eq_some_iff.mp hi
    obtain ⟨j, hj, hitems⟩ := findSome?_eq_some_iff_getElem?.mp hrow
    refine ⟨toLex (i, j), by simpa [ha] using hj, fun q hq => ?_⟩
    rcases Prod.Lex.lt_iff.mp hq with hlt | ⟨heq, hlt⟩
    · refine Option.bind_eq_none_iff.mpr fun a' ha' => ?_
      have hnone := Option.bind_eq_none_iff.mp (hrows _ hlt) a' ha'
      exact findSome?_eq_none_iff_getElem?.mp hnone _
    · have hi' : (ofLex q).1 = i := heq
      simpa [hi', ha] using hitems _ hlt
  · rintro ⟨p, hp, hfirst⟩
    obtain ⟨a, ha, hitem⟩ := Option.bind_eq_some_iff.mp hp
    have hrow : bs.findSome? (f a) = some c := by
      refine findSome?_eq_some_iff_getElem?.mpr ⟨(ofLex p).2, hitem, fun j hj => ?_⟩
      have hq := hfirst (toLex ((ofLex p).1, j)) (Prod.Lex.lt_iff.mpr (.inr ⟨rfl, hj⟩))
      simpa [ha] using hq
    refine ⟨(ofLex p).1, by simpa [ha] using hrow, fun i hi => ?_⟩
    refine Option.bind_eq_none_iff.mpr fun a' ha' => findSome?_eq_none_iff_getElem?.mpr fun j => ?_
    have hq := hfirst (toLex (i, j)) (Prod.Lex.lt_iff.mpr (.inl hi))
    simpa [ha'] using hq

theorem findSome?_flatMap (g : α → List β) (f : β → Option γ) (as : List α) :
    (as.flatMap g).findSome? f = as.findSome? fun a => (g a).findSome? f := by
  induction as with
  | nil => rfl
  | cons a as ih =>
      rw [List.flatMap_cons, List.findSome?_append, ih, List.findSome?_cons]
      cases (g a).findSome? f <;> rfl

end Hits

/-! ## Places of candidates -/

/-- The number of a directory and the number of an ending. -/
abbrev Place := Nat ×ₗ Nat

namespace View

/-- The text that can be read at a place. -/
def readAt? (v : View) (read? : Text → Option Text) (name : Text) (place : Place) : Option Text :=
  v.directories[(ofLex place).1]?.bind fun directory =>
    v.endings[(ofLex place).2]?.bind fun ending => read? (Path.join directory (name ++ ending))

/-- The first place where a text can be read, and this text. -/
structure FirstReadable (v : View) (read? : Text → Option Text) (name : Text) (place : Place)
    (text : Text) : Prop where
  readable : v.readAt? read? name place = some text
  unreadable : ∀ other < place, v.readAt? read? name other = none

/-- No candidate can be read. -/
def NoneReadable (v : View) (read? : Text → Option Text) (name : Text) : Prop :=
  ∀ directory ∈ v.directories, ∀ ending ∈ v.endings,
    read? (Path.join directory (name ++ ending)) = none

variable {v : View} {read? : Text → Option Text} {name : Text}

theorem findSome?_candidates (v : View) (read? : Text → Option Text) (name : Text) :
    (v.candidates name).findSome? read? =
      v.directories.findSome? fun directory =>
        v.endings.findSome? fun ending => read? (Path.join directory (name ++ ending)) := by
  unfold candidates
  rw [findSome?_flatMap]
  congr 1
  funext directory
  rw [List.findSome?_map]
  rfl

theorem findSome?_candidates_eq_some_iff {text : Text} :
    (v.candidates name).findSome? read? = some text ↔
      ∃ place, v.FirstReadable read? name place text := by
  rw [findSome?_candidates, findSome?_findSome?_eq_some_iff]
  exact exists_congr fun place => ⟨fun h => ⟨h.1, h.2⟩, fun h => ⟨h.readable, h.unreadable⟩⟩

theorem findSome?_candidates_eq_none_iff :
    (v.candidates name).findSome? read? = none ↔ v.NoneReadable read? name := by
  rw [findSome?_candidates, List.findSome?_eq_none_iff]
  exact forall_congr' fun _ => forall_congr' fun _ => List.findSome?_eq_none_iff

/-- What is behind the first readable place does not matter. -/
theorem FirstReadable.of_agree {read' : Text → Option Text} {place : Place} {text : Text}
    (h : v.FirstReadable read? name place text)
    (hagree : ∀ other ≤ place, v.readAt? read' name other = v.readAt? read? name other) :
    v.FirstReadable read' name place text where
  readable := (hagree place le_rfl).trans h.readable
  unreadable other hother := (hagree other hother.le).trans (h.unreadable other hother)

end View

/-! ## What is found -/

namespace Context

variable {c : Context} {fs : FileSystem} {name : Text}

theorem rawSource?_of_registered {source : Text} (h : c.partials.get? name = some source) :
    c.rawSource? fs name = some source := by
  unfold rawSource?
  rw [h]

theorem rawSource?_of_not_mem (h : name ∉ c.partials) :
    c.rawSource? fs name = (c.candidates name).findSome? fs.readText? := by
  unfold rawSource?
  rw [OrderedMap.get?_eq_none_iff.mpr h]

theorem rawSource?_eq_none_iff :
    c.rawSource? fs name = none ↔ name ∉ c.partials ∧ c.NoneReadable fs.readText? name := by
  by_cases h : name ∈ c.partials
  · obtain ⟨source, hsource⟩ := OrderedMap.mem_iff_exists_get?.mp h
    simp [rawSource?_of_registered hsource, h]
  · rw [rawSource?_of_not_mem h, View.findSome?_candidates_eq_none_iff]
    exact (and_iff_right h).symm

end Context

/-- Nothing is found for a name exactly if it is not registered and no candidate can be read, and
then nothing has changed. Else the source is preprocessed, once and under the name that was asked
for. It is the registered source, whatever the files are. For a name that is not registered it is
the text at the first place that can be read, and it stays so in all files that have the same up to
this place, whatever else they have. -/
theorem first_source_resolved (fs : FileSystem) (s : Compilation) (name : Text) :
    (∀ t, resolve name fs s = some (none, t) ↔
      t = s ∧ name ∉ s.view.partials ∧ s.view.NoneReadable fs.readText? name) ∧
    (∀ source, s.view.partials.get? name = some source → ∀ files,
      resolve name files s =
        some (some (s.context.preprocess source name), s.preprocessed source name)) ∧
    (name ∉ s.view.partials → ∀ place text,
      s.view.FirstReadable fs.readText? name place text → ∀ files : FileSystem,
        (∀ other ≤ place,
          s.view.readAt? files.readText? name other = s.view.readAt? fs.readText? name other) →
        resolve name files s =
          some (some (s.context.preprocess text name), s.preprocessed text name)) ∧
    (name ∈ s.view.partials ∨ s.view.NoneReadable fs.readText? name ∨
      ∃ place text, s.view.FirstReadable fs.readText? name place text) := by
  refine ⟨fun t => ?_, fun source hsource files => ?_, fun hnew place text hfirst files hagree => ?_,
    ?_⟩
  · rw [← Context.rawSource?_eq_none_iff, resolve_apply]
    cases s.context.rawSource? fs name with
    | none => simp [eq_comm]
    | some raw => simp
  · rw [resolve_apply, Context.rawSource?_of_registered hsource]
  · have hfound : (s.view.candidates name).findSome? files.readText? = some text :=
      View.findSome?_candidates_eq_some_iff.mpr ⟨place, hfirst.of_agree hagree⟩
    rw [resolve_apply, Context.rawSource?_of_not_mem hnew, hfound]
  · cases hfound : (s.view.candidates name).findSome? fs.readText? with
    | none => exact .inr (.inl (View.findSome?_candidates_eq_none_iff.mp hfound))
    | some text =>
        obtain ⟨place, hfirst⟩ := View.findSome?_candidates_eq_some_iff.mp hfound
        exact .inr (.inr ⟨place, text, hfirst⟩)

/-- A directory and a file that is no text stand before the first readable candidate. -/
def crowdedFiles : FileSystem :=
  (((FileSystem.emptyAt ['/']).put "d/x.a".toList .directory).put "d/x.b".toList (.file none)).put
    "e/x.a".toList (.file (some ['E']))

/-- The same up to the first readable candidate, and one more file. -/
def fullerFiles : FileSystem :=
  crowdedFiles.put "e/x.b".toList (.file (some ['F']))

def crowdedOptions : Options :=
  { Options.standard with
    directories := ["d".toList, "e".toList]
    endings := [".a".toList, ".b".toList]
    partials := .ofList [(['r'], ['R'])] }

/-- Changes the source and the name. -/
def secondVersion : Hook :=
  fun _ source name => ('v' :: source, name ++ ['2'])

/-- In both of them nothing in the first directory can be read. -/
theorem readAt?_crowded (files : FileSystem)
    (h : files.readText? "d/x.a".toList = none ∧ files.readText? "d/x.b".toList = none) :
    ∀ other < (toLex (1, 0) : Place),
      (Compilation.initial crowdedOptions (some secondVersion) crowdedFiles).view.readAt?
        files.readText? ['x'] other = none := by
  intro other hother
  obtain ⟨i, j⟩ := other
  have hi : i = 0 := by
    rcases Prod.Lex.lt_iff.mp hother with hlt | ⟨-, hlt⟩
    · exact Nat.lt_one_iff.mp hlt
    · exact absurd hlt (Nat.not_lt_zero j)
  subst hi
  match j with
  | 0 => exact h.1
  | 1 => exact h.2
  | _ + 2 => rfl

theorem first_source_resolved_crowded :
    let s := Compilation.initial crowdedOptions (some secondVersion) crowdedFiles
    s.view.partials.get? ['r'] = some ['R'] ∧ ['x'] ∉ s.view.partials ∧
    s.view.FirstReadable crowdedFiles.readText? ['x'] (toLex (1, 0)) ['E'] ∧
    (∀ other ≤ (toLex (1, 0) : Place), s.view.readAt? fullerFiles.readText? ['x'] other =
      s.view.readAt? crowdedFiles.readText? ['x'] other) ∧
    resolve ['r'] crowdedFiles s = some (some (['v', 'R'], ['r', '2']),
      s.emit (.preprocess s.view ['R'] ['r'])) ∧
    resolve ['x'] fullerFiles s = some (some (['v', 'E'], ['x', '2']),
      s.emit (.preprocess s.view ['E'] ['x'])) := by
  intro s
  have hregistered : s.view.partials.get? ['r'] = some ['R'] := by decide +kernel
  have hnew : ['x'] ∉ s.view.partials := by decide +kernel
  have hcrowded := readAt?_crowded crowdedFiles (by decide +kernel)
  have hfuller := readAt?_crowded fullerFiles (by decide +kernel)
  have hread : s.view.readAt? crowdedFiles.readText? ['x'] (toLex (1, 0)) = some ['E'] := by
    decide +kernel
  have hread' : s.view.readAt? fullerFiles.readText? ['x'] (toLex (1, 0)) = some ['E'] := by
    decide +kernel
  have hfirst : s.view.FirstReadable crowdedFiles.readText? ['x'] (toLex (1, 0)) ['E'] :=
    ⟨hread, hcrowded⟩
  have hagree : ∀ other ≤ (toLex (1, 0) : Place),
      s.view.readAt? fullerFiles.readText? ['x'] other =
        s.view.readAt? crowdedFiles.readText? ['x'] other := by
    intro other hother
    rcases hother.lt_or_eq with hlt | rfl
    · rw [hfuller other hlt, hcrowded other hlt]
    · rw [hread', hread]
  obtain ⟨-, hresolved, -⟩ := first_source_resolved crowdedFiles s ['r']
  obtain ⟨-, -, hresolved', -⟩ := first_source_resolved crowdedFiles s ['x']
  exact ⟨hregistered, hnew, hfirst, hagree, hresolved _ hregistered crowdedFiles,
    hresolved' hnew _ _ hfirst fullerFiles hagree⟩

end Inlay
