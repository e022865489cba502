import Inlay.Text.Basic

/-!
# Insertion-ordered maps

A map from names to values that remembers the order in which its names came
in. A name keeps the place of its first insertion for ever. The keys are the
view of a map in which its operations are described.
-/

namespace Inlay

/-- A map whose iteration order is the order of first insertion. -/
structure OrderedMap (α : Type) where
  entries : List (Text × α)
  nodup : (entries.map Prod.fst).Nodup
deriving DecidableEq

namespace OrderedMap

variable {α : Type}

theorem ext_entries {m n : OrderedMap α} (h : m.entries = n.entries) : m = n := by
  cases m
  cases n
  cases h
  rfl

def keys (m : OrderedMap α) : List Text :=
  m.entries.map Prod.fst

def empty : OrderedMap α :=
  ⟨[], List.Pairwise.nil⟩

instance : EmptyCollection (OrderedMap α) := ⟨empty⟩

instance : Inhabited (OrderedMap α) := ⟨empty⟩

instance : Membership Text (OrderedMap α) := ⟨fun m name => name ∈ m.keys⟩

instance (name : Text) (m : OrderedMap α) : Decidable (name ∈ m) :=
  inferInstanceAs (Decidable (name ∈ m.keys))

theorem mem_iff_mem_keys {m : OrderedMap α} {name : Text} : name ∈ m ↔ name ∈ m.keys :=
  Iff.rfl

def size (m : OrderedMap α) : Nat :=
  m.entries.length

def isEmpty (m : OrderedMap α) : Bool :=
  m.entries.isEmpty

def get? (m : OrderedMap α) (name : Text) : Option α :=
  m.entries.lookup name

/-- Adds an entry at the end unless the name is taken. -/
def insertIfNew (m : OrderedMap α) (name : Text) (value : α) : OrderedMap α :=
  if h : name ∈ m then m
  else ⟨m.entries ++ [(name, value)], by
    rw [List.map_append, List.nodup_append]
    refine ⟨m.nodup, by simp, ?_⟩
    intro a ha b hb hab
    simp only [List.map_cons, List.map_nil, List.mem_singleton] at hb
    exact h (hb ▸ hab ▸ ha)⟩

def setEntry (name : Text) (value : α) (entry : Text × α) : Text × α :=
  if entry.1 = name then (name, value) else entry

theorem fst_setEntry (name : Text) (value : α) (entry : Text × α) :
    (setEntry name value entry).1 = entry.1 := by
  unfold setEntry
  split <;> simp_all

/-- Stores a value under `name`; a name that is taken keeps its place. -/
def insert (m : OrderedMap α) (name : Text) (value : α) : OrderedMap α :=
  if name ∈ m then
    ⟨m.entries.map (setEntry name value), by
      have h : Prod.fst ∘ setEntry name value = (Prod.fst : Text × α → Text) :=
        funext (fst_setEntry name value)
      rw [List.map_map, h]
      exact m.nodup⟩
  else m.insertIfNew name value

/-- Adds the entries in order, the first entry of a name wins. -/
def absorbEntries (m : OrderedMap α) (entries : List (Text × α)) : OrderedMap α :=
  entries.foldl (fun acc entry => acc.insertIfNew entry.1 entry.2) m

/-- Adds every entry of `other` whose name is not taken yet. Where `other`
goes on from the names of `m`, what it adds is its tail. -/
def absorb (m other : OrderedMap α) : OrderedMap α :=
  if h : m.keys.isPrefixOf other.keys then
    ⟨m.entries ++ other.entries.drop m.size, by
      obtain ⟨added, ha⟩ := List.isPrefixOf_iff_prefix.mp h
      have hdrop : (other.entries.drop m.size).map Prod.fst = added := by
        have hsize : m.size = m.keys.length := by simp [size, keys]
        rw [List.map_drop, hsize]
        show other.keys.drop m.keys.length = added
        rw [← ha, List.drop_left]
      rw [List.map_append, hdrop]
      show (m.keys ++ added).Nodup
      rw [ha]
      exact other.nodup⟩
  else m.absorbEntries other.entries

/-- Stores the entries in order: a repeated name keeps its first place and
takes its last value. -/
def ofList (entries : List (Text × α)) : OrderedMap α :=
  entries.foldl (fun acc entry => acc.insert entry.1 entry.2) ∅

def sameEntries [DecidableEq α] (m n : OrderedMap α) : Bool :=
  m.size == n.size && m.entries.all fun entry => n.get? entry.1 == some entry.2

/-! ## Keys and look-up -/

@[simp] theorem keys_empty : (∅ : OrderedMap α).keys = [] := rfl

@[simp] theorem entries_empty : (∅ : OrderedMap α).entries = [] := rfl

theorem insertIfNew_of_mem {m : OrderedMap α} {name : Text} (h : name ∈ m) (value : α) :
    m.insertIfNew name value = m := by
  simp [insertIfNew, h]

theorem entries_insertIfNew_of_not_mem {m : OrderedMap α} {name : Text} (h : name ∉ m)
    (value : α) : (m.insertIfNew name value).entries = m.entries ++ [(name, value)] := by
  simp [insertIfNew, h]

theorem mem_insertIfNew {m : OrderedMap α} {name other : Text} {value : α} :
    other ∈ m.insertIfNew name value ↔ other ∈ m ∨ other = name := by
  by_cases h : name ∈ m
  · rw [insertIfNew_of_mem h]
    exact ⟨Or.inl, fun ho => ho.elim id (fun e => e ▸ h)⟩
  · simp [mem_iff_mem_keys, keys, entries_insertIfNew_of_not_mem h]

theorem entries_insertIfNew_append (m : OrderedMap α) (name : Text) (value : α) :
    ∃ added, (m.insertIfNew name value).entries = m.entries ++ added := by
  by_cases h : name ∈ m
  · exact ⟨[], by rw [insertIfNew_of_mem h, List.append_nil]⟩
  · exact ⟨[(name, value)], entries_insertIfNew_of_not_mem h value⟩

theorem entries_absorbEntries_append (m : OrderedMap α) (entries : List (Text × α)) :
    ∃ added, (m.absorbEntries entries).entries = m.entries ++ added := by
  induction entries generalizing m with
  | nil => exact ⟨[], (List.append_nil _).symm⟩
  | cons entry entries ih =>
      obtain ⟨a, ha⟩ := entries_insertIfNew_append m entry.1 entry.2
      obtain ⟨b, hb⟩ := ih (m.insertIfNew entry.1 entry.2)
      exact ⟨a ++ b, by rw [← List.append_assoc, ← ha, ← hb]; rfl⟩

theorem mem_absorbEntries {m : OrderedMap α} {entries : List (Text × α)} {name : Text} :
    name ∈ m.absorbEntries entries ↔ name ∈ m ∨ name ∈ entries.map Prod.fst := by
  induction entries generalizing m with
  | nil => simp [absorbEntries]
  | cons entry entries ih =>
      have hstep : m.absorbEntries (entry :: entries) =
          (m.insertIfNew entry.1 entry.2).absorbEntries entries := rfl
      rw [hstep, ih, mem_insertIfNew, List.map_cons, List.mem_cons, or_assoc]

theorem absorbEntries_append (m : OrderedMap α) (xs ys : List (Text × α)) :
    m.absorbEntries (xs ++ ys) = (m.absorbEntries xs).absorbEntries ys :=
  List.foldl_append

theorem absorbEntries_of_subset {m : OrderedMap α} {entries : List (Text × α)}
    (h : ∀ name ∈ entries.map Prod.fst, name ∈ m) : m.absorbEntries entries = m := by
  induction entries with
  | nil => rfl
  | cons entry entries ih =>
      have hstep : m.absorbEntries (entry :: entries) =
          (m.insertIfNew entry.1 entry.2).absorbEntries entries := rfl
      rw [hstep, insertIfNew_of_mem (h entry.1 (by simp))]
      exact ih fun name hn => h name (List.mem_cons_of_mem _ hn)

theorem entries_absorbEntries_of_disjoint {m : OrderedMap α} {entries : List (Text × α)}
    (hnodup : (entries.map Prod.fst).Nodup) (h : ∀ name ∈ entries.map Prod.fst, name ∉ m) :
    (m.absorbEntries entries).entries = m.entries ++ entries := by
  induction entries generalizing m with
  | nil => exact (List.append_nil _).symm
  | cons entry entries ih =>
      have hstep : m.absorbEntries (entry :: entries) =
          (m.insertIfNew entry.1 entry.2).absorbEntries entries := rfl
      rw [List.map_cons, List.nodup_cons] at hnodup
      have hnew : entry.1 ∉ m := h entry.1 (by simp)
      rw [hstep, ih hnodup.2, entries_insertIfNew_of_not_mem hnew, List.append_assoc]
      · rfl
      · intro name hn hm
        rcases mem_insertIfNew.mp hm with hm | rfl
        · exact h name (List.mem_cons_of_mem _ hn) hm
        · exact hnodup.1 hn

theorem absorb_eq_absorbEntries (m other : OrderedMap α) :
    m.absorb other = m.absorbEntries other.entries := by
  unfold absorb
  split
  · rename_i h
    obtain ⟨added, ha⟩ := List.isPrefixOf_iff_prefix.mp h
    have hsize : m.size = m.keys.length := by simp [size, keys]
    have htake : (other.entries.take m.size).map Prod.fst = m.keys := by
      rw [List.map_take, hsize]
      show other.keys.take m.keys.length = m.keys
      rw [← ha, List.take_left]
    have hdrop : (other.entries.drop m.size).map Prod.fst = added := by
      rw [List.map_drop, hsize]
      show other.keys.drop m.keys.length = added
      rw [← ha, List.drop_left]
    have hnodup : (m.keys ++ added).Nodup := ha ▸ other.nodup
    rw [List.nodup_append] at hnodup
    have hsplit : m.absorbEntries other.entries =
        (m.absorbEntries (other.entries.take m.size)).absorbEntries
          (other.entries.drop m.size) := by
      rw [← absorbEntries_append, List.take_append_drop]
    have hold : m.absorbEntries (other.entries.take m.size) = m := by
      apply absorbEntries_of_subset
      rw [htake]
      exact fun _ hn => hn
    have hnew : (m.absorbEntries (other.entries.drop m.size)).entries =
        m.entries ++ other.entries.drop m.size := by
      apply entries_absorbEntries_of_disjoint
      · rw [hdrop]
        exact hnodup.2.1
      · rw [hdrop]
        exact fun name hn hm => hnodup.2.2 name hm name hn rfl
    apply ext_entries
    rw [hsplit, hold, hnew]
  · rfl

theorem lookup_eq_none_iff {entries : List (Text × α)} {name : Text} :
    entries.lookup name = none ↔ name ∉ entries.map Prod.fst := by
  induction entries with
  | nil => simp
  | cons entry entries ih =>
      by_cases h : name = entry.1
      · simp [h]
      · have hb : (name == entry.1) = false := by simpa using h
        rw [List.lookup_cons, hb]
        simpa [h] using ih

theorem get?_eq_none_iff {m : OrderedMap α} {name : Text} : m.get? name = none ↔ name ∉ m :=
  lookup_eq_none_iff

end OrderedMap

end Inlay
