import Inlay.Context

/-!
# Look-up in a changed map

Which names a map has after an operation, and which values stand under them.
-/

namespace Inlay.OrderedMap

variable {α : Type}

theorem mem_iff_exists_get? {m : OrderedMap α} {name : Text} :
    name ∈ m ↔ ∃ value, m.get? name = some value := by
  have h : m.get? name = none ↔ name ∉ m := get?_eq_none_iff
  cases hv : m.get? name with
  | none => simp [h.mp hv]
  | some value =>
      rw [hv] at h
      simpa using h

theorem mem_of_get? {m : OrderedMap α} {name : Text} {value : α}
    (h : m.get? name = some value) : name ∈ m :=
  mem_iff_exists_get?.mpr ⟨value, h⟩

theorem not_mem_empty (name : Text) : name ∉ (∅ : OrderedMap α) := by
  intro h
  cases h

theorem get?_empty (name : Text) : (∅ : OrderedMap α).get? name = none := rfl

/-! ## Entries -/

theorem lookup_cons_self (name : Text) (value : α) (entries : List (Text × α)) :
    ((name, value) :: entries).lookup name = some value := by
  rw [List.lookup_cons, beq_self_eq_true]

theorem lookup_cons_of_ne {name other : Text} (h : other ≠ name) (value : α)
    (entries : List (Text × α)) :
    ((name, value) :: entries).lookup other = entries.lookup other := by
  rw [List.lookup_cons, beq_eq_false_iff_ne.mpr h]

theorem setEntry_of_ne {name key : Text} (h : key ≠ name) (value old : α) :
    setEntry name value (key, old) = (key, old) :=
  if_neg h

theorem setEntry_self (name : Text) (value old : α) :
    setEntry name value (name, old) = (name, value) :=
  if_pos rfl

theorem lookup_setEntry_of_ne {name other : Text} (h : other ≠ name) (value : α)
    (entries : List (Text × α)) :
    (entries.map (setEntry name value)).lookup other = entries.lookup other := by
  induction entries with
  | nil => rfl
  | cons entry entries ih =>
      obtain ⟨key, old⟩ := entry
      rw [List.map_cons]
      by_cases hkey : key = name
      · rw [hkey, setEntry_self, lookup_cons_of_ne h, lookup_cons_of_ne h, ih]
      · rw [setEntry_of_ne hkey, List.lookup_cons, List.lookup_cons, ih]

theorem lookup_setEntry_self {entries : List (Text × α)} {name : Text}
    (h : name ∈ entries.map Prod.fst) (value : α) :
    (entries.map (setEntry name value)).lookup name = some value := by
  induction entries with
  | nil => cases h
  | cons entry entries ih =>
      obtain ⟨key, old⟩ := entry
      rw [List.map_cons]
      by_cases hkey : key = name
      · rw [hkey, setEntry_self, lookup_cons_self]
      · rcases List.mem_cons.mp h with h | h
        · exact absurd h.symm hkey
        · rw [setEntry_of_ne hkey, lookup_cons_of_ne (Ne.symm hkey), ih h]

/-! ## Operations -/

theorem get?_insertIfNew (m : OrderedMap α) (name other : Text) (value : α) :
    (m.insertIfNew name value).get? other =
      (m.get? other).or (if other = name then some value else none) := by
  by_cases h : name ∈ m
  · rw [insertIfNew_of_mem h]
    by_cases heq : other = name
    · obtain ⟨old, hold⟩ := mem_iff_exists_get?.mp h
      rw [heq, hold, Option.some_or]
    · rw [if_neg heq, Option.or_none]
  · unfold get?
    rw [entries_insertIfNew_of_not_mem h, List.lookup_append]
    by_cases heq : other = name
    · rw [heq, lookup_cons_self, if_pos rfl]
    · rw [lookup_cons_of_ne heq, if_neg heq, List.lookup_nil]

theorem get?_insertIfNew_self {m : OrderedMap α} {name : Text} (h : name ∉ m) (value : α) :
    (m.insertIfNew name value).get? name = some value := by
  rw [get?_insertIfNew, get?_eq_none_iff.mpr h, if_pos rfl, Option.none_or]

theorem get?_insert (m : OrderedMap α) (name other : Text) (value : α) :
    (m.insert name value).get? other = if other = name then some value else m.get? other := by
  unfold insert
  by_cases h : name ∈ m
  · rw [if_pos h]
    by_cases heq : other = name
    · rw [heq, if_pos rfl]
      exact lookup_setEntry_self h value
    · rw [if_neg heq]
      exact lookup_setEntry_of_ne heq value m.entries
  · rw [if_neg h, get?_insertIfNew]
    by_cases heq : other = name
    · rw [heq, get?_eq_none_iff.mpr h, if_pos rfl, Option.none_or]
    · rw [if_neg heq, if_neg heq, Option.or_none]

theorem mem_insert {m : OrderedMap α} {name other : Text} {value : α} :
    other ∈ m.insert name value ↔ other ∈ m ∨ other = name := by
  rw [mem_iff_exists_get?, mem_iff_exists_get?, get?_insert]
  by_cases heq : other = name
  · simp [heq]
  · simp [heq]

theorem get?_absorbEntries (m : OrderedMap α) (entries : List (Text × α)) (name : Text) :
    (m.absorbEntries entries).get? name = (m.get? name).or (entries.lookup name) := by
  induction entries generalizing m with
  | nil => exact (Option.or_none ..).symm
  | cons entry entries ih =>
      obtain ⟨key, value⟩ := entry
      have hstep : m.absorbEntries ((key, value) :: entries) =
          (m.insertIfNew key value).absorbEntries entries := rfl
      rw [hstep, ih, get?_insertIfNew, Option.or_assoc]
      by_cases heq : name = key
      · rw [heq, if_pos rfl, lookup_cons_self, Option.some_or]
      · rw [if_neg heq, lookup_cons_of_ne heq, Option.none_or]

theorem get?_absorb (m n : OrderedMap α) (name : Text) :
    (m.absorb n).get? name = (m.get? name).or (n.get? name) := by
  rw [absorb_eq_absorbEntries, get?_absorbEntries]
  rfl

theorem mem_absorb {m n : OrderedMap α} {name : Text} :
    name ∈ m.absorb n ↔ name ∈ m ∨ name ∈ n := by
  rw [absorb_eq_absorbEntries]
  exact mem_absorbEntries

/-- A map takes nothing from itself. -/
theorem absorb_self (m : OrderedMap α) : m.absorb m = m := by
  rw [absorb_eq_absorbEntries]
  exact absorbEntries_of_subset fun _ h => h

/-! ## Properties of all entries -/

theorem forall_insert {m : OrderedMap α} {p : Text → α → Prop}
    (hm : ∀ name value, m.get? name = some value → p name value) {key : Text} {new : α}
    (hnew : p key new) :
    ∀ name value, (m.insert key new).get? name = some value → p name value := by
  intro name value h
  rw [get?_insert] at h
  split at h
  · rename_i hname
    obtain rfl := Option.some.inj h
    exact hname ▸ hnew
  · exact hm name value h

theorem forall_insertIfNew {m : OrderedMap α} {p : Text → α → Prop}
    (hm : ∀ name value, m.get? name = some value → p name value) {key : Text} {new : α}
    (hnew : p key new) :
    ∀ name value, (m.insertIfNew key new).get? name = some value → p name value := by
  intro name value h
  rw [get?_insertIfNew] at h
  rcases Option.or_eq_some_iff.mp h with h | ⟨-, h⟩
  · exact hm name value h
  · split at h
    · rename_i heq
      obtain rfl := Option.some.inj h
      exact heq ▸ hnew
    · cases h

theorem forall_absorb {m n : OrderedMap α} {p : Text → α → Prop}
    (hm : ∀ name value, m.get? name = some value → p name value)
    (hn : ∀ name value, n.get? name = some value → p name value) :
    ∀ name value, (m.absorb n).get? name = some value → p name value := by
  intro name value h
  rw [get?_absorb] at h
  rcases Option.or_eq_some_iff.mp h with h | ⟨-, h⟩
  · exact hm name value h
  · exact hn name value h

/-! ## Maps that go on from another one -/

/-- Every value of `m` stands under the same name in `n`. -/
def Below (m n : OrderedMap α) : Prop :=
  ∀ name value, m.get? name = some value → n.get? name = some value

theorem Below.refl (m : OrderedMap α) : m.Below m :=
  fun _ _ h => h

theorem Below.trans {m n p : OrderedMap α} (h₁ : m.Below n) (h₂ : n.Below p) : m.Below p :=
  fun name value h => h₂ name value (h₁ name value h)

theorem Below.mem {m n : OrderedMap α} (h : m.Below n) {name : Text} (hm : name ∈ m) :
    name ∈ n := by
  obtain ⟨value, hv⟩ := mem_iff_exists_get?.mp hm
  exact mem_of_get? (h name value hv)

theorem below_insertIfNew (m : OrderedMap α) (name : Text) (value : α) :
    m.Below (m.insertIfNew name value) := by
  intro other old h
  rw [get?_insertIfNew, h, Option.some_or]

theorem below_insert {m : OrderedMap α} {name : Text} (hm : name ∉ m) (value : α) :
    m.Below (m.insert name value) := by
  intro other old h
  have hne : other ≠ name := by
    rintro rfl
    exact hm (mem_of_get? h)
  rw [get?_insert, if_neg hne, h]

theorem below_absorb (m n : OrderedMap α) : m.Below (m.absorb n) := by
  intro name value h
  rw [get?_absorb, h, Option.some_or]

theorem below_absorb_of_below {m n : OrderedMap α} (h : m.Below n) : n.Below (m.absorb n) := by
  intro name value hn
  rw [get?_absorb]
  cases hm : m.get? name with
  | none => exact hn
  | some old => rw [Option.some_or, ← hn, h name old hm]

end Inlay.OrderedMap
