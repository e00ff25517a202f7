/-!
# Keyed tables

A finite map held as a list of entries with distinct keys, oldest key first.
Agents of a tree, loop counters of an agent, entries of a blackboard and boards
of a registry are all tables.

The view of a table is `Table.get?`. Each operation has one lemma that says what
it does to that view: `get?_set`, `get?_erase`, `get?_empty`. Everything is
structural on the entries, so a closed table evaluates by `decide`.
-/

namespace TickTree

/-! ## Entries -/

namespace Entries

variable {κ ν : Type} [DecidableEq κ]

/-- The value of the first entry with a key. -/
def lookup (k : κ) : List (κ × ν) → Option ν
  | [] => none
  | (k', v) :: rest => if k' = k then some v else lookup k rest

/-- Replaces the entry of a key where it stands, or appends a new one. -/
def put (k : κ) (v : ν) : List (κ × ν) → List (κ × ν)
  | [] => [(k, v)]
  | (k', v') :: rest => if k' = k then (k, v) :: rest else (k', v') :: put k v rest

/-- Leaves out the entries of a key. -/
def drop (k : κ) : List (κ × ν) → List (κ × ν)
  | [] => []
  | (k', v) :: rest => if k' = k then drop k rest else (k', v) :: drop k rest

theorem mem_keys_put {k x : κ} {v : ν} {entries : List (κ × ν)} :
    x ∈ (put k v entries).map Prod.fst ↔ x = k ∨ x ∈ entries.map Prod.fst := by
  induction entries with
  | nil => simp [put]
  | cons entry rest ih =>
    obtain ⟨k', v'⟩ := entry
    by_cases h : k' = k
    · subst h; simp [put]
    · simp only [put, h, if_false, List.map_cons, List.mem_cons, ih]
      constructor
      · rintro (rfl | rfl | h') <;> simp_all
      · rintro (rfl | rfl | h') <;> simp_all

theorem nodup_put {k : κ} {v : ν} {entries : List (κ × ν)}
    (h : (entries.map Prod.fst).Nodup) : ((put k v entries).map Prod.fst).Nodup := by
  induction entries with
  | nil => simp [put]
  | cons entry rest ih =>
    obtain ⟨k', v'⟩ := entry
    simp only [List.map_cons, List.nodup_cons] at h
    by_cases hk : k' = k
    · subst hk; simpa [put] using h
    · simp only [put, hk, if_false, List.map_cons, List.nodup_cons]
      refine ⟨fun hmem => ?_, ih h.2⟩
      rcases mem_keys_put.1 hmem with rfl | hrest
      · exact hk rfl
      · exact h.1 hrest

theorem drop_sublist (k : κ) (entries : List (κ × ν)) : (drop k entries).Sublist entries := by
  induction entries with
  | nil => exact .slnil
  | cons entry rest ih =>
    obtain ⟨k', v'⟩ := entry
    by_cases hk : k' = k
    · simpa [drop, hk] using ih.cons _
    · simpa [drop, hk] using ih

theorem nodup_drop {k : κ} {entries : List (κ × ν)}
    (h : (entries.map Prod.fst).Nodup) : ((drop k entries).map Prod.fst).Nodup :=
  h.sublist ((drop_sublist k entries).map _)

theorem lookup_put (k x : κ) (v : ν) (entries : List (κ × ν)) :
    lookup x (put k v entries) = if k = x then some v else lookup x entries := by
  induction entries with
  | nil => simp [put, lookup]
  | cons entry rest ih =>
    obtain ⟨k', v'⟩ := entry
    by_cases hk : k' = k
    · subst hk
      by_cases hx : k' = x <;> simp [put, lookup, hx]
    · by_cases hx : k' = x
      · subst hx
        simp [put, lookup, hk, Ne.symm hk]
      · simp [put, lookup, hk, hx, ih]

theorem lookup_drop (k x : κ) (entries : List (κ × ν)) :
    lookup x (drop k entries) = if k = x then none else lookup x entries := by
  induction entries with
  | nil => simp [drop, lookup]
  | cons entry rest ih =>
    obtain ⟨k', v'⟩ := entry
    by_cases hk : k' = k
    · subst hk
      simp only [drop, lookup, if_true, ih]
      by_cases hx : k' = x <;> simp [hx]
    · by_cases hx : k' = x
      · subst hx
        simp [drop, lookup, hk, Ne.symm hk]
      · simp [drop, lookup, hk, hx, ih]

theorem lookup_eq_none_iff {k : κ} {entries : List (κ × ν)} :
    lookup k entries = none ↔ k ∉ entries.map Prod.fst := by
  induction entries with
  | nil => simp [lookup]
  | cons entry rest ih =>
    obtain ⟨k', v'⟩ := entry
    by_cases hk : k' = k
    · subst hk; simp [lookup]
    · simp [lookup, hk, ih, Ne.symm hk]

theorem put_put (k : κ) (v v' : ν) (entries : List (κ × ν)) :
    put k v' (put k v entries) = put k v' entries := by
  induction entries with
  | nil => simp [put]
  | cons entry rest ih =>
    obtain ⟨k', v₀⟩ := entry
    by_cases hk : k' = k
    · simp [put, hk]
    · simp [put, hk, ih]

theorem put_of_lookup {k : κ} {v : ν} {entries : List (κ × ν)}
    (h : lookup k entries = some v) : put k v entries = entries := by
  induction entries with
  | nil => cases h
  | cons entry rest ih =>
    obtain ⟨k', v'⟩ := entry
    by_cases hk : k' = k
    · subst hk
      simp only [lookup, if_true, Option.some.injEq] at h
      simp [put, h]
    · simp only [lookup, hk, if_false] at h
      simp [put, hk, ih h]

theorem drop_of_lookup {k : κ} {entries : List (κ × ν)} (h : lookup k entries = none) :
    drop k entries = entries := by
  induction entries with
  | nil => rfl
  | cons entry rest ih =>
    obtain ⟨k', v'⟩ := entry
    by_cases hk : k' = k
    · simp [lookup, hk] at h
    · simp only [lookup, hk, if_false] at h
      simp [drop, hk, ih h]

theorem drop_put (k : κ) (v : ν) (entries : List (κ × ν)) :
    drop k (put k v entries) = drop k entries := by
  induction entries with
  | nil => simp [put, drop]
  | cons entry rest ih =>
    obtain ⟨k', v'⟩ := entry
    by_cases hk : k' = k
    · simp [put, drop, hk]
    · simp [put, drop, hk, ih]

end Entries

/-! ## Tables -/

/-- A finite map from keys to values. -/
structure Table (κ ν : Type) where
  /-- The entries, oldest key first. -/
  entries : List (κ × ν) := []
  /-- No key has two entries. -/
  nodup : (entries.map Prod.fst).Nodup := by simp
deriving DecidableEq

namespace Table

variable {κ ν : Type}

instance : EmptyCollection (Table κ ν) := ⟨{}⟩

instance : Inhabited (Table κ ν) := ⟨∅⟩

/-- How many keys a table has. -/
def size (t : Table κ ν) : Nat := t.entries.length

/-- The keys of a table, oldest first. -/
def keys (t : Table κ ν) : List κ := t.entries.map Prod.fst

variable [DecidableEq κ]

/-- The value of a key. -/
def get? (t : Table κ ν) (k : κ) : Option ν := Entries.lookup k t.entries

/-- Whether a key has a value. -/
def contains (t : Table κ ν) (k : κ) : Bool := (t.get? k).isSome

/-- Gives a key a value. -/
def set (t : Table κ ν) (k : κ) (v : ν) : Table κ ν where
  entries := Entries.put k v t.entries
  nodup := Entries.nodup_put t.nodup

/-- Takes a key out. -/
def erase (t : Table κ ν) (k : κ) : Table κ ν where
  entries := Entries.drop k t.entries
  nodup := Entries.nodup_drop t.nodup

/-- The table of a list of entries; of two entries with one key the later counts. -/
def ofList (entries : List (κ × ν)) : Table κ ν :=
  entries.foldl (fun t entry => t.set entry.1 entry.2) ∅

@[simp]
theorem get?_empty (k : κ) : (∅ : Table κ ν).get? k = none := rfl

theorem get?_set (t : Table κ ν) (k x : κ) (v : ν) :
    (t.set k v).get? x = if k = x then some v else t.get? x :=
  Entries.lookup_put k x v t.entries

@[simp]
theorem get?_set_self (t : Table κ ν) (k : κ) (v : ν) : (t.set k v).get? k = some v := by
  simp [get?_set]

theorem get?_set_of_ne (t : Table κ ν) {k x : κ} (v : ν) (h : k ≠ x) :
    (t.set k v).get? x = t.get? x := by
  simp [get?_set, h]

theorem get?_erase (t : Table κ ν) (k x : κ) :
    (t.erase k).get? x = if k = x then none else t.get? x :=
  Entries.lookup_drop k x t.entries

@[simp]
theorem get?_erase_self (t : Table κ ν) (k : κ) : (t.erase k).get? k = none := by
  simp [get?_erase]

theorem get?_erase_of_ne (t : Table κ ν) {k x : κ} (h : k ≠ x) :
    (t.erase k).get? x = t.get? x := by
  simp [get?_erase, h]

omit [DecidableEq κ] in
/-- Tables with the same entries are the same. -/
theorem eq_of_entries {t t' : Table κ ν} (h : t.entries = t'.entries) : t = t' := by
  cases t
  cases t'
  cases h
  rfl

@[simp]
theorem set_set (t : Table κ ν) (k : κ) (v v' : ν) : (t.set k v).set k v' = t.set k v' :=
  eq_of_entries (Entries.put_put k v v' t.entries)

theorem set_of_get? {t : Table κ ν} {k : κ} {v : ν} (h : t.get? k = some v) : t.set k v = t :=
  eq_of_entries (Entries.put_of_lookup h)

theorem erase_of_get? {t : Table κ ν} {k : κ} (h : t.get? k = none) : t.erase k = t :=
  eq_of_entries (Entries.drop_of_lookup h)

@[simp]
theorem erase_set (t : Table κ ν) (k : κ) (v : ν) : (t.set k v).erase k = t.erase k :=
  eq_of_entries (Entries.drop_put k v t.entries)

theorem get?_eq_none_iff {t : Table κ ν} {k : κ} : t.get? k = none ↔ k ∉ t.keys :=
  Entries.lookup_eq_none_iff

theorem mem_keys_set {t : Table κ ν} {k x : κ} {v : ν} :
    x ∈ (t.set k v).keys ↔ x = k ∨ x ∈ t.keys :=
  Entries.mem_keys_put

end Table

example : ((∅ : Table Nat Bool).set 1 true |>.set 2 true |>.set 1 false).entries
    = [(1, false), (2, true)] := by decide

end TickTree
