/-!
# Sorted maps

A finite map as a list of entries with ascending keys. An inserted entry replaces the
one of the same key (`SortedMap.get?_insert_self`) and leaves all others as they are
(`SortedMap.get?_insert_of_ne`).
-/

namespace MarkupTypes

/-- Entries by ascending key. -/
structure SortedMap (κ ν : Type) where
  entries : List (κ × ν)
  deriving DecidableEq, Repr, Inhabited

namespace SortedMap

variable {κ ν : Type} [DecidableEq κ]

/-- The map without entries. -/
def empty : SortedMap κ ν := ⟨[]⟩

/-- The number of entries. -/
def size (m : SortedMap κ ν) : Nat := m.entries.length

/-- The value of a key. -/
def get? (m : SortedMap κ ν) (key : κ) : Option ν :=
  (m.entries.find? fun e => e.1 = key).map Prod.snd

/-- The key has an entry. -/
def contains (m : SortedMap κ ν) (key : κ) : Bool := (m.get? key).isSome

/-- Entries with one more at its place, or in the place of the one of the same key. -/
def insertEntry [Ord κ] (key : κ) (value : ν) : List (κ × ν) → List (κ × ν)
  | [] => [(key, value)]
  | e :: es =>
    if e.1 = key then (key, value) :: es
    else if compare key e.1 = .lt then (key, value) :: e :: es
    else e :: insertEntry key value es

/-- The map with the value of one key set. -/
def insert [Ord κ] (m : SortedMap κ ν) (key : κ) (value : ν) : SortedMap κ ν :=
  ⟨insertEntry key value m.entries⟩

/-- The map of a list of entries, where the last entry of a key counts. -/
def ofList [Ord κ] (entries : List (κ × ν)) : SortedMap κ ν :=
  entries.foldl (fun m e => m.insert e.1 e.2) empty

variable [Ord κ]

theorem get?_insert_self (m : SortedMap κ ν) (key : κ) (value : ν) :
    (m.insert key value).get? key = some value := by
  obtain ⟨es⟩ := m
  simp only [insert, get?]
  induction es with
  | nil => simp [insertEntry]
  | cons e es ih => simp only [insertEntry]; split <;> (try split) <;> simp_all

theorem get?_insert_of_ne (m : SortedMap κ ν) {key other : κ} (value : ν) (h : other ≠ key) :
    (m.insert key value).get? other = m.get? other := by
  obtain ⟨es⟩ := m
  simp only [insert, get?]
  induction es with
  | nil => simp [insertEntry, Ne.symm h]
  | cons e es ih =>
    simp only [insertEntry]
    split
    · next he => simp [he, Ne.symm h]
    · split
      · simp [Ne.symm h]
      · by_cases he : e.1 = other <;> simp_all

end SortedMap

/-- A list of ids with one more at its place, ascending and without repetitions. -/
def insertId (id : Nat) : List Nat → List Nat
  | [] => [id]
  | x :: xs => if id < x then id :: x :: xs else if id = x then x :: xs else x :: insertId id xs

theorem mem_insertId {x id : Nat} {xs : List Nat} :
    x ∈ insertId id xs ↔ x = id ∨ x ∈ xs := by
  induction xs with
  | nil => simp [insertId]
  | cons y ys ih => simp only [insertId]; grind

end MarkupTypes
