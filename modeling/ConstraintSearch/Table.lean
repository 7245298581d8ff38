import ConstraintSearch.Fault

/-!
# Tables

A table is a list of rows that grows at its end; the position of a row is its key. Variables,
propagators, branchers and watch lists are kept in tables, and a handle to one of them is a key.

* `fetch` reads a row and faults where there is none, `get?` answers `none` there;
* `push` adds a row under the key `size`;
* `accommodate` grows the table until it has a given key.
-/

namespace ConstraintSearch

/-- Rows under the keys `0, …, size - 1`. -/
structure Table (α : Type) where
  rows : Array α
  deriving DecidableEq, Repr

namespace Table

variable {α : Type}

instance : EmptyCollection (Table α) := ⟨⟨#[]⟩⟩

instance : Inhabited (Table α) := ⟨∅⟩

def size (t : Table α) : Nat := t.rows.size

/-- Add a row; its key is the previous size. -/
def push (t : Table α) (row : α) : Table α := ⟨t.rows.push row⟩

def get? (t : Table α) (key : Nat) : Option α := t.rows[key]?

/-- The row under `key`; a key without a row is a fault. -/
def fetch (t : Table α) (key : Nat) : Except Fault α :=
  if h : key < t.rows.size then .ok t.rows[key] else .error (.indexOutOfBounds t.rows.size key)

/-- Replace the row under `key`, if there is one. -/
def set (t : Table α) (key : Nat) (row : α) : Table α := ⟨t.rows.setIfInBounds key row⟩

/-- Apply `f` to the row under `key`, if there is one. -/
def modify (t : Table α) (key : Nat) (f : α → α) : Table α := ⟨t.rows.modify key f⟩

/-- Grow the table by copies of `row` until it has a row under `key`. -/
def accommodate (t : Table α) (key : Nat) (row : α) : Table α :=
  if key < t.rows.size then t else ⟨t.rows ++ Array.replicate (key + 1 - t.rows.size) row⟩

def toList (t : Table α) : List α := t.rows.toList

@[simp] theorem size_push (t : Table α) (row : α) : (t.push row).size = t.size + 1 := by
  simp [push, size]

@[simp] theorem size_set (t : Table α) (key : Nat) (row : α) : (t.set key row).size = t.size := by
  simp [set, size]

@[simp] theorem get?_set (t : Table α) (key other : Nat) (row : α) :
    (t.set key row).get? other =
      if key = other then (if key < t.size then some row else none) else t.get? other := by
  simp only [set, get?, size, Array.getElem?_setIfInBounds]
  split <;> rfl

/-- A row is replaced by itself. -/
theorem set_of_get? {t : Table α} {key : Nat} {row : α} (h : t.get? key = some row) :
    t.set key row = t := by
  obtain ⟨hlt, rfl⟩ := Array.getElem?_eq_some_iff.1 h
  unfold set
  rw [Array.setIfInBounds_def, dif_pos hlt, Array.set_getElem_self]

theorem fetch_eq_ok {t : Table α} {key : Nat} {row : α} :
    t.fetch key = .ok row ↔ t.get? key = some row := by
  unfold fetch get?
  split <;> simp_all

/-- Only a key of the table can be read. -/
theorem lt_of_fetch {t : Table α} {key : Nat} {row : α} (h : t.fetch key = .ok row) :
    key < t.size :=
  (Array.getElem?_eq_some_iff.1 (fetch_eq_ok.1 h)).1

theorem get?_accommodate (t : Table α) (key other : Nat) (row : α) :
    (t.accommodate key row).get? other =
      if t.size ≤ other ∧ other ≤ key then some row else t.get? other := by
  unfold accommodate get? size
  split
  · rw [if_neg (by omega)]
  · rw [Array.getElem?_append, Array.getElem?_replicate]
    grind

theorem lt_size_accommodate (t : Table α) (key : Nat) (row : α) :
    key < (t.accommodate key row).size := by
  unfold accommodate size
  split
  · assumption
  · simp only [Array.size_append, Array.size_replicate]
    omega

end Table

end ConstraintSearch
