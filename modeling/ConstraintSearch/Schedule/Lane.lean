/-!
# Waiting lines

A line that is joined at its end and served at its front. The entries that were served stay in
front of the others until they are as many as these, so that joining and serving take constant
time on average.

* `Lane.toList` is the line from its front to its end; `toList_push` says what joining does to it,
  `toList_of_pop?` and `pop?_eq_none` what serving does;
* `Lane.take?` serves any position, and the last entry moves there.
-/

namespace ConstraintSearch

/-- The entries behind the first `served` ones. -/
structure Lane where
  entries : Array Nat
  served : Nat
  served_le : served ≤ entries.size := by simp
  deriving DecidableEq, Repr

namespace Lane

instance : EmptyCollection Lane := ⟨{ entries := #[], served := 0 }⟩

instance : Inhabited Lane := ⟨∅⟩

/-- The line from its front to its end. -/
def toList (l : Lane) : List Nat := l.entries.toList.drop l.served

def size (l : Lane) : Nat := l.entries.size - l.served

/-- Join the line. -/
def push (l : Lane) (entry : Nat) : Lane where
  entries := l.entries.push entry
  served := l.served
  served_le := by simp; exact Nat.le_succ_of_le l.served_le

/-- Drop the entries that were served, once they are at least half of all. -/
def trim (l : Lane) : Lane :=
  if l.entries.size ≤ 2 * l.served then
    { entries := l.entries.extract l.served l.entries.size, served := 0 }
  else l

/-- The entry at the front, and the line without it. -/
def pop? (l : Lane) : Option (Nat × Lane) :=
  if h : l.served < l.entries.size then
    some (l.entries[l.served], trim ⟨l.entries, l.served + 1, h⟩)
  else none

/-- The entry at a position behind the front, and the line with its last entry in that place. -/
def take? (l : Lane) (position : Nat) : Option (Nat × Lane) :=
  if h : l.served + position < l.entries.size then
    some (l.entries[l.served + position],
      { entries := (l.entries.set (l.served + position) l.entries.back).pop
        served := l.served
        served_le := by simp; omega })
  else none

theorem length_toList (l : Lane) : l.toList.length = l.size := by
  simp [toList, size]

@[simp]
theorem toList_empty : toList ∅ = [] := rfl

@[simp]
theorem toList_push (l : Lane) (entry : Nat) : (l.push entry).toList = l.toList ++ [entry] := by
  simp [toList, push, List.drop_append_of_le_length, l.served_le]

@[simp]
theorem toList_trim (l : Lane) : l.trim.toList = l.toList := by
  unfold trim
  split
  · simp [toList, List.take_of_length_le]
  · rfl

theorem pop?_eq_none {l : Lane} : l.pop? = none ↔ l.toList = [] := by
  unfold pop? toList
  split
  · simp
    omega
  · simp
    omega

theorem toList_of_pop? {l l' : Lane} {entry : Nat} (h : l.pop? = some (entry, l')) :
    l.toList = entry :: l'.toList := by
  unfold pop? at h
  split at h
  · rename_i hlt
    obtain ⟨rfl, rfl⟩ := Prod.mk.inj (Option.some.inj h)
    rw [toList_trim]
    exact List.drop_eq_getElem_cons (by simpa using hlt)
  · cases h

end Lane

end ConstraintSearch
