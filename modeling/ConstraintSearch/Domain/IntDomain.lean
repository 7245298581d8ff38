import ConstraintSearch.Total
import ConstraintSearch.Relation
import ConstraintSearch.Domain.Event

/-!
# Integer domains

A non-empty finite set of integers, kept as a list of intervals from left to right with a gap of at
least one value between neighbours.

* `IntDomain.ofInterval?` and `IntDomain.ofValues?` build a domain, if it holds a value at all;
* `x ∈ d`, `d.values`, `d.size`, `d.min`, `d.max`, `d.nth`, `d.median` read it;
* `d.restrict r v` keeps the values that stand in the relation `r` to `v`;
* `d.eventTowards e` says what was lost on the way from `d` to the smaller domain `e`.

Domains are never changed in place, and an operation that would leave no value answers
`Narrowing.empty` instead of a domain.
-/

namespace ConstraintSearch

/-- The integers from `lo` to `hi`. -/
structure Interval where
  lo : Int
  hi : Int
  deriving DecidableEq, Repr

namespace Interval

def size (r : Interval) : Nat := (r.hi - r.lo + 1).toNat

def contains (r : Interval) (v : Int) : Bool := r.lo ≤ v ∧ v ≤ r.hi

/-- The first `count` values, in increasing order. -/
def firstValues (r : Interval) (count : Nat) : List Int :=
  (List.range (min count r.size)).map fun i : Nat => r.lo + (i : Int)

def values (r : Interval) : List Int := r.firstValues r.size

/-- The values that stand in the relation to `v`: an interval, two intervals, or none. -/
def restrict (r : Interval) (relation : Relation) (v : Int) : List Interval :=
  let keep (r : Interval) : List Interval := if r.lo ≤ r.hi then [r] else []
  match relation with
  | .equal => if r.contains v then [⟨v, v⟩] else []
  | .notEqual => if r.contains v then keep ⟨r.lo, v - 1⟩ ++ keep ⟨v + 1, r.hi⟩ else [r]
  | .atMost => keep ⟨r.lo, min r.hi v⟩
  | .atLeast => keep ⟨max r.lo v, r.hi⟩

def text (r : Interval) : String :=
  if r.lo = r.hi then toString r.lo else toString r.lo ++ ".." ++ toString r.hi

theorem contains_iff {r : Interval} {v : Int} : r.contains v ↔ r.lo ≤ v ∧ v ≤ r.hi := by
  simp [contains]

theorem mem_values {r : Interval} {v : Int} : v ∈ r.values ↔ r.contains v := by
  simp only [values, firstValues, Nat.min_self, List.mem_map, List.mem_range, contains_iff, size]
  constructor
  · rintro ⟨i, hi, rfl⟩
    omega
  · rintro ⟨h₁, h₂⟩
    exact ⟨(v - r.lo).toNat, by omega, by omega⟩

end Interval

/-- A non-empty list of intervals. -/
structure IntDomain where
  ranges : List Interval
  ranges_ne_nil : ranges ≠ []
  deriving DecidableEq

namespace IntDomain

/-- The domain with the given intervals, if there are any. -/
def ofRanges? (ranges : List Interval) : Option IntDomain :=
  if h : ranges ≠ [] then some ⟨ranges, h⟩ else none

/-- The domain `{lower, …, upper}`. -/
def ofInterval? (lower upper : Int) : Option IntDomain :=
  if lower ≤ upper then ofRanges? [⟨lower, upper⟩] else none

/-- The intervals of a list of values in increasing order; repeated values are taken once. -/
def rangesOfSorted : List Int → List Interval
  | [] => []
  | v :: vs =>
      match rangesOfSorted vs with
      | [] => [⟨v, v⟩]
      | r :: rs =>
          if r.lo = v then r :: rs
          else if r.lo = v + 1 then ⟨v, r.hi⟩ :: rs
          else ⟨v, v⟩ :: r :: rs

/-- The domain of a list of values, given in any order. -/
def ofValues? (values : List Int) : Option IntDomain :=
  ofRanges? (rangesOfSorted (values.mergeSort (· ≤ ·)))

/-- The least value. -/
def min (d : IntDomain) : Int := (d.ranges.head d.ranges_ne_nil).lo

/-- The greatest value. -/
def max (d : IntDomain) : Int := (d.ranges.getLast d.ranges_ne_nil).hi

/-- The number of values. -/
def size (d : IntDomain) : Nat := total Interval.size d.ranges

/-- The number of integers between the bounds, holes included. -/
def width (d : IntDomain) : Nat := (d.max - d.min + 1).toNat

def isAssigned (d : IntDomain) : Bool := d.size = 1

def contains (d : IntDomain) (v : Int) : Bool := d.ranges.any (·.contains v)

instance : Membership Int IntDomain := ⟨fun d v => d.contains v = true⟩

instance (v : Int) (d : IntDomain) : Decidable (v ∈ d) :=
  inferInstanceAs (Decidable (d.contains v = true))

theorem mem_iff {v : Int} {d : IntDomain} : v ∈ d ↔ d.contains v = true := Iff.rfl

/-- The values in increasing order. -/
def values (d : IntDomain) : List Int := d.ranges.flatMap Interval.values

/-- The first `count` values of the intervals. -/
def firstValuesOf : List Interval → Nat → List Int
  | [], _ => []
  | r :: rs, count =>
      if count = 0 then [] else r.firstValues count ++ firstValuesOf rs (count - r.size)

/-- The first `count` values in increasing order. -/
def firstValues (d : IntDomain) (count : Nat) : List Int := firstValuesOf d.ranges count

/-- The value at a position in the increasing order of the intervals' values. -/
def nthOf? : List Interval → Nat → Option Int
  | [], _ => none
  | r :: rs, i => if i < r.size then some (r.lo + i) else nthOf? rs (i - r.size)

/-- The value at a position, counted from zero in increasing order. -/
def nth? (d : IntDomain) (i : Nat) : Option Int := nthOf? d.ranges i

/-- The value at a position, and the greatest value beyond the last position. -/
def nth (d : IntDomain) (i : Nat) : Int := (d.nth? i).getD d.max

/-- The value in the middle, the lower one of two. -/
def median (d : IntDomain) : Int := d.nth ((d.size - 1) / 2)

/-- Whether each interval of `d` lies within an interval of `other`. -/
def isSubsetOf (d other : IntDomain) : Bool :=
  d.ranges.all fun r => other.ranges.any fun s => s.lo ≤ r.lo ∧ r.hi ≤ s.hi

/-- What was lost on the way from `d` to the smaller domain `narrowed`. -/
def eventTowards (d narrowed : IntDomain) : Event :=
  if narrowed.size = d.size then .none
  else if narrowed.isAssigned then .assigned
  else if narrowed.min ≠ d.min ∨ narrowed.max ≠ d.max then .bounds
  else .domain

/-- Whether every value of the domain stands in the relation to `v`. -/
def satisfies (d : IntDomain) (relation : Relation) (v : Int) : Bool :=
  match relation with
  | .equal => d.contains v ∧ d.isAssigned
  | .notEqual => ¬ d.contains v
  | .atMost => d.max ≤ v
  | .atLeast => v ≤ d.min

/-- Keep the values that stand in the relation to `v`. -/
def restrict (d : IntDomain) (relation : Relation) (v : Int) : Narrowing IntDomain :=
  if d.satisfies relation v then .unchanged
  else
    match ofRanges? (d.ranges.flatMap (·.restrict relation v)) with
    | some narrowed => .changed narrowed
    | none => .empty

def text (d : IntDomain) : String :=
  if d.isAssigned then toString d.min
  else "\x7b" ++ ", ".intercalate (d.ranges.map Interval.text) ++ "\x7d"

theorem mem_values {v : Int} {d : IntDomain} : v ∈ d.values ↔ v ∈ d := by
  simp [values, mem_iff, contains, Interval.mem_values]

end IntDomain

end ConstraintSearch
