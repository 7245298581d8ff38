import Mathlib.Data.Fintype.Pi
import ConstraintSearch.Proofs.Posting

/-!
# The assignments of a store

A store stands for the assignments that take all their values from its domains. There are finitely
many of them, and a store whose variables all have a value has exactly one.

* `Assignment.Within a s`: the assignment takes its values from the domains of `s`;
* `Assignment.box` is the box with this assignment only; it lies within a store if and only if the
  assignment does (`Within.box`, `Within.of_box`);
* `Store.finite_assignments`: a store has finitely many assignments;
* `Store.exists_assignment_int`, `Store.exists_assignment_set`: every value of a domain is taken;
* `Store.Assigned`, `Store.assignment`: all variables have a value, and these values.
-/

namespace ConstraintSearch

/-- The assignment takes its values from the domains of the store. A variable that does not exist
has the value zero, or the empty set. -/
structure Assignment.Within (a : Assignment) (s : Store) : Prop where
  ints : ∀ i, a.ints i ∈ s.box.ints i
  sets : ∀ i, a.sets i ∈ s.box.sets i

/-- The domains that hold one assignment. -/
def Assignment.box (a : Assignment) : Box where
  ints i := .singleton (a.ints i)
  sets i := .exactly (a.sets i)

/-- The values of the variables that have one. -/
def Store.assignment (s : Store) : Assignment where
  ints i := (s.box.ints i).min
  sets i := (s.box.sets i).required

/-- All variables have a value. -/
structure Store.Assigned (s : Store) : Prop where
  ints : ∀ i < s.ints.size, (s.box.ints i).isAssigned = true
  sets : ∀ i < s.sets.size, (s.box.sets i).isAssigned = true

variable {a b : Assignment} {s s' : Store}

/-! ### Boxes of one assignment -/

namespace Assignment

theorem sound_box (h : ∀ i, (a.sets i).Pairwise (· < ·)) : a.box.Sound :=
  ⟨fun _ => IntDomain.canonical_singleton _, fun i => SetDomain.normal_exactly (h i)⟩

theorem takes_box (x : IntVar) : x.Takes a a.box := rfl

theorem posting_takes_box (c : Posting) : c.Takes a a.box :=
  ⟨fun x _ => takes_box x, fun _ _ => rfl⟩

/-- A restriction of the box is a condition on the value. -/
theorem restricted_box {x : IntVar} {relation : Relation} {v : Int} :
    x.Restricted relation v a.box ↔ relation.Holds (a.value x) v := by
  constructor
  · intro h
    exact h _ (IntDomain.mem_singleton.2 rfl)
  · intro h u hu
    rw [IntDomain.mem_singleton.1 hu]
    exact h

namespace Within

theorem ordered (h : a.Within s) (i : Nat) : (a.sets i).Pairwise (· < ·) := (h.sets i).1

theorem sound (h : a.Within s) : a.box.Sound := sound_box h.ordered

theorem box (h : a.Within s) : a.box.Within s := by
  refine ⟨fun i _ v hv => ?_, fun i _ => (h.sets i).2⟩
  rw [IntDomain.mem_singleton.1 hv]
  exact h.ints i

end Within

end Assignment

/-- Beyond the last variable, stores of one size do not differ. -/
theorem Store.Narrows.box_ints_of_le (h : s.Narrows s') {i : Nat} (hi : s.ints.size ≤ i) :
    s'.box.ints i = s.box.ints i := by
  have hget : s.ints.get? i = none := Array.getElem?_eq_none hi
  have hget' : s'.ints.get? i = none := Array.getElem?_eq_none (h.size_ints.le.trans hi)
  simp only [Store.box, hget, hget']

theorem Store.Narrows.box_sets_of_le (h : s.Narrows s') {i : Nat} (hi : s.sets.size ≤ i) :
    s'.box.sets i = s.box.sets i := by
  have hget : s.sets.get? i = none := Array.getElem?_eq_none hi
  have hget' : s'.sets.get? i = none := Array.getElem?_eq_none (h.size_sets.le.trans hi)
  simp only [Store.box, hget, hget']

namespace Assignment.Within

/-- A narrowed store has the assignments whose boxes lie within it. -/
theorem of_box (ha : a.Within s) (h : s.Narrows s') (hbox : a.box.Within s') : a.Within s' := by
  refine ⟨fun i => ?_, fun i => ?_⟩
  · by_cases hi : i < s'.ints.size
    · exact hbox.ints i hi _ (IntDomain.mem_singleton.2 rfl)
    · rw [h.box_ints_of_le (h.size_ints ▸ not_lt.1 hi)]
      exact ha.ints i
  · by_cases hi : i < s'.sets.size
    · exact ⟨ha.ordered i, hbox.sets i hi⟩
    · rw [h.box_sets_of_le (h.size_sets ▸ not_lt.1 hi)]
      exact ha.sets i

theorem of_narrows (ha : a.Within s') (h : s.Narrows s') : a.Within s := by
  refine ⟨fun i => ?_, fun i => ?_⟩
  · by_cases hi : i < s.ints.size
    · exact h.within.ints i hi _ (ha.ints i)
    · rw [← h.box_ints_of_le (not_lt.1 hi)]
      exact ha.ints i
  · by_cases hi : i < s.sets.size
    · exact ⟨ha.ordered i, SetDomain.le_trans (ha.sets i).2 (h.within.sets i hi)⟩
    · rw [← h.box_sets_of_le (not_lt.1 hi)]
      exact ha.sets i

end Assignment.Within

/-! ### All assignments of a store -/

namespace Store

/-- Variables that do not exist have one value. -/
theorem eq_of_size_le {i : Nat} (hi : s.ints.size ≤ i) (ha : a.Within s) (hb : b.Within s) :
    a.ints i = b.ints i := by
  have hget : s.ints.get? i = none := Array.getElem?_eq_none hi
  have hzero {v : Int} (hv : v ∈ s.box.ints i) : v = 0 := by
    simp only [box, hget, Option.getD_none] at hv
    exact IntDomain.mem_singleton.1 hv
  rw [hzero (ha.ints i), hzero (hb.ints i)]

theorem eq_of_sets_size_le {i : Nat} (hi : s.sets.size ≤ i) (ha : a.Within s) (hb : b.Within s) :
    a.sets i = b.sets i := by
  have hget : s.sets.get? i = none := Array.getElem?_eq_none hi
  have hempty {l : List Int} (hl : l ∈ s.box.sets i) : l = [] := by
    simp only [box, hget, Option.getD_none] at hl
    exact List.subset_nil.1 hl.2.2.1
  rw [hempty (ha.sets i), hempty (hb.sets i)]

/-- Assignments of a store that agree on the variables that exist are the same. -/
theorem assignment_ext (ha : a.Within s) (hb : b.Within s)
    (hints : ∀ i < s.ints.size, a.ints i = b.ints i)
    (hsets : ∀ i < s.sets.size, a.sets i = b.sets i) : a = b := by
  cases a
  cases b
  congr
  · funext i
    by_cases hi : i < s.ints.size
    · exact hints i hi
    · exact eq_of_size_le (not_lt.1 hi) ha hb
  · funext i
    by_cases hi : i < s.sets.size
    · exact hsets i hi
    · exact eq_of_sets_size_le (not_lt.1 hi) ha hb

/-- A store has finitely many assignments. -/
theorem finite_assignments (hs : s.Sound) : {a : Assignment | a.Within s}.Finite := by
  have hints (i : Fin s.ints.size) : {v | v ∈ s.box.ints i}.Finite :=
    (List.finite_toSet (s.box.ints i).values).subset fun v hv => IntDomain.mem_values.2 hv
  have hsets (i : Fin s.sets.size) : {l | l ∈ s.box.sets i}.Finite :=
    SetDomain.finite_mem (hs.box.normal i).toOrdered
  have hpairs := (Set.Finite.pi' hints).prod (Set.Finite.pi' hsets)
  refine Set.Finite.of_injOn (f := fun a : Assignment =>
    (fun i : Fin s.ints.size => a.ints i, fun i : Fin s.sets.size => a.sets i)) ?_ ?_ hpairs
  · intro a ha
    exact ⟨fun i => ha.ints i, fun i => ha.sets i⟩
  · intro a ha b hb heq
    obtain ⟨heqInts, heqSets⟩ := Prod.mk.inj heq
    exact assignment_ext ha hb (fun i hi => congrFun heqInts ⟨i, hi⟩)
      fun i hi => congrFun heqSets ⟨i, hi⟩

theorem exists_assignment (hs : s.Sound) : ∃ a : Assignment, a.Within s := by
  have hsets : ∀ i, ∃ l, l ∈ s.box.sets i := fun i => (hs.box.normal i).exists_mem
  choose sets hmem using hsets
  exact ⟨⟨fun i => (s.box.ints i).min, sets⟩, fun i => (hs.box.canonical i).min_mem, hmem⟩

/-- Some assignment takes a given value. -/
theorem exists_assignment_int (hs : s.Sound) {i : Nat} {v : Int} (hv : v ∈ s.box.ints i) :
    ∃ a : Assignment, a.Within s ∧ a.ints i = v := by
  obtain ⟨a, ha⟩ := exists_assignment hs
  refine ⟨⟨Function.update a.ints i v, a.sets⟩, ⟨fun j => ?_, ha.sets⟩, Function.update_self ..⟩
  dsimp only
  by_cases hj : j = i
  · subst hj
    rw [Function.update_self]
    exact hv
  · rw [Function.update_of_ne hj]
    exact ha.ints j

/-- Some assignment takes a given set. -/
theorem exists_assignment_set (hs : s.Sound) {i : Nat} {l : List Int} (hl : l ∈ s.box.sets i) :
    ∃ a : Assignment, a.Within s ∧ a.sets i = l := by
  obtain ⟨a, ha⟩ := exists_assignment hs
  refine ⟨⟨a.ints, Function.update a.sets i l⟩, ⟨ha.ints, fun j => ?_⟩, Function.update_self ..⟩
  dsimp only
  by_cases hj : j = i
  · subst hj
    rw [Function.update_self]
    exact hl
  · rw [Function.update_of_ne hj]
    exact ha.sets j

/-! ### Stores with one assignment -/

theorem Assigned.eq_assignment (h : s.Assigned) (hs : s.Sound) (ha : a.Within s)
    (hb : b.Within s) : a = b := by
  refine assignment_ext ha hb (fun i hi => ?_) fun i hi => ?_
  · have heq := (hs.box.canonical i).eq_singleton (h.ints i hi)
    have hai := ha.ints i
    have hbi := hb.ints i
    rw [heq, IntDomain.mem_singleton] at hai hbi
    rw [hai, hbi]
  · rw [(hs.box.normal i).eq_required_of_mem (h.sets i hi) (ha.sets i),
      (hs.box.normal i).eq_required_of_mem (h.sets i hi) (hb.sets i)]

theorem Assigned.assignment_within (h : s.Assigned) (hs : s.Sound) : s.assignment.Within s := by
  obtain ⟨b, hb⟩ := exists_assignment hs
  refine ⟨fun i => (hs.box.canonical i).min_mem, fun i => ?_⟩
  by_cases hi : i < s.sets.size
  · have heq := (hs.box.normal i).eq_required_of_mem (h.sets i hi) (hb.sets i)
    show (s.box.sets i).required ∈ s.box.sets i
    rw [← heq]
    exact hb.sets i
  · have hget : s.sets.get? i = none := Array.getElem?_eq_none (not_lt.1 hi)
    show (s.box.sets i).required ∈ s.box.sets i
    simp only [box, hget, Option.getD_none]
    exact ⟨List.Pairwise.nil, SetDomain.le_refl _⟩

theorem Assigned.within_iff (h : s.Assigned) (hs : s.Sound) : a.Within s ↔ a = s.assignment :=
  ⟨fun ha => h.eq_assignment hs ha (h.assignment_within hs),
    fun ha => ha ▸ h.assignment_within hs⟩

theorem Assigned.box_eq (h : s.Assigned) (hs : s.Sound) : s.assignment.box = s.box := by
  unfold Assignment.box assignment
  congr
  · funext i
    by_cases hi : i < s.ints.size
    · exact ((hs.box.canonical i).eq_singleton (h.ints i hi)).symm
    · have hget : s.ints.get? i = none := Array.getElem?_eq_none (not_lt.1 hi)
      simp only [box, hget]
      rfl
  · funext i
    by_cases hi : i < s.sets.size
    · exact ((hs.box.normal i).eq_exactly (h.sets i hi)).symm
    · have hget : s.sets.get? i = none := Array.getElem?_eq_none (not_lt.1 hi)
      simp only [box, hget]
      rfl

end Store

end ConstraintSearch
