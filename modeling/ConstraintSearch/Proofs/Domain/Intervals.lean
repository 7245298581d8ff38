import Mathlib.Data.List.Pairwise
import Mathlib.Algebra.Order.Group.Int
import ConstraintSearch.Domain.IntDomain

/-!
# Lists of separated intervals

The lists of intervals that stand for integer domains: from left to right, none empty, and with a
gap of at least one value between neighbours.

* `Separated` is that form, `Covers` membership in a list of intervals;
* `pairwise_values`, `length_values`: the values are listed in increasing order, each once;
* `Separated.restrict`, `covers_restrict`: what a restriction by a relation keeps;
* `Separated.eq_of_covers_iff`: the form of a set is unique;
* `rangesOfSorted_spec`: the intervals of a sorted list of values.
-/

namespace ConstraintSearch

namespace Interval

theorem length_values (r : Interval) : r.values.length = r.size := by
  simp [values, firstValues]

theorem pairwise_values (r : Interval) : r.values.Pairwise (· < ·) := by
  unfold values firstValues
  rw [List.pairwise_map]
  exact List.pairwise_lt_range.imp fun h => by omega

/-- An interval that is kept if it is not empty contains what lies between its ends. -/
theorem exists_kept {r : Interval} {w : Int} :
    (∃ s ∈ if r.lo ≤ r.hi then [r] else [], s.contains w) ↔ r.lo ≤ w ∧ w ≤ r.hi := by
  by_cases h : r.lo ≤ r.hi
  · simp [h, contains_iff]
  · simp only [h, if_false]
    constructor
    · rintro ⟨s, hs, -⟩
      cases hs
    · omega

/-- A restriction keeps the values that stand in the relation. -/
theorem contains_restrict {r : Interval} {relation : Relation} {v w : Int} :
    (∃ s ∈ r.restrict relation v, s.contains w) ↔ r.contains w ∧ relation.Holds w v := by
  rw [contains_iff]
  cases relation with
  | equal =>
    unfold restrict
    simp only [Relation.Holds]
    split
    · rename_i h
      rw [contains_iff] at h
      simp only [List.mem_singleton, exists_eq_left, contains_iff]
      omega
    · rename_i h
      rw [contains_iff] at h
      simp only [List.not_mem_nil, false_and, exists_false, false_iff]
      rintro ⟨hw, rfl⟩
      exact h hw
  | notEqual =>
    unfold restrict
    simp only [Relation.Holds]
    split
    · rename_i h
      rw [contains_iff] at h
      simp only [List.mem_append, or_and_right, exists_or]
      have below := exists_kept (r := ⟨r.lo, v - 1⟩) (w := w)
      have above := exists_kept (r := ⟨v + 1, r.hi⟩) (w := w)
      simp only at below above
      rw [below, above]
      omega
    · rename_i h
      rw [contains_iff] at h
      simp only [List.mem_singleton, exists_eq_left, contains_iff]
      exact ⟨fun hw => ⟨hw, by rintro rfl; exact h hw⟩, And.left⟩
  | atMost =>
    have kept := exists_kept (r := ⟨r.lo, min r.hi v⟩) (w := w)
    simp only at kept
    unfold restrict
    simp only [Relation.Holds]
    rw [kept]
    omega
  | atLeast =>
    have kept := exists_kept (r := ⟨max r.lo v, r.hi⟩) (w := w)
    simp only at kept
    unfold restrict
    simp only [Relation.Holds]
    rw [kept]
    omega

/-- What is left of an interval lies within it. -/
theorem within_of_mem_restrict {r s : Interval} {relation : Relation} {v : Int}
    (h : s ∈ r.restrict relation v) (hr : r.lo ≤ r.hi) :
    r.lo ≤ s.lo ∧ s.lo ≤ s.hi ∧ s.hi ≤ r.hi := by
  cases relation <;> unfold restrict at h <;> simp only at h
  · split at h <;> rename_i hc <;> simp at h
    rw [contains_iff] at hc
    subst h; exact ⟨hc.1, le_rfl, hc.2⟩
  · split at h
    · rename_i hc
      rw [contains_iff] at hc
      rcases List.mem_append.1 h with h | h <;> split at h <;> simp at h <;> subst h <;>
        simp only at * <;> omega
    · simp at h; subst h; exact ⟨le_rfl, hr, le_rfl⟩
  · split at h <;> simp at h
    subst h; simp only at *; omega
  · split at h <;> simp at h
    subst h; simp only at *; omega

end Interval

/-- The intervals of a list are not empty, stand in increasing order, and do not touch. -/
structure Separated (rs : List Interval) : Prop where
  proper : ∀ r ∈ rs, r.lo ≤ r.hi
  apart : rs.Pairwise fun r s => r.hi + 1 < s.lo

/-- `v` lies in one of the intervals. -/
def Covers (rs : List Interval) (v : Int) : Prop := ∃ r ∈ rs, r.contains v

@[simp] theorem not_covers_nil (v : Int) : ¬Covers [] v := by simp [Covers]

@[simp] theorem covers_cons {r : Interval} {rs : List Interval} {v : Int} :
    Covers (r :: rs) v ↔ (r.lo ≤ v ∧ v ≤ r.hi) ∨ Covers rs v := by
  simp [Covers, Interval.contains_iff]

theorem mem_flatMap_values {rs : List Interval} {v : Int} :
    v ∈ rs.flatMap Interval.values ↔ Covers rs v := by
  simp [Covers, Interval.mem_values]

theorem length_flatMap_values (rs : List Interval) :
    (rs.flatMap Interval.values).length = total Interval.size rs := by
  induction rs with
  | nil => rfl
  | cons r rs ih => simp [ih, Interval.length_values]

namespace Separated

variable {r : Interval} {rs ss : List Interval}

theorem nil : Separated [] := ⟨by simp, List.Pairwise.nil⟩

theorem cons_iff : Separated (r :: rs) ↔
    r.lo ≤ r.hi ∧ (∀ s ∈ rs, r.hi + 1 < s.lo) ∧ Separated rs := by
  constructor
  · rintro ⟨hp, ha⟩
    have ha := List.pairwise_cons.1 ha
    exact ⟨hp r (by simp), ha.1, fun s hs => hp s (by simp [hs]), ha.2⟩
  · rintro ⟨hr, hlt, hs⟩
    exact ⟨by simpa using ⟨hr, hs.proper⟩, List.pairwise_cons.2 ⟨hlt, hs.apart⟩⟩

/-- Values of the intervals behind the first one lie beyond it. -/
theorem lt_of_covers_tail (h : Separated (r :: rs)) {v : Int} (hv : Covers rs v) :
    r.hi + 1 < v := by
  obtain ⟨s, hs, hc⟩ := hv
  have := (cons_iff.1 h).2.1 s hs
  rw [Interval.contains_iff] at hc
  omega

theorem pairwise_values (h : Separated rs) :
    (rs.flatMap Interval.values).Pairwise (· < ·) := by
  induction rs with
  | nil => simp
  | cons r rs ih =>
    rw [List.flatMap_cons, List.pairwise_append]
    refine ⟨r.pairwise_values, ih (cons_iff.1 h).2.2, fun v hv w hw => ?_⟩
    have := h.lt_of_covers_tail (mem_flatMap_values.1 hw)
    have := Interval.contains_iff.1 (Interval.mem_values.1 hv)
    omega

theorem restrict (h : Separated rs) (relation : Relation) (v : Int) :
    Separated (rs.flatMap (·.restrict relation v)) := by
  constructor
  · intro s hs
    obtain ⟨r, hr, hs⟩ := List.mem_flatMap.1 hs
    exact (Interval.within_of_mem_restrict hs (h.proper r hr)).2.1
  · rw [List.pairwise_flatMap]
    constructor
    · intro r hr
      cases relation <;> unfold Interval.restrict <;> simp only
      · split <;> simp
      · split
        · split <;> split <;> simp
        · simp
      · split <;> simp
      · split <;> simp
    · refine h.apart.imp_of_mem fun {r s} hr hs hlt r' hr' s' hs' => ?_
      have := Interval.within_of_mem_restrict hr' (h.proper r hr)
      have := Interval.within_of_mem_restrict hs' (h.proper s hs)
      omega

/-- Two separated lists with the same members are the same list: the first intervals begin with the
least member and end before the first gap. -/
theorem eq_of_covers_iff (hr : Separated rs) (hs : Separated ss)
    (h : ∀ v, Covers rs v ↔ Covers ss v) : rs = ss := by
  induction rs generalizing ss with
  | nil =>
    cases ss with
    | nil => rfl
    | cons s ss =>
      have := (h s.lo).2 (by simp [(cons_iff.1 hs).1])
      simp at this
  | cons r rs ih =>
    cases ss with
    | nil =>
      have := (h r.lo).1 (by simp [(cons_iff.1 hr).1])
      simp at this
    | cons s ss =>
      have pr := (cons_iff.1 hr).1
      have ps := (cons_iff.1 hs).1
      have behind {a : Interval} {as : List Interval} (ha : Separated (a :: as)) {v : Int}
          (hv : Covers (a :: as) v) : a.lo ≤ v ∧ (v ≤ a.hi + 1 → v ≤ a.hi) := by
        rcases covers_cons.1 hv with hv | hv
        · omega
        · have := ha.lt_of_covers_tail hv
          have := (cons_iff.1 ha).1
          omega
      have hlo : r.lo = s.lo := by
        have := (behind hs ((h r.lo).1 (by simp [pr]))).1
        have := (behind hr ((h s.lo).2 (by simp [ps]))).1
        omega
      have hhi : r.hi = s.hi := by
        rcases Int.lt_trichotomy r.hi s.hi with hlt | heq | hgt
        · have := (behind hr ((h (r.hi + 1)).2 (by rw [covers_cons]; omega))).2
          omega
        · exact heq
        · have := (behind hs ((h (s.hi + 1)).1 (by rw [covers_cons]; omega))).2
          omega
      have heq : r = s := by cases r; cases s; simp_all
      subst heq
      congr 1
      refine ih (cons_iff.1 hr).2.2 (cons_iff.1 hs).2.2 fun v => ?_
      have := h v
      simp only [covers_cons] at this
      constructor
      · intro hv
        have hlt := hr.lt_of_covers_tail hv
        exact (this.1 (.inr hv)).resolve_left (by omega)
      · intro hv
        have hlt := hs.lt_of_covers_tail hv
        exact (this.2 (.inr hv)).resolve_left (by omega)

end Separated

/-- A restriction keeps the members that stand in the relation. -/
theorem covers_restrict {rs : List Interval} {relation : Relation} {v w : Int} :
    Covers (rs.flatMap (·.restrict relation v)) w ↔ Covers rs w ∧ relation.Holds w v := by
  simp only [Covers, List.mem_flatMap]
  constructor
  · rintro ⟨s, ⟨r, hr, hs⟩, hw⟩
    have := Interval.contains_restrict.1 ⟨s, hs, hw⟩
    exact ⟨⟨r, hr, this.1⟩, this.2⟩
  · rintro ⟨⟨r, hr, hw⟩, hv⟩
    obtain ⟨s, hs, hw⟩ := Interval.contains_restrict.2 ⟨hw, hv⟩
    exact ⟨s, ⟨r, hr, hs⟩, hw⟩

/-! ### The intervals of a list of values -/

theorem pairwise_le_mergeSort (values : List Int) :
    (values.mergeSort (· ≤ ·)).Pairwise (· ≤ ·) := by
  have hsorted := @List.pairwise_mergeSort Int (fun a b => decide (a ≤ b))
    (fun a b c hab hbc => by simp only [decide_eq_true_iff] at *; omega)
    (fun a b => by simp only [Bool.or_eq_true, decide_eq_true_iff]; omega) values
  exact hsorted.imp fun hle => of_decide_eq_true hle

/-- A list in increasing order is not changed by sorting it. -/
theorem mergeSort_of_pairwise_le {values : List Int} (h : values.Pairwise (· ≤ ·)) :
    values.mergeSort (· ≤ ·) = values :=
  List.mergeSort_of_pairwise (h.imp fun hle => decide_eq_true hle)

/-- The intervals of a sorted list are separated and have its members. -/
theorem rangesOfSorted_spec {vs : List Int} (h : vs.Pairwise (· ≤ ·)) :
    Separated (IntDomain.rangesOfSorted vs) ∧
      ∀ v, Covers (IntDomain.rangesOfSorted vs) v ↔ v ∈ vs := by
  induction vs with
  | nil => simpa [IntDomain.rangesOfSorted] using Separated.nil
  | cons w vs ih =>
    obtain ⟨hle, h⟩ := List.pairwise_cons.1 h
    obtain ⟨hsep, hcov⟩ := ih h
    simp only [IntDomain.rangesOfSorted, List.mem_cons, ← hcov]
    -- the ends of the first interval are values of the list, so that `w` lies before them
    cases hrs : IntDomain.rangesOfSorted vs with
    | nil => simpa using ⟨Separated.cons_iff.2 ⟨le_rfl, by simp, Separated.nil⟩, by omega⟩
    | cons r rs =>
      rw [hrs] at hsep hcov
      obtain ⟨hr, hlt, hsep'⟩ := Separated.cons_iff.1 hsep
      have hw : w ≤ r.lo := hle _ ((hcov _).1 (by simp [hr]))
      dsimp only
      split
      · rename_i heq
        exact ⟨hsep, fun v => by grind [covers_cons]⟩
      · split
        · exact ⟨Separated.cons_iff.2 ⟨by dsimp only; omega, hlt, hsep'⟩,
            fun v => by grind [covers_cons]⟩
        · refine ⟨Separated.cons_iff.2 ⟨le_rfl, fun s hs => ?_, hsep⟩,
            fun v => by grind [covers_cons]⟩
          rcases List.mem_cons.1 hs with rfl | hs
          · dsimp only; omega
          · have := hlt s hs
            dsimp only; omega

end ConstraintSearch
