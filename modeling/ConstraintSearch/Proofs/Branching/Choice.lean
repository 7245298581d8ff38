import Mathlib.Tactic.IntervalCases
import ConstraintSearch.Branching.Choice
import ConstraintSearch.Proofs.Assignments

/-!
# The alternatives of a choice

The alternatives of a decision are conditions on boxes, and so on assignments. A decision splits a
store properly if every assignment satisfies exactly one of them, and each is satisfied by some; so
each alternative leaves less than there was before.

* `Split.Admits`, `Decision.Admits`, `Decision.Covers`: the conditions;
* `Split.Divides`: a split divides the values of a variable properly; `divides_equal`,
  `divides_atMost`, `divides_atLeast` and `divides_values` say when it does;
* `Decision.Splits`: a decision splits a store properly;
* `yields_describe`: an alternative can be described.
-/

namespace ConstraintSearch

/-! ### Splits of the values of a variable -/

/-- The alternative keeps the value `v`. -/
def Split.Admits (v : Int) : Split → Nat → Prop
  | equal w, 0 => v = w
  | equal w, _ + 1 => v ≠ w
  | atMost w, 0 => v ≤ w
  | atMost w, _ + 1 => w < v
  | atLeast w, 0 => w ≤ v
  | atLeast w, _ + 1 => v < w
  | values vs, alternative => vs[alternative]? = some v

/-- The bound in the second alternative is a word. -/
def Split.Expressible : Split → Prop
  | atMost v => Word.Fits (v + 1)
  | atLeast v => Word.Fits (v - 1)
  | equal _ | values _ => True

/-- There are two alternatives at least, each value is kept by exactly one of them, and each of them
keeps a value. -/
structure Split.Divides (P : Int → Prop) (split : Split) : Prop where
  two_le : 2 ≤ split.alternatives
  le_count : split.alternatives ≤ Word.count 32
  exists_admits : ∀ v, P v → ∃ i < split.alternatives, split.Admits v i
  unique : ∀ v i j, i < split.alternatives → j < split.alternatives → split.Admits v i →
    split.Admits v j → i = j
  exists_value : ∀ i < split.alternatives, ∃ v, P v ∧ split.Admits v i

namespace Split

variable {P : Int → Prop} {u v w : Int}

/-- What has to be shown of a split into two. -/
theorem divides_of_two {split : Split} (htwo : split.alternatives = 2)
    (hcompl : ∀ v, split.Admits v 1 ↔ ¬split.Admits v 0) (hu : P u) (hw : P w)
    (hu' : split.Admits u 0) (hw' : ¬split.Admits w 0) : split.Divides P where
  two_le := htwo.ge
  le_count := by
    rw [htwo]
    decide
  exists_admits v _ := by
    rw [htwo]
    by_cases hv : split.Admits v 0
    · exact ⟨0, by decide, hv⟩
    · exact ⟨1, by decide, (hcompl v).2 hv⟩
  unique v i j hi hj hvi hvj := by
    rw [htwo] at hi hj
    have hiff := hcompl v
    interval_cases i <;> interval_cases j
    · rfl
    · exact absurd hvi (hiff.1 hvj)
    · exact absurd hvj (hiff.1 hvi)
    · rfl
  exists_value i hi := by
    rw [htwo] at hi
    interval_cases i
    · exact ⟨u, hu, hu'⟩
    · exact ⟨w, hw, (hcompl w).2 hw'⟩

theorem divides_equal (hv : P v) (hw : P w) (hne : w ≠ v) : (equal v).Divides P :=
  divides_of_two rfl (fun _ => Iff.rfl) hv hw rfl hne

theorem divides_atMost (hu : P u) (hw : P w) (huv : u ≤ v) (hvw : v < w) :
    (atMost v).Divides P :=
  divides_of_two rfl (fun _ => not_le.symm) hu hw huv (not_le.2 hvw)

theorem divides_atLeast (hu : P u) (hw : P w) (huv : u < v) (hvw : v ≤ w) :
    (atLeast v).Divides P :=
  divides_of_two rfl (fun _ => not_le.symm) hw hu hvw (not_le.2 huv)

theorem divides_values {vs : List Int} (hnodup : vs.Nodup) (hmem : ∀ v, P v ↔ v ∈ vs)
    (hlength : vs.length ≤ Word.count 32) (hu : P u) (hw : P w) (hne : u ≠ w) :
    (values vs).Divides P where
  two_le := by
    have hsub : [u, w] ⊆ vs := by
      simp only [List.cons_subset, List.nil_subset, and_true]
      exact ⟨(hmem u).1 hu, (hmem w).1 hw⟩
    exact (List.subperm_of_subset (by simpa using hne) hsub).length_le
  le_count := hlength
  exists_admits v hv := by
    obtain ⟨i, hi, heq⟩ := List.getElem_of_mem ((hmem v).1 hv)
    exact ⟨i, hi, List.getElem?_eq_some_iff.2 ⟨hi, heq⟩⟩
  unique v i j hi hj hvi hvj := by
    have heq : vs[i]? = vs[j]? := Eq.trans hvi (Eq.symm hvj)
    exact (List.getElem?_inj hi hnodup).1 heq
  exists_value i hi := by
    have hget : vs[i]? = some vs[i] := List.getElem?_eq_getElem hi
    exact ⟨vs[i], (hmem _).2 (List.mem_of_getElem? hget), hget⟩

end Split

/-! ### Decisions -/

/-- The alternative keeps the assignment. A decision about a float variable says nothing of
assignments. -/
def Decision.Admits (a : Assignment) : Decision → Nat → Prop
  | int _ x split _, alternative => split.Admits (a.value x) alternative
  | set i v, 0 => v ∈ a.sets i
  | set i v, _ + 1 => v ∉ a.sets i
  | float _ _, _ => False

/-- The alternative keeps all values that the box leaves. -/
def Decision.Covers (F : Box) : Decision → Nat → Prop
  | int _ x split _, alternative => ∀ u ∈ F.ints x.index, split.Admits (x.eval u) alternative
  | set i v, 0 => v ∈ (F.sets i).required
  | set i v, _ + 1 => v ∉ (F.sets i).possible
  | float _ _, _ => False

theorem Decision.covers_box {d : Decision} {a : Assignment} {i : Nat} :
    d.Covers a.box i ↔ d.Admits a i := by
  cases d with
  | int position x split b =>
    exact ⟨fun h => h _ (IntDomain.mem_singleton.2 rfl), fun h u hu =>
      (IntDomain.mem_singleton.1 hu).symm ▸ h⟩
  | set j v => cases i <;> exact Iff.rfl
  | float j v => exact Iff.rfl

/-- Each alternative can be written down as a literal. -/
def Decision.Expressible : Decision → Prop
  | int _ _ split breaksSymmetries => breaksSymmetries = false ∧ split.Expressible
  | set _ _ => True
  | float _ _ => False

/-- The number of alternatives. -/
def Decision.alternatives : Decision → Nat
  | int _ _ split _ => split.alternatives
  | set _ _ | float _ _ => 2

theorem Choice.alternatives_eq (c : Choice) : c.alternatives = c.decision.alternatives := by
  unfold Choice.alternatives
  cases c.decision <;> rfl

/-- There are two alternatives at least, each assignment of the store is kept by exactly one of
them, and each of them keeps an assignment. -/
structure Decision.Splits (s : Store) (d : Decision) : Prop where
  two_le : 2 ≤ d.alternatives
  le_count : d.alternatives ≤ Word.count 32
  exists_admits : ∀ a : Assignment, a.Within s → ∃ i < d.alternatives, d.Admits a i
  unique : ∀ (a : Assignment) i j, i < d.alternatives → j < d.alternatives → d.Admits a i →
    d.Admits a j → i = j
  exists_assignment : ∀ i < d.alternatives, ∃ a : Assignment, a.Within s ∧ d.Admits a i

variable {s : Store} {δ : Prop}

/-- No alternative keeps all assignments. -/
theorem Decision.Splits.exists_not_admits {d : Decision} (h : d.Splits s) (i : Nat)
    (hi : i < d.alternatives) : ∃ a : Assignment, a.Within s ∧ ¬d.Admits a i := by
  have htwo := h.two_le
  obtain ⟨j, hj, hne⟩ : ∃ j < d.alternatives, j ≠ i := by
    rcases Nat.eq_zero_or_pos i with rfl | hpos
    · exact ⟨1, by omega, by omega⟩
    · exact ⟨0, by omega, by omega⟩
  obtain ⟨a, ha, hadmits⟩ := h.exists_assignment j hj
  exact ⟨a, ha, fun hi' => hne (h.unique a j i hj hi hadmits hi')⟩

/-- A split that divides the values of a variable splits the store. -/
theorem Split.Divides.splits {x : IntVar} {split : Split} (hs : s.Sound)
    (h : split.Divides fun v => ∃ u ∈ s.box.ints x.index, x.eval u = v) (position : Nat)
    (b : Bool) :
    (Decision.int position x split b).Splits s where
  two_le := h.two_le
  le_count := h.le_count
  exists_admits a ha := h.exists_admits _ ⟨a.ints x.index, ha.ints _, rfl⟩
  unique a i j := h.unique (a.value x) i j
  exists_assignment i hi := by
    obtain ⟨v, ⟨u, hu, rfl⟩, hv⟩ := h.exists_value i hi
    obtain ⟨a, ha, rfl⟩ := Store.exists_assignment_int hs hu
    exact ⟨a, ha, hv⟩

/-- An open element of a set splits the store. -/
theorem Decision.splits_set (hs : s.Sound) {i : Nat} {v : Int}
    (hv : v ∈ (s.box.sets i).possible) (hv' : v ∉ (s.box.sets i).required) :
    (Decision.set i v).Splits s where
  two_le := Nat.le_refl 2
  le_count := show 2 ≤ Word.count 32 by decide
  exists_admits a _ := by
    by_cases h : v ∈ a.sets i
    · exact ⟨0, Nat.zero_lt_two, h⟩
    · exact ⟨1, Nat.one_lt_two, h⟩
  unique a j k hj hk haj hak := by
    change j < 2 at hj
    change k < 2 at hk
    interval_cases j <;> interval_cases k
    · rfl
    · exact absurd haj hak
    · exact absurd hak haj
    · rfl
  exists_assignment j hj := by
    change j < 2 at hj
    obtain ⟨l, hl, hlv⟩ := (hs.box.normal i).exists_mem_iff hv hv' (decide (j = 0))
    obtain ⟨a, ha, rfl⟩ := Store.exists_assignment_set hs hl
    refine ⟨a, ha, ?_⟩
    interval_cases j
    · exact hlv.2 rfl
    · intro h
      exact absurd (hlv.1 h) (by decide)

/-! ### Descriptions -/

theorem IntVar.yields_text (x : IntVar) : Yields δ x.text fun _ => True := by
  induction x with
  | root i => exact trivial
  | affine inner scale offset ih =>
    refine ih.bind fun text _ => ?_
    unfold viewText
    dsimp only
    split
    · exact (Word.yields_checked _ _).bind fun _ _ => trivial
    split
    · exact trivial
    · exact trivial
  | bool inner ih => exact ih.bind fun _ _ => trivial

theorem Choice.yields_describe (c : Choice) {alternative : Nat}
    (h : alternative < c.alternatives) : Yields δ (c.describe alternative) fun _ => True := by
  obtain ⟨brancher, decision⟩ := c
  cases decision with
  | int position x split b =>
    refine (IntVar.yields_text x).bind fun text _ => ?_
    cases split with
    | values vs =>
      have hlt : alternative < (Table.mk vs.toArray).size := h
      exact (Table.yields_fetch hlt).bind fun _ _ => trivial
    | equal v => cases alternative <;> exact trivial
    | atMost v => cases alternative <;> exact trivial
    | atLeast v => cases alternative <;> exact trivial
  | set i v => exact trivial
  | float i v => exact trivial

end ConstraintSearch
