import ConstraintSearch.Proofs.Branching.Selection
import ConstraintSearch.Proofs.Handle

/-!
# The order of the values of a handle

The values of a handle are listed in the order of the values of the store variable. A negative
factor turns this order round. Then the values are listed in decreasing order, and where there are
two in the middle, the greater one is taken for the median. The selections that split a variable
into all its values, or ask for the one in the middle, follow.

* `IntVar.values_of_computes`, `IntVar.median_of_computes`: what is read if nothing overflows;
* `IntVar.Lists`: the order of the values and the place of the median;
* `IntVar.IsHandle.lists`: how these depend on the sign of the factor;
* `IntVar.exists_decreasing`: the negative of a variable lists its values in decreasing order.
-/

namespace ConstraintSearch.IntVar

variable {x : IntVar} {s : Store} {d : IntDomain} {i : Nat} {a b v : Int}

/-! ### Reading through the view -/

theorem imageOf_of_computes (h : x.Computes v) : x.imageOf v = .ok (x.eval v) := by
  induction x with
  | root i => rfl
  | bool inner ih => exact ih h
  | affine inner scale offset ih =>
    obtain ⟨w, hw, rfl⟩ := (guarded_image scale offset (inner.eval v)).returns h.2
    unfold imageOf
    rw [ih h.1]
    exact hw

theorem mapM_imageOf {vs : List Int} (h : ∀ v ∈ vs, x.Computes v) :
    vs.mapM x.imageOf = .ok (vs.map x.eval) := by
  induction vs with
  | nil => rfl
  | cons v vs ih =>
    obtain ⟨hv, hvs⟩ := List.forall_mem_cons.1 h
    rw [List.mapM_cons, imageOf_of_computes hv, ih hvs]
    rfl

/-- The values are those of the store variable, one after the other. -/
theorem values_of_computes (hs : s.int x.index = .ok d) (h : ∀ v ∈ d.carrier, x.Computes v) :
    x.values s = .ok (d.values.map x.eval) := by
  unfold values
  rw [hs]
  exact mapM_imageOf fun v hv => h v (IntDomain.mem_carrier.2 (IntDomain.mem_values.1 hv))

/-- The median is the value at the middle of this list. -/
theorem median_of_computes (hs : s.int x.index = .ok d) (hd : d.Canonical)
    (h : ∀ v ∈ d.carrier, x.Computes v) :
    ∃ hi : (d.size - 1) / 2 < (d.values.map x.eval).length,
      x.median s = .ok (d.values.map x.eval)[(d.size - 1) / 2] := by
  have hpos := hd.size_pos
  have hi : (d.size - 1) / 2 < d.values.length := by
    rw [d.length_values]
    omega
  refine ⟨by rwa [List.length_map], ?_⟩
  have hnth : d.nth? ((d.size - 1) / 2) = some d.values[(d.size - 1) / 2] :=
    (IntDomain.nthOf?_eq_getElem? d.ranges _).trans (List.getElem?_eq_getElem hi)
  have hmem : d.values[(d.size - 1) / 2] ∈ d := IntDomain.mem_values.1 (List.getElem_mem hi)
  unfold median size nth
  simp only [hs, bind, Except.bind, pure, Except.pure, hnth, List.getElem_map]
  exact imageOf_of_computes (h _ (IntDomain.mem_carrier.2 hmem))

/-! ### The order of the values -/

/-- The list `vs` of the values of `x` and the median `m`, where `S` is the set of the values and
`a` the factor by which they are computed. -/
structure Lists (x : IntVar) (s : Store) (S : Set Int) (a : Int) (vs : List Int) (m : Int) :
    Prop where
  values : x.values s = .ok vs
  mem_iff : ∀ v, v ∈ vs ↔ v ∈ S
  increasing : 0 < a → vs.Pairwise (· < ·)
  decreasing : a < 0 → vs.Pairwise (fun v w => w < v)
  increasing_iff : vs.Pairwise (· < ·) ↔ 0 < a ∨ S.ncard = 1
  median : x.median s = .ok m
  isNth : IsNth S (if 0 < a then (S.ncard - 1) / 2 else S.ncard / 2) m
  isNth_iff : IsNth S ((S.ncard - 1) / 2) m ↔ 0 < a ∨ S.ncard % 2 = 1
  select_all : ValueSelection.all.select s x = .ok (.values vs, .all)
  select_median : ValueSelection.median.select s x = .ok (.equal m, .median)

/-- A list in decreasing order that is not empty is in increasing order only if it has one
member. -/
theorem increasing_iff_of_decreasing {l : List Int} (h : l.Pairwise (fun v w => w < v))
    (hpos : 0 < l.length) : l.Pairwise (· < ·) ↔ l.length = 1 := by
  match l with
  | [v] => exact iff_of_true (List.pairwise_singleton _ v) rfl
  | v :: w :: rest =>
    have hvw : w < v := List.rel_of_pairwise_cons h (List.mem_cons_self ..)
    refine iff_of_false (fun hlt => ?_) (by simp)
    exact lt_asymm hvw (List.rel_of_pairwise_cons hlt (List.mem_cons_self ..))

namespace Transforms

/-- The order of the values of the store variable, as the factor leaves it or turns it round. -/
theorem pairwise_values (hx : x.Transforms i a b) (hd : d.Canonical) :
    (0 < a → (d.values.map x.eval).Pairwise (· < ·)) ∧
      (a < 0 → (d.values.map x.eval).Pairwise (fun v w => w < v)) := by
  simp only [List.pairwise_map, hx.eval]
  refine ⟨fun ha => hd.pairwise_values.imp fun hvw => ?_,
    fun ha => hd.pairwise_values.imp fun hvw => ?_⟩
  · exact Int.add_lt_add_right (mul_lt_mul_of_pos_left hvw ha) b
  · exact Int.add_lt_add_right (mul_lt_mul_of_neg_left hvw ha) b

/-- The position of the value in the middle of the list. -/
theorem isNth_middle (hx : x.Transforms i a b) (hd : d.Canonical)
    (hi : (d.size - 1) / 2 < (d.values.map x.eval).length) :
    IsNth {v | v ∈ d.values.map x.eval} (if 0 < a then (d.size - 1) / 2 else d.size / 2)
      (d.values.map x.eval)[(d.size - 1) / 2] := by
  obtain ⟨hincreasing, hdecreasing⟩ := hx.pairwise_values hd
  by_cases ha : 0 < a
  · rw [if_pos ha]
    exact isNth_getElem (hincreasing ha) hi
  · rw [if_neg ha]
    have hnth := isNth_getElem_of_decreasing
      (hdecreasing (lt_of_le_of_ne (not_lt.1 ha) hx.scale_ne_zero)) hi
    have hpos := hd.size_pos
    have hposition : (d.values.map x.eval).length - 1 - (d.size - 1) / 2 = d.size / 2 := by
      rw [List.length_map, d.length_values]
      omega
    rwa [hposition] at hnth

end Transforms

/-- **The order of the values of a handle.** All of them are listed, in increasing order if and only
if the factor is positive or there is one value only. The median is at the lower middle position if
and only if the factor is positive or the number of values is odd, and at the upper one
otherwise. -/
theorem IsHandle.lists (hx : x.IsHandle i a b) (hs : s.int i = .ok d) (hd : d.Arises)
    (h : ∀ v ∈ d.carrier, x.Computes v) :
    ∃ vs m, x.Lists s ((fun v => a * v + b) '' d.carrier) a vs m := by
  have htransforms := hx.transforms
  obtain rfl := htransforms.index
  have ha := htransforms.scale_ne_zero
  have hc := hd.canonical
  have hpos := hc.size_pos
  have hlength : (d.values.map x.eval).length = d.size := by
    rw [List.length_map, d.length_values]
  have hmem : {v | v ∈ d.values.map x.eval} = (fun v => a * v + b) '' d.carrier := by
    rw [← funext htransforms.eval]
    ext v
    simp only [Set.mem_ofPred_eq, List.mem_map, Set.mem_image, IntDomain.mem_values,
      IntDomain.mem_carrier]
  have hncard : ((fun v => a * v + b) '' d.carrier).ncard = d.size := by
    rw [← funext htransforms.eval, Set.ncard_image_of_injective _
      (htransforms.strict.elim StrictMono.injective StrictAnti.injective), hc.ncard_carrier]
  obtain ⟨hincreasing, hdecreasing⟩ := htransforms.pairwise_values hc
  obtain ⟨hi, hmedian⟩ := median_of_computes hs hc h
  have hvalues := values_of_computes hs h
  have hnth := htransforms.isNth_middle hc hi
  rw [hmem] at hnth
  refine ⟨_, _, hvalues, fun v => iff_of_eq (congrArg (v ∈ ·) hmem), hincreasing, hdecreasing, ?_,
    hmedian, by rwa [hncard], ?_, ?_, ?_⟩
  · rw [hncard, ← hlength]
    rcases lt_or_gt_of_ne ha with ha | ha
    · rw [increasing_iff_of_decreasing (hdecreasing ha) (by omega)]
      exact ⟨.inr, fun h => h.resolve_left (by omega)⟩
    · exact iff_of_true (hincreasing ha) (.inl ha)
  · rw [hncard, hnth.iff_eq]
    split
    · exact iff_of_true rfl (.inl ‹_›)
    · omega
  · simp only [ValueSelection.select, hvalues]
    rfl
  · simp only [ValueSelection.select, hmedian]
    rfl

/-- What is listed of `-2 * x + 3` where `x` is 1, 2 or 4. -/
theorem IsHandle.lists_negative :
    ∃ (x : IntVar) (s : Store) (d : IntDomain), x.IsHandle 0 (-2) 3 ∧ s.int 0 = .ok d ∧ d.Arises ∧
      (∀ v ∈ d.carrier, x.Computes v) ∧
      x.Lists s ((fun v => -2 * v + 3) '' d.carrier) (-2) [1, -1, -5] (-1) := by
  let d : IntDomain := ⟨[⟨1, 2⟩, ⟨4, 4⟩], by decide⟩
  let s : Store := { ints := ⟨#[d]⟩, sets := ∅, floats := ∅ }
  let x : IntVar := affine (root 0) (-2) 3
  have hscaled : (affine (root 0) (-2) 0).IsHandle 0 (-2) 0 :=
    .scaled (k := -2) (.plain 0) (by decide) rfl
  have hx : x.IsHandle 0 (-2) 3 := .plus (k := 3) hscaled rfl
  have hd : d.Arises := by
    refine .ofValues (by decide : ∀ v ∈ [1, 2, 4], Word.Fits v) ?_
    rw [IntDomain.ofValues?_of_pairwise (by decide)]
    rfl
  have hs : s.int 0 = .ok d := rfl
  have hcomputes : ∀ v ∈ d.carrier, x.Computes v := by
    intro v hv
    exact (by decide : ∀ v ∈ d.values, x.Computes v) v
      (IntDomain.mem_values.2 (IntDomain.mem_carrier.1 hv))
  obtain ⟨vs, m, hlists⟩ := hx.lists hs hd hcomputes
  have hvalues : x.values s = .ok [1, -1, -5] := rfl
  have hmedian : x.median s = .ok (-1) := by
    dsimp only [x, s, d]
    rfl
  obtain rfl := Except.ok.inj (hvalues.symm.trans hlists.values)
  obtain rfl := Except.ok.inj (hmedian.symm.trans hlists.median)
  exact ⟨x, s, d, hx, hs, hd, hcomputes, hlists⟩

/-- The negative of a variable with the values 0 and 1 lists 0 before -1, and has the greater of its
two values for the median. -/
theorem exists_decreasing :
    ∃ (x : IntVar) (s : Store) (d : IntDomain),
      x.IsHandle 0 (-1) 0 ∧ s.int 0 = .ok d ∧ d.Arises ∧ (∀ v ∈ d.carrier, x.Computes v) ∧
      x.values s = .ok [0, -1] ∧ ¬[(0 : Int), -1].Pairwise (· < ·) ∧
      ValueSelection.all.select s x = .ok (.values [0, -1], .all) ∧
      x.median s = .ok 0 ∧
      ¬IsNth ((fun v => -1 * v + 0) '' d.carrier)
        ((((fun v => -1 * v + 0) '' d.carrier).ncard - 1) / 2) 0 ∧
      ValueSelection.median.select s x = .ok (.equal 0, .median) := by
  let d : IntDomain := ⟨[⟨0, 1⟩], by decide⟩
  let s : Store := { ints := ⟨#[d]⟩, sets := ∅, floats := ∅ }
  let x : IntVar := affine (root 0) (-1) 0
  have hx : x.IsHandle 0 (-1) 0 := .scaled (k := -1) (.plain 0) (by decide) rfl
  have hd : d.Arises := .ofInterval (by decide : Word.Fits 0) (by decide : Word.Fits 1) rfl
  have hs : s.int 0 = .ok d := rfl
  have hcomputes : ∀ v ∈ d.carrier, x.Computes v := by
    intro v hv
    exact (by decide : ∀ v ∈ d.values, x.Computes v) v
      (IntDomain.mem_values.2 (IntDomain.mem_carrier.1 hv))
  have himage : (fun v => -1 * v + 0) '' d.carrier = {0, -1} := by
    rw [IntDomain.carrier_eq_toFinset, show d.values.toFinset = {0, 1} from rfl,
      Finset.coe_pair, Set.image_pair]
    rfl
  have hsmaller : {w ∈ ({0, -1} : Set Int) | w < 0} = {-1} := by
    ext w
    simp only [Set.mem_ofPred_eq, Set.mem_insert_iff, Set.mem_singleton_iff]
    omega
  have hnth : IsNth {0, -1} 1 0 := ⟨.inl rfl, by rw [hsmaller, Set.ncard_singleton]⟩
  have hmedian : x.median s = .ok 0 := by
    dsimp only [x, s, d]
    rfl
  refine ⟨x, s, d, hx, hs, hd, hcomputes, rfl, by decide, rfl, hmedian, ?_, ?_⟩
  · rw [himage, Set.ncard_pair (by decide), hnth.iff_eq]
    decide
  · simp only [ValueSelection.select, hmedian]
    rfl

end ConstraintSearch.IntVar
