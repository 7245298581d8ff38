import ConstraintSearch.Proofs.Propagator.Linear

/-!
# The law of distinct values

Each pass takes one fixed variable that is not marked, removes its value from the others, and marks
it. When no such variable is left, the fixed variables are settled for good, and what remains of
the constraint is that the open variables take distinct values.

* `AllDifferent.process_law`: the passes come to an end, with every fixed variable marked;
* `AllDifferent.run_law`: with no open variable the constraint holds, with two it is a disequation.
-/

namespace ConstraintSearch

open Propagation

variable {δ : Prop} {s : State} {vars : List (IntVar × Bool)}

/-- The first open variables, up to a number. -/
theorem yields_firstOpen {s : Store} (hs : s.Sound) {xs : List IntVar}
    (h : ∀ x ∈ xs, x.index < s.ints.size) (count : Nat) :
    Yields δ (firstOpen s xs count) fun r => r = (xs.filter (IntVar.isOpen s.box)).take count := by
  induction xs generalizing count with
  | nil => exact (List.take_nil).symm
  | cons x xs ih =>
    have ih := ih fun y hy => h y (by simp [hy])
    cases count with
    | zero => exact List.take_zero.symm
    | succ count =>
      unfold firstOpen
      refine (IntVar.yields_isFixed hs (h x (by simp))).bind ?_
      rintro fixed ⟨rfl, -⟩
      rw [List.filter_cons]
      unfold IntVar.isOpen
      cases hx : x.fixedAt s.box with
      | some v => exact ih (count + 1)
      | none =>
        refine (ih count).bind ?_
        rintro r rfl
        rfl

namespace AllDifferent

/-- A pair of variables of a box in which all pairs exclude each other. -/
theorem excludes_of_pairwise {F : Box} {xs : List IntVar}
    (h : xs.Pairwise fun x y => x.Excludes y 0 F ∧ y.Excludes x 0 F) {i j : Nat} {x y : IntVar}
    (hij : i ≠ j) (hx : xs[i]? = some x) (hy : xs[j]? = some y) : x.Excludes y 0 F := by
  obtain ⟨hi, rfl⟩ := List.getElem?_eq_some_iff.1 hx
  obtain ⟨hj, rfl⟩ := List.getElem?_eq_some_iff.1 hy
  rw [List.pairwise_iff_getElem] at h
  rcases Nat.lt_or_gt_of_ne hij with hlt | hlt
  · exact (h i j hi hj hlt).1
  · exact (h j i hj hi hlt).2

/-- What looking for a fixed variable without a mark finds. -/
theorem yields_firstFixed? {s : Store} (hs : s.Sound) (h : ∀ x ∈ vars, x.1.index < s.ints.size)
    (position : Nat) : Yields δ (firstFixed? s vars position) fun
      | none => ∀ x ∈ vars, x.2 = false → x.1.Readable s ∧ x.1.fixedAt s.box = none
      | some (found, v) => ∃ i x, found = position + i ∧ vars[i]? = some (x, false) ∧
          x.Readable s ∧ x.fixedAt s.box = some v := by
  induction vars generalizing position with
  | nil => exact fun x hx => by cases hx
  | cons z vars ih =>
    obtain ⟨x, mark⟩ := z
    have ih := ih (fun y hy => h y (by simp [hy])) (position + 1)
    have shift : ∀ r : Option (Nat × Int), (match r with
        | none => ∀ y ∈ vars, y.2 = false → y.1.Readable s ∧ y.1.fixedAt s.box = none
        | some (found, v) => ∃ i y, found = position + 1 + i ∧ vars[i]? = some (y, false) ∧
            y.Readable s ∧ y.fixedAt s.box = some v) →
        (mark = false → x.Readable s ∧ x.fixedAt s.box = none) → (match r with
        | none => ∀ y ∈ (x, mark) :: vars, y.2 = false →
            y.1.Readable s ∧ y.1.fixedAt s.box = none
        | some (found, v) => ∃ i y, found = position + i ∧
            ((x, mark) :: vars)[i]? = some (y, false) ∧ y.Readable s ∧
            y.fixedAt s.box = some v) := by
      intro r hr hx
      cases r with
      | none => exact List.forall_mem_cons.2 ⟨hx, hr⟩
      | some r =>
        obtain ⟨i, y, hfound, hy, hrest⟩ := hr
        exact ⟨i + 1, y, by omega, hy, hrest⟩
    cases mark with
    | true => exact ih.mono fun r hr => shift r hr (by simp)
    | false =>
      unfold firstFixed?
      refine (IntVar.yields_value? hs (h (x, false) (by simp))).bind ?_
      rintro o ⟨rfl, hread⟩
      cases hx : x.fixedAt s.box with
      | some v => exact ⟨0, x, rfl, rfl, hread, hx⟩
      | none => exact ih.mono fun r hr => shift r hr fun _ => ⟨hread, hx⟩

/-- A value is removed from the variables at the other positions. -/
theorem removeAll_law {C : Box → Prop} (hs : s.Ready) {position : Nat} {v : Int}
    {xs : List ((IntVar × Bool) × Nat)} (hxs : ∀ z ∈ xs, z.1.1.Admissible δ s.store)
    (hC : ∀ F : Box, F.Sound → C F → F.Within s.store → ∀ z ∈ xs, z.2 ≠ position →
      z.1.1.Restricted .notEqual v F) :
    Law δ C (xs.forM fun ((x, _), i) => do
        if i ≠ position then discard <| Propagation.remove x v) s fun _ s' =>
      ∀ z ∈ xs, z.2 ≠ position → z.1.1.Restricted .notEqual v s'.store.box := by
  induction xs generalizing s with
  | nil => exact Law.pure (by simp)
  | cons z xs ih =>
    obtain ⟨⟨x, mark⟩, i⟩ := z
    have hx := hxs ((x, mark), i) (by simp)
    show Law δ C ((if i ≠ position then discard (Propagation.remove x v) else Pure.pure ()) >>=
      fun _ => xs.forM _) s _
    refine Law.bind (P := fun _ s' => i ≠ position →
      x.Restricted .notEqual v s'.store.box) ?_ ?_
    · split
      · rename_i hi
        refine (Law.restrict hs hx.exists_var hx.proper fun F hF hCF hle => ?_).bind ?_
        · exact hC F hF hCF hle ((x, mark), i) (by simp) hi
        · rintro event s₁ - ⟨hnarrowed, -, -⟩
          exact Law.pure fun _ => hnarrowed.holds
      · rename_i hi
        exact Law.pure fun hne => absurd hne hi
    · intro _ s₁ hstep₁ h
      have hs₁ := hstep₁.advances.ready hs
      refine (ih hs₁ (fun z hz => ?_) fun F hF hCF hle z hz => ?_).mono ?_
      · exact (hxs z (by simp [hz])).of_size_le hstep₁.advances.store.size_ints.ge
      · exact hC F hF hCF (hstep₁.advances.store.within_of_within hle) z (by simp [hz])
      · intro _ s₂ hstep₂ hrest
        refine List.forall_mem_cons.2 ⟨fun hne u hu => ?_, hrest⟩
        have hsize := hstep₁.advances.store.size_ints
        exact h hne u (hstep₂.advances.store.within.ints _ (hsize ▸ hx.exists_var) u hu)

/-- The number of variables without a mark. -/
def unmarked (vars : List (IntVar × Bool)) : Nat := vars.countP fun x => !x.2

theorem unmarked_modify {i : Nat} {x : IntVar} (h : vars[i]? = some (x, false)) :
    unmarked (vars.modify i fun y => (y.1, true)) + 1 = unmarked vars := by
  unfold unmarked
  induction vars generalizing i with
  | nil => cases h
  | cons y vars ih =>
    cases i with
    | zero =>
      cases h
      simp
    | succ i =>
      have := ih (i := i) (by simpa using h)
      simp only [List.modify_succ_cons, List.countP_cons]
      omega

theorem map_modify (vars : List (IntVar × Bool)) (i : Nat) :
    (vars.modify i fun y => (y.1, true)).map (·.1) = vars.map (·.1) := by
  induction vars generalizing i with
  | nil => simp
  | cons y vars ih =>
    cases i with
    | zero => simp
    | succ i => simp [ih]

/-- A variable after a mark was made. -/
theorem getElem?_of_mark {i j : Nat} {z : IntVar × Bool}
    (h : (vars.modify i fun y => (y.1, true))[j]? = some z) :
    ∃ b, vars[j]? = some (z.1, b) ∧ (i = j ∨ z.2 = b) := by
  rw [List.getElem?_modify] at h
  obtain ⟨⟨y, b⟩, hy, rfl⟩ := Option.map_eq_some_iff.1 h
  by_cases hij : i = j
  · exact ⟨b, by rw [hy, if_pos hij], .inl hij⟩
  · exact ⟨b, by rw [hy, if_neg hij], .inr (by rw [if_neg hij])⟩

/-- The mark of a variable tells the truth once its value is removed from the others. -/
theorem coherent_mark {s : Store} (h : Propagator.Coherent vars s) {i : Nat} {x : IntVar} {v : Int}
    (hx : vars[i]? = some (x, false)) (hread : x.Readable s) (hv : x.fixedAt s.box = some v)
    (hremoved : ∀ (j : Nat) (y : IntVar × Bool), j ≠ i → vars[j]? = some y →
      ∀ u ∈ s.box.ints y.1.index, y.1.eval u ≠ v) :
    Propagator.Coherent (vars.modify i fun y => (y.1, true)) s := by
  intro j y hj
  obtain ⟨b, hyj, hb⟩ := getElem?_of_mark hj
  by_cases hij : i = j
  · subst hij
    rw [hx] at hyj
    cases hyj
    refine ⟨hread, v, hv, fun k z hk hz => ?_⟩
    obtain ⟨b', hzk, -⟩ := getElem?_of_mark hz
    exact hremoved k (z.1, b') hk hzk
  · obtain rfl : true = b := hb.resolve_left hij
    obtain ⟨hready, w, hw, hothers⟩ := h j y hyj
    refine ⟨hready, w, hw, fun k z hk hz => ?_⟩
    obtain ⟨b', hzk, -⟩ := getElem?_of_mark hz
    exact hothers k (z.1, b') hk hzk

theorem process_law {steps : Nat} (hs : s.Ready)
    (hw : (Propagator.allDifferent vars).WellFormed δ s.store) (hsteps : unmarked vars < steps) :
    Law δ (Propagator.allDifferent vars).Stable (process steps vars) s fun vars' s' =>
      vars'.map (·.1) = vars.map (·.1) ∧
        (Propagator.allDifferent vars').WellFormed δ s'.store ∧
        ∀ x ∈ vars', x.2 = false → x.1.Readable s'.store ∧ x.1.fixedAt s'.store.box = none := by
  induction steps generalizing vars s with
  | zero => omega
  | succ steps ih =>
    obtain ⟨hadmissible, hcoherent⟩ := hw
    have hindex : ∀ x ∈ vars, x.1.index < s.store.ints.size := fun x hx =>
      (hadmissible x hx).exists_var
    unfold process
    refine (Law.reading (yields_firstFixed? hs.sound hindex 0)).bind ?_
    rintro found s₁ - ⟨rfl, hfound⟩
    cases found with
    | none => exact Law.pure ⟨rfl, ⟨hadmissible, hcoherent⟩, hfound⟩
    | some r =>
      obtain ⟨found, v⟩ := r
      obtain ⟨i, x, rfl, hx, hread, hv⟩ := hfound
      rw [Nat.zero_add]
      have hxmem := List.mem_of_getElem? hx
      have hgetElem {z : (IntVar × Bool) × Nat} (hz : z ∈ vars.zipIdx) :
          vars[z.2]? = some z.1 := by
        simpa using List.mem_zipIdx_iff_getElem?.1 hz
      refine (removeAll_law (v := v) hs (fun z hz => ?_) fun F hF hC hle z hz hne => ?_).bind ?_
      · exact hadmissible z.1 (List.mem_of_getElem? (hgetElem hz))
      · have hvF := IntVar.fixedAt_of_le (hF.canonical _) (hs.sound.box.canonical _)
          (hle.ints _ (hindex _ hxmem)) hv
        have hexcludes := excludes_of_pairwise hC (Ne.symm hne)
          (by rw [List.getElem?_map, hx]; rfl) (by rw [List.getElem?_map, hgetElem hz]; rfl)
        intro u hu
        simpa [Relation.Holds] using hexcludes v hvF u hu
      · intro _ s₂ hstep hremoved
        have hs₂ := hstep.advances.ready hs
        have hn := hstep.advances.store
        have hcoherent₂ := hcoherent.of_evolves hs.sound hs₂.sound hn.evolves hindex
        have hmap := map_modify vars i
        have hmem {y : IntVar × Bool} (hy : y ∈ vars.modify i fun y => (y.1, true)) :
            ∃ z ∈ vars, z.1 = y.1 := by
          have : y.1 ∈ (vars.modify i fun y => (y.1, true)).map (·.1) :=
            List.mem_map_of_mem hy
          rw [hmap] at this
          exact List.mem_map.1 this
        have hw₂ : (Propagator.allDifferent (vars.modify i fun y => (y.1, true))).WellFormed δ
            s₂.store := by
          refine ⟨fun y hy => ?_, coherent_mark (v := v) hcoherent₂ hx ?_ ?_ ?_⟩
          · obtain ⟨z, hz, heq⟩ := hmem hy
            rw [← heq]
            exact (hadmissible z hz).of_size_le hn.size_ints.ge
          · exact hread.of_evolves hs.sound hs₂.sound hn.evolves (hindex _ hxmem)
          · exact IntVar.fixedAt_of_le (hs₂.sound.box.canonical _) (hs.sound.box.canonical _)
              (hn.within.ints _ (hindex _ hxmem)) hv
          · intro k z hk hz
            exact hremoved (z, k) (List.mem_zipIdx_iff_getElem?.2 hz) hk
        rw [← Propagator.stable_allDifferent_congr hmap]
        refine (ih hs₂ hw₂ (by have := unmarked_modify hx; omega)).mono ?_
        rintro vars' s' - ⟨hmap', hrest⟩
        exact ⟨hmap'.trans hmap, hrest⟩

theorem unmarked_le (vars : List (IntVar × Bool)) : unmarked vars ≤ vars.length :=
  List.countP_le_length

/-- A list whose first elements are few is not longer. -/
theorem eq_of_take_eq {α : Type} {xs ys : List α} {n : Nat} (h : xs.take n = ys)
    (hlt : ys.length < n) : xs = ys := by
  rw [← h]
  refine (List.take_of_length_le ?_).symm
  have := congrArg List.length h
  rw [List.length_take] at this
  omega

/-- The law of a run, by its verdict. -/
theorem run_law (hs : s.Ready) (hw : (Propagator.allDifferent vars).WellFormed δ s.store) :
    Law δ (Propagator.allDifferent vars).Stable (run vars) s fun r s' =>
      ∃ vars', r.1 = .allDifferent vars' ∧ vars'.map (·.1) = vars.map (·.1) ∧
        (Propagator.allDifferent vars').WellFormed δ s'.store ∧
        match r.2 with
        | .fix => (Propagator.allDifferent vars').Rests s'.store
        | .subsumed => ∀ F : Box, F.Sound → F.Within s'.store →
            (Propagator.allDifferent vars).Stable F
        | .replace q => ∃ a b, q = .notEquals a b 0 ∧ q.WellFormed δ s'.store ∧
            ∀ F : Box, F.Sound → F.Within s'.store →
              ((Propagator.allDifferent vars).Stable F ↔ q.Stable F)
        | .noFix => False := by
  unfold run
  refine (process_law hs hw (Nat.lt_succ_of_le (unmarked_le vars))).bind ?_
  rintro vars' s' hstep ⟨hmap, hw', hopen⟩
  have hs' := hstep.advances.ready hs
  have hmarked : ∀ x ∈ vars', x.1.isOpen s'.store.box = false → x.2 = true := by
    intro x hx hfixed
    by_contra hmark
    rw [IntVar.isOpen, (hopen x hx (by simpa using hmark)).2] at hfixed
    cases hfixed
  have hindex : ∀ x ∈ vars', x.1.index < s'.store.ints.size := fun x hx =>
    (hw'.1 x hx).exists_var
  have hstable {F : Box} (hF : F.Sound) (hle : F.Within s'.store) :
      (Propagator.allDifferent vars).Stable F ↔
        ((vars'.map (·.1)).filter (IntVar.isOpen s'.store.box)).Pairwise
          fun x y => x.Excludes y 0 F ∧ y.Excludes x 0 F := by
    rw [Propagator.stable_allDifferent, ← hmap]
    exact Propagator.pairwise_excludes_iff hw'.2 hs'.sound hF hmarked fun x hx =>
      hle.ints _ (hindex x hx)
  have hrests (hcount : (vars'.map (·.1)).countP (IntVar.isOpen s'.store.box) = 1 ∨
      3 ≤ (vars'.map (·.1)).countP (IntVar.isOpen s'.store.box)) :
      (Propagator.allDifferent vars').Rests s'.store := by
    refine ⟨fun x hx => ?_, fun x hx hmark => (hopen x hx hmark).2, hcount⟩
    cases hmark : x.2 with
    | false => exact (hopen x hx hmark).1
    | true =>
      obtain ⟨i, hi⟩ := List.getElem?_of_mem hx
      exact (hw'.2 i x.1 (by rw [hi, ← hmark])).1
  have hindex' : ∀ x ∈ vars'.map (·.1), x.index < s'.store.ints.size :=
    List.forall_mem_map.2 hindex
  refine (Law.reading (yields_firstOpen hs'.sound hindex' 3)).bind ?_
  rintro first s'' - ⟨rfl, hfirst⟩
  rcases first with _ | ⟨a, _ | ⟨b, _ | ⟨c, rest⟩⟩⟩
  · have hnone := eq_of_take_eq hfirst.symm (by simp)
    refine Law.pure ⟨vars', rfl, hmap, hw', fun F hF hle => ?_⟩
    rw [hstable hF hle, hnone]
    exact List.Pairwise.nil
  · have hone := eq_of_take_eq hfirst.symm (by simp)
    refine Law.pure ⟨vars', rfl, hmap, hw', hrests (.inl ?_)⟩
    rw [List.countP_eq_length_filter, hone]
    rfl
  · have htwo := eq_of_take_eq hfirst.symm (by simp)
    refine Law.pure ⟨vars', rfl, hmap, hw', a, b, rfl, ?_, fun F hF hle => ?_⟩
    · have hadmissible {x : IntVar} (hx : x ∈ [a, b]) : x.Admissible δ s''.store := by
        rw [← htwo] at hx
        obtain ⟨y, hy, rfl⟩ := List.mem_map.1 (List.mem_filter.1 hx).1
        exact hw'.1 y hy
      exact ⟨hadmissible (by simp), hadmissible (by simp)⟩
    · rw [hstable hF hle, htwo]
      simp [Propagator.Stable]
  · refine Law.pure ⟨vars', rfl, hmap, hw', hrests (.inr ?_)⟩
    have hlength := congrArg List.length hfirst
    rw [List.length_take] at hlength
    rw [List.countP_eq_length_filter]
    have : 3 ≤ (a :: b :: c :: rest).length := by simp
    omega

end AllDifferent

end ConstraintSearch
