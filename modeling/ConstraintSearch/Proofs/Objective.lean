import ConstraintSearch.Proofs.Permanence
import ConstraintSearch.Proofs.Restriction

/-!
# Asking for a better solution

A space with an objective is constrained by a solution: of the values of the objective it keeps
those that are better than the value in the solution, and it fails if there are none. No other
domain is changed.

The bound is the neighbour of the value in the solution, and it is computed by 32-bit arithmetic.
The least of all values has no neighbour below it and the greatest none above it, so where a
solution cannot be improved because its value is at the end of the range, there is a fault instead
of a failure.

* `Objective.Improved`, `Objective.ideal`: better values, and the value that has none;
* `Space.CutTo`: the space keeps the values of a variable with a property;
* `Space.Reachable.constrain_cuts`: what `Space.constrain` does, over the whole range of values.
-/

namespace ConstraintSearch

namespace Objective

/-- The value `w` is better than `v`. -/
def Improved (v w : Int) : Objective → Prop
  | minimise _ => w < v
  | maximise _ => v < w

/-- The value that is better than all others. -/
def ideal : Objective → Int
  | minimise _ => Word.least
  | maximise _ => Word.greatest

/-- No 32-bit value is better than the best of all. -/
theorem not_improved_ideal {w : Int} (hw : Word.Fits w) (o : Objective) :
    ¬o.Improved o.ideal w := by
  cases o with
  | minimise x => exact not_lt.2 hw.1
  | maximise x => exact not_lt.2 hw.2

end Objective

namespace Space

variable {s s' best : Space} {i : Nat}

/-- From `s` to `s'`, the values of a variable that have a property were kept, and nothing else was
changed. If there are none, the space has failed and keeps all values. -/
structure CutTo (s : Space) (i : Nat) (P : Int → Prop) (s' : Space) : Prop where
  failed_iff : s'.isFailed = true ↔ s.isFailed = true ∨ ∀ w ∈ s.store.box.ints i, ¬P w
  of_failed : s'.isFailed = true → s'.store = s.store
  of_alive : s'.isFailed = false → ∃ d : IntDomain, d.Canonical ∧
    (∀ w, w ∈ d ↔ w ∈ s.store.box.ints i ∧ P w) ∧ s'.store = s.store.withInt i d

/-- A restriction of a store variable always has a result, and keeps the values in the relation. -/
theorem exists_cutTo_of_restrict (hs : s.store.Sound) (hi : i < s.store.ints.size)
    {P : Int → Prop} {relation : Relation} {v : Int} (h : ∀ w, relation.Holds w v ↔ P w) :
    ∃ event s', s.restrict (.root i) relation v = .ok (event, s') ∧ s.CutTo i P s' := by
  unfold Space.restrict
  cases hf : s.isFailed with
  | true =>
    rw [State.restrict_of_failed hf]
    exact ⟨.failed, s, rfl,
      ⟨by simp [hf], fun _ => rfl, fun halive => by rw [hf] at halive; cases halive⟩⟩
  | false =>
    have hx : (IntVar.root i).index < s.state.store.ints.size := hi
    have hpull : ∃ p, (IntVar.root i).pull relation v = .ok p := ⟨_, rfl⟩
    obtain ⟨⟨event, state⟩, hr⟩ := (State.exists_restrict_iff hf hx).2 hpull
    rw [hr]
    refine ⟨event, { s with state }, rfl, ?_⟩
    rcases State.cases_of_restrict ⟨hf, hs⟩ hx hr with
      ⟨-, rfl, hnone⟩ | ⟨-, halive, d, hd, hmem, hstore⟩
    · have hnone : ∀ w ∈ s.store.box.ints i, ¬P w := fun w hw hP => hnone w hw ((h w).2 hP)
      exact ⟨iff_of_true rfl (.inr hnone), fun _ => rfl, fun halive => by cases halive⟩
    · have hmem (w : Int) : w ∈ d ↔ w ∈ s.store.box.ints i ∧ P w :=
        (hmem w).trans (and_congr_right fun _ => h w)
      have halive' : ({ s with state } : Space).isFailed = false := halive
      refine ⟨?_, fun hf' => ?_, fun _ => ⟨d, hd, hmem, hstore⟩⟩
      · rw [halive', hf]
        simp only [Bool.false_eq_true, false_or, false_iff]
        exact fun hnone => hnone _ ((hmem _).1 hd.min_mem).1 ((hmem _).1 hd.min_mem).2
      · rw [halive'] at hf'
        cases hf'

/-- A space that is constrained by a bound `w` for what is better than `v`. The bound is a word if
and only if `v` is not the best value. -/
theorem cuts_of_checked (hs : s.store.Sound) (hi : i < s.store.ints.size)
    {o : Objective} {v : Int} (operation : ConstraintSearch.Operation) (w : Int)
    (relation : Relation) (hw : Word.Fits w ↔ v ≠ o.ideal)
    (hiff : ∀ u, relation.Holds u w ↔ o.Improved v u)
    (heq : s.constrain best = do
      let bound ← Word.checked operation w
      return (← s.restrict (.root i) relation bound).2) :
    (v = o.ideal → (∀ u ∈ s.store.box.ints i, ¬o.Improved v u) ∧
      ∃ operation, s.constrain best = .error (.overflow operation)) ∧
    (v ≠ o.ideal → ∃ s', s.constrain best = .ok s' ∧ s.CutTo i (o.Improved v ·) s') := by
  rw [heq]
  refine ⟨fun hideal => ⟨fun u hu => ?_, operation, ?_⟩, fun hideal => ?_⟩
  · exact hideal ▸ Objective.not_improved_ideal (hs.fits i u hu) o
  · unfold Word.checked
    rw [if_neg fun hf => hw.1 hf hideal]
    rfl
  · obtain ⟨event, s', hr, hcut⟩ := exists_cutTo_of_restrict hs hi hiff
    refine ⟨s', ?_, hcut⟩
    rw [Word.checked_of_fits (hw.2 hideal)]
    show (s.restrict (.root i) relation w >>= _ : Except Fault Space) = _
    rw [hr]
    rfl

/-- **Cutting off what is not better.** Let the objective of a space that a client reaches be a
store variable, and let it have the value `v` in another space. Unless `v` is the best value of the
whole range, to constrain the space by the other one leaves exactly the values that are better than
`v`, or fails the space if there are none. If `v` is the best value of the range, there are none,
but the arithmetic faults. -/
theorem Reachable.constrain_cuts {allowed : Space → Operation → Prop} (h : s.Reachable allowed)
    {o : Objective} (ho : s.objective = some o) (hx : o.variable = .root i)
    (hi : i < s.store.ints.size) {v : Int} (hv : best.store.int i = .ok (.singleton v))
    (hfits : Word.Fits v) :
    (v = o.ideal → (∀ w ∈ s.store.box.ints i, ¬o.Improved v w) ∧
      ∃ operation, s.constrain best = .error (.overflow operation)) ∧
    (v ≠ o.ideal → ∃ s', s.constrain best = .ok s' ∧ s.CutTo i (o.Improved v ·) s') := by
  have hs := h.in_order.1
  have hread (side : Side) : (IntVar.root i).bound best.store side = .ok v := by
    cases side <;>
    · unfold IntVar.bound
      rw [hv]
      rfl
  cases o with
  | minimise x =>
    obtain rfl : x = .root i := hx
    refine cuts_of_checked hs hi .subtract (v - 1) .atMost ?_ (fun u => ?_) ?_
    · unfold Word.Fits at *
      simp only [Objective.ideal]
      omega
    · simp only [Relation.Holds, Objective.Improved]
      omega
    · unfold Space.constrain
      rw [ho]
      show (IntVar.bound best.store (.root i) .upper >>= _ : Except Fault Space) = _
      rw [hread]
      rfl
  | maximise x =>
    obtain rfl : x = .root i := hx
    refine cuts_of_checked hs hi .add (v + 1) .atLeast ?_ (fun u => ?_) ?_
    · unfold Word.Fits at *
      simp only [Objective.ideal]
      omega
    · simp only [Relation.Holds, Objective.Improved]
      omega
    · unfold Space.constrain
      rw [ho]
      show (IntVar.bound best.store (.root i) .lower >>= _ : Except Fault Space) = _
      rw [hread]
      rfl

/-- Of the values 0, 3, 5 and 9, a solution with the value 3 leaves 5 and 9 to maximise. -/
theorem Reachable.constrain_cuts_maximise :
    ∃ s best : Space, s.Reachable (fun _ _ => True) ∧
      (s.objective = some (.maximise (.root 0)) ∧ s.isFailed = false ∧ 0 < s.store.ints.size ∧
        (s.store.int 0).toOption.map (·.values) = some [0, 3, 5, 9] ∧
        best.store.int 0 = .ok (.singleton 3) ∧ Word.Fits 3) ∧
      ∃ s', s.constrain best = .ok s' ∧ s.CutTo 0 (fun w => 3 < w) s' := by
  have hrun : ((ofPolicy .costOrdered).performAll? (fun _ _ => true)
      [.newInt 0 9, .restrictTo (.root 0) [0, 3, 5, 9], .aim (.maximise (.root 0))]).any (fun s =>
        (s.perform? (.restrict (.root 0) .equal 3)).any fun best =>
          decide (s.objective = some (.maximise (.root 0)) ∧ s.isFailed = false ∧
            0 < s.store.ints.size ∧
            (s.store.int 0).toOption.map (·.values) = some [0, 3, 5, 9] ∧
            (best.store.int 0).toOption = some (.singleton 3))) = true := by
    decide +kernel
  obtain ⟨s, hs, hrun⟩ := (Option.any_eq_true ..).1 hrun
  obtain ⟨best, -, hrun⟩ := (Option.any_eq_true ..).1 hrun
  obtain ⟨ho, halive, hsize, hvalues, hv⟩ := of_decide_eq_true hrun
  have hreachable : s.Reachable fun _ _ => True :=
    (Reachable.empty .costOrdered).performAll? (fun _ _ _ => trivial) hs
  have hfits : Word.Fits 3 := by decide
  have hv := ok_of_toOption hv
  exact ⟨s, best, hreachable, ⟨ho, halive, hsize, hvalues, hv, hfits⟩,
    (hreachable.constrain_cuts ho rfl hsize hv hfits).2 (by decide)⟩

/-- A solution that has the least of all values cannot be improved. To ask for a better one faults
instead of failing the space. -/
theorem exists_fault_of_constrain :
    ∃ s best : Space, s.Reachable (fun _ _ => True) ∧ best.Reachable (fun _ _ => True) ∧
      s.objective = some (.minimise (.root 0)) ∧
      (s.store.int 0).toOption = IntDomain.ofInterval? Word.least 5 ∧
      best.store.int 0 = .ok (.singleton Word.least) ∧
      s.constrain best = .error (.overflow .subtract) := by
  have hrun : ((ofPolicy .costOrdered).performAll? (fun _ _ => true)
      [.newInt Word.least 5, .aim (.minimise (.root 0))]).any (fun s =>
        (s.performAll? (fun _ _ => true) [.restrict (.root 0) .equal Word.least]).any fun best =>
          decide (s.objective = some (.minimise (.root 0)) ∧
            (s.store.int 0).toOption = IntDomain.ofInterval? Word.least 5 ∧
            (best.store.int 0).toOption = some (.singleton Word.least) ∧
            fault? (s.constrain best) = some (.overflow .subtract))) = true := by
    decide +kernel
  obtain ⟨s, hs, hrun⟩ := (Option.any_eq_true ..).1 hrun
  obtain ⟨best, hbest, hrun⟩ := (Option.any_eq_true ..).1 hrun
  obtain ⟨ho, hvalues, hv, hfault⟩ := of_decide_eq_true hrun
  have hreachable : s.Reachable fun _ _ => True :=
    (Reachable.empty .costOrdered).performAll? (fun _ _ _ => trivial) hs
  exact ⟨s, best, hreachable, hreachable.performAll? (fun _ _ _ => trivial) hbest, ho, hvalues,
    ok_of_toOption hv, error_of_fault? hfault⟩

end Space

end ConstraintSearch
