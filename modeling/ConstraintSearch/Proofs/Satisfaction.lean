import ConstraintSearch.Proofs.Assignments
import ConstraintSearch.Proofs.Build

/-!
# What holds in a propagated space

A space that has been propagated and has not failed satisfies every constraint whose variables all
have a value, provided that the constraint is oriented. An inequation that names one variable from
both sides may be missed: the run that narrows the variable is not repeated.

* `Built.holds_of_status`: the constraints of a built space;
* `Built.exists_violation_lessThan`: an inequation that is missed.
-/

namespace ConstraintSearch

/-- All variables of the constraint have a value. -/
structure Posting.AssignedIn (s : Store) (c : Posting) : Prop where
  ints : ∀ x ∈ c.vars, ∃ d, s.int x.index = .ok d ∧ d.isAssigned = true
  sets : ∀ i ∈ c.sets, ∃ d, s.set i = .ok d ∧ d.isAssigned = true

theorem Store.box_ints_of_int {s : Store} {i : Nat} {d : IntDomain} (h : s.int i = .ok d) :
    s.box.ints i = d := by
  have hget : s.ints.get? i = some d := Table.fetch_eq_ok.1 h
  simp only [Store.box, hget, Option.getD_some]

theorem Store.box_sets_of_set {s : Store} {i : Nat} {d : SetDomain} (h : s.set i = .ok d) :
    s.box.sets i = d := by
  have hget : s.sets.get? i = some d := Table.fetch_eq_ok.1 h
  simp only [Store.box, hget, Option.getD_some]

theorem Posting.AssignedIn.takes {s : Store} {c : Posting} (h : c.AssignedIn s) (hs : s.Sound) :
    c.Takes s.assignment s.box := by
  refine ⟨fun x hx => ?_, fun i hi => ?_⟩
  · obtain ⟨d, hd, ha⟩ := h.ints x hx
    obtain rfl := Store.box_ints_of_int hd
    exact (hs.box.canonical _).eq_singleton ha
  · obtain ⟨d, hd, ha⟩ := h.sets i hi
    obtain rfl := Store.box_sets_of_set hd
    exact (hs.box.normal _).eq_exactly ha

variable {policy : Policy} {statements : List Statement} {s s' : Space} {status : SpaceStatus}
  {c : Posting}

/-- Whether the space is solved, and its integer variables have the given values. -/
def solvesTo (values : List Int) (r : SpaceStatus × Space) : Bool :=
  r.1 = .solved ∧ r.2.store.ints = ⟨(values.map IntDomain.singleton).toArray⟩

theorem exists_of_solvesTo {values : List Int}
    (h : buildsTo policy statements (·.status.check (solvesTo values)) = true) :
    ∃ s s' : Space, Built policy statements s ∧ s.status.Returns (.solved, s') ∧
      s'.store.ints = ⟨(values.map IntDomain.singleton).toArray⟩ := by
  obtain ⟨s, hs, hcheck⟩ := exists_built_of_buildsTo h
  obtain ⟨⟨status, s'⟩, hreturns, hsolves⟩ := Journaled.exists_of_check hcheck
  obtain ⟨rfl, hvalues⟩ := of_decide_eq_true hsolves
  exact ⟨s, s', hs, hreturns, hvalues⟩

/-- **Solved means satisfied.** After propagation, every oriented constraint whose variables all
have a value holds. -/
theorem Built.holds_of_status (h : Built policy statements s)
    (hs : s.status.Returns (status, s')) (halive : status ≠ .failed) (hc : c ∈ postings statements)
    (horiented : c.Oriented) (hassigned : c.AssignedIn s'.store) :
    c.Holds s'.store.assignment := by
  obtain ⟨posted, hcompiles, htracks⟩ :=
    h.tracks (δ := True) fun _ _ _ _ => .inr trivial
  obtain ⟨n, q, hn, hq⟩ := hcompiles.exists_of_mem hc
  have hlaw := htracks.of_status hs
  rw [if_neg halive] at hlaw
  obtain ⟨htracks', -, -, hidle⟩ := hlaw
  have htakes := hassigned.takes htracks'.ready.sound
  have hstable := htracks'.stable_of_idle (hidle n) hn (Posting.oriented hq horiented) ?_
  · exact ((Posting.stable_iff hq htakes).1 hstable).1
  · rintro set x rfl
    have hset : set ∈ c.sets := by
      by_contra hset
      have hsets : c.sets = [] := by
        cases c with
        | setCardinality set' x' =>
          cases hq
          simp [Posting.sets] at hset
        | _ => rfl
      exact Posting.ne_setCardinality hq hsets set x rfl
    obtain ⟨d, hd, ha⟩ := hassigned.sets set hset
    rwa [Store.box_sets_of_set hd]

/-- In the space of `x = 1`, `1 ≤ y ≤ 2` and `x < y`, propagation finds `y`. -/
theorem Built.holds_of_status_lessThan : ∃ s s' : Space,
    Built .costOrdered [.newInt 1 1, .newInt 1 2, .post (.lessThan (.root 0) (.root 1))] s ∧
      s.status.Returns (.solved, s') ∧
      (Posting.lessThan (.root 0) (.root 1)).Holds s'.store.assignment := by
  have hcheck : buildsTo .costOrdered
      [.newInt 1 1, .newInt 1 2, .post (.lessThan (.root 0) (.root 1))]
      (·.status.check (solvesTo [1, 2])) = true := by
    decide +kernel
  obtain ⟨s, s', hs, hreturns, hints⟩ := exists_of_solvesTo hcheck
  have hint {i : Nat} {d : IntDomain} (h : s'.store.ints.get? i = some d) :
      s'.store.int i = .ok d := Table.fetch_eq_ok.2 h
  refine ⟨s, s', hs, hreturns, hs.holds_of_status hreturns (by decide) (by simp [postings,
    Statement.posting?]) (fun h => by cases h) ⟨?_, by simp [Posting.sets]⟩⟩
  simp only [Posting.vars, List.forall_mem_cons]
  refine ⟨⟨_, hint (by rw [hints]; rfl), rfl⟩, ⟨_, hint (by rw [hints]; rfl), rfl⟩, by simp⟩

/-! ### Inequations with both sides on one variable -/

/-- The run that removes `1` and `3` from `{1, 2, 3}` is not repeated, and `x < x` is taken for
solved. -/
theorem Built.exists_violation_lessThan : ∃ s s' : Space,
    Built .costOrdered [.newInt 1 3, .post (.lessThan (.root 0) (.root 0))] s ∧
      s.status.Returns (.solved, s') ∧
      (Posting.lessThan (.root 0) (.root 0)).AssignedIn s'.store ∧
      ¬(Posting.lessThan (.root 0) (.root 0)).Holds s'.store.assignment := by
  have hcheck : buildsTo .costOrdered [.newInt 1 3, .post (.lessThan (.root 0) (.root 0))]
      (·.status.check (solvesTo [2])) = true := by
    decide +kernel
  obtain ⟨s, s', hs, hreturns, hints⟩ := exists_of_solvesTo hcheck
  have hint : s'.store.int 0 = .ok (IntDomain.singleton 2) := by
    unfold Store.int
    rw [hints]
    rfl
  refine ⟨s, s', hs, hreturns, ⟨?_, by simp [Posting.sets]⟩, ?_⟩
  · simp only [Posting.vars, List.forall_mem_cons]
    exact ⟨⟨_, hint, rfl⟩, ⟨_, hint, rfl⟩, by simp⟩
  · exact lt_irrefl _

end ConstraintSearch
