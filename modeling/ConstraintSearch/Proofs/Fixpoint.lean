import ConstraintSearch.Proofs.Build
import ConstraintSearch.Proofs.Propagator.Rest

/-!
# Propagation reaches a fixpoint

In a space that has been propagated, every propagator that is still installed rests. Another run of
it is consistent and changes nothing, except for one: if a variable has skipped a hole when it took
the cardinality bounds of a set, then the set has yet to follow.

* `Built.exists_execute_of_status`: another run, and when it changes something;
* `Built.exists_change_setCardinality`: a set that has yet to follow.
-/

namespace ConstraintSearch

variable {policy : Policy} {statements : List Statement} {s s' : Space} {status : SpaceStatus}
  {n : Nat} {p : Propagator}

/-- An installed propagator of a space where nothing is scheduled rests. -/
theorem Space.Tracks.rests_of_idle {δ : Prop} {posted : List Propagator}
    (h : s.Tracks δ posted none) (hidle : s.state.queue.isScheduled n = false)
    (horiented : ∀ q ∈ posted, q.Oriented) (hp : s.propagator? n = some p) :
    p.WellFormed δ s.store ∧ p.Rests s.store := by
  obtain ⟨q, hq⟩ := h.exists_posted hp
  have hupholds := h.upholds hq hp
  have hp : p.Oriented := by
    rcases hupholds.origin with horigin | ⟨⟨a, b, offset, rfl⟩, -⟩
    · exact horigin.oriented (horiented q (List.mem_of_getElem? hq))
    · trivial
  exact ⟨hupholds.wellFormed, hupholds.rests (by simp) hidle hp⟩

/-- No-goods are installed only if they were posted. -/
theorem Space.Tracks.ne_noGoods {δ : Prop} {posted : List Propagator} (h : s.Tracks δ posted none)
    (hposted : ∀ q ∈ posted, ∀ levels start, q ≠ .noGoods levels start)
    (hp : s.propagator? n = some p) (levels : List NoGoodLevel) (start : Nat) :
    p ≠ .noGoods levels start := by
  rintro rfl
  obtain ⟨q, hq⟩ := h.exists_posted hp
  have hne := hposted q (List.mem_of_getElem? hq)
  rcases (h.upholds hq hp).origin with horigin | ⟨⟨a, b, offset, heq⟩, -⟩
  · cases horigin with
    | same => exact hne levels start rfl
    | settled _ start' => exact hne levels start' rfl
  · cases heq

/-- **Propagation reaches a fixpoint.** After it, another run of an installed propagator returns a
result, and changes no domain; only a set changes whose cardinality bounds are not those of its
variable. -/
theorem Built.exists_execute_of_status (h : Built policy statements s)
    (hdistinct : ∀ c ∈ postings statements, c.Distinct) (hs : s.status.Returns (status, s'))
    (halive : status ≠ .failed) (hp : s'.propagator? n = some p) :
    ∃ r state, (p.execute s'.state).Returns (.ok r, state) ∧
      (state.store = s'.store ↔ p.Balanced s'.store) := by
  obtain ⟨posted, hcompiles, htracks⟩ := h.tracks (δ := True) fun _ _ _ _ => .inr trivial
  have hlaw := htracks.of_status hs
  rw [if_neg halive] at hlaw
  obtain ⟨htracks', -, -, hidle⟩ := hlaw
  have horiented : ∀ q ∈ posted, q.Oriented := by
    intro q hq
    obtain ⟨c, hc, hcq⟩ := hcompiles.exists_posting hq
    exact Posting.oriented hcq (hdistinct c hc).oriented
  obtain ⟨hw, hrests⟩ := htracks'.rests_of_idle (hidle n) horiented hp
  have hlevels := htracks'.ne_noGoods (n := n) (p := p) (fun q hq => by
    obtain ⟨c, -, hcq⟩ := hcompiles.exists_posting hq
    exact Posting.ne_noGoods hcq) hp
  obtain ⟨r, state, hrun, hiff⟩ := Propagator.exists_run_of_rests htracks'.ready hw hrests hlevels
  refine ⟨r, state, ?_, hiff⟩
  rw [Propagator.execute_eq_run hw, hrun]
  exact ⟨#[], rfl⟩

/-- For a subset of `{1, 2}` and its cardinality from `0` to `5`, another run finds the bounds
that it has set. -/
theorem Built.exists_execute_of_status_setCardinality : ∃ (s s' : Space) (status : SpaceStatus)
    (p : Propagator),
    Built .costOrdered [.newSet [] [1, 2] 0 2, .newInt 0 5, .post (.setCardinality 0 (.root 0))] s ∧
      s.status.Returns (status, s') ∧ status ≠ .failed ∧ s'.propagator? 0 = some p ∧
      ∃ r state, (p.execute s'.state).Returns (.ok r, state) ∧
        (state.store = s'.store ↔ p.Balanced s'.store) := by
  have hcheck : buildsTo .costOrdered
      [.newSet [] [1, 2] 0 2, .newInt 0 5, .post (.setCardinality 0 (.root 0))]
      (·.status.check fun r => r.1 ≠ .failed ∧ (r.2.propagator? 0).isSome) = true := by
    decide +kernel
  obtain ⟨s, hs, hcheck⟩ := exists_built_of_buildsTo hcheck
  obtain ⟨⟨status, s'⟩, hreturns, hsome⟩ := Journaled.exists_of_check hcheck
  obtain ⟨halive, hsome⟩ := of_decide_eq_true hsome
  obtain ⟨p, hp⟩ := Option.isSome_iff_exists.1 hsome
  refine ⟨s, s', status, p, hs, hreturns, halive, hp, ?_⟩
  refine hs.exists_execute_of_status (fun c hc => ?_) hreturns halive hp
  simp only [postings, Statement.posting?, List.filterMap_cons, List.filterMap_nil,
    List.mem_singleton] at hc
  subst hc
  simp [Posting.Distinct, Posting.vars]

/-- Whether another run of the first propagator changes a set. -/
def changesSet (s : Space) : Bool :=
  match s.propagator? 0 with
  | some p => (p.execute s.state).check fun r => r.1.isOk ∧ r.2.store.sets ≠ s.store.sets
  | none => false

/-- A set with one to four elements, and a variable for its cardinality that may be `0`, `1` or `5`.
The variable becomes `1`, but the set keeps its bounds until it is run again. -/
theorem Built.exists_change_setCardinality : ∃ (s s' : Space) (p : Propagator),
    Built .costOrdered [.newSet [] [1, 2, 3, 4] 1 4, .newIntOfValues [0, 1, 5],
      .post (.setCardinality 0 (.root 0))] s ∧
      s.status.Returns (.solved, s') ∧ s'.propagator? 0 = some p ∧
      ∃ r state, (p.execute s'.state).Returns (.ok r, state) ∧ state.store ≠ s'.store := by
  have hcheck : buildsTo .costOrdered [.newSet [] [1, 2, 3, 4] 1 4, .newIntOfValues [0, 1, 5],
      .post (.setCardinality 0 (.root 0))]
      (·.status.check fun r => r.1 = .solved ∧ changesSet r.2) = true := by
    decide +kernel
  obtain ⟨s, hs, hcheck⟩ := exists_built_of_buildsTo hcheck
  obtain ⟨⟨status, s'⟩, hreturns, hchanges⟩ := Journaled.exists_of_check hcheck
  obtain ⟨rfl, hchanges⟩ := of_decide_eq_true hchanges
  unfold changesSet at hchanges
  cases hp : s'.propagator? 0 with
  | none =>
    rw [hp] at hchanges
    cases hchanges
  | some p =>
    rw [hp] at hchanges
    obtain ⟨⟨outcome, state⟩, hexecute, hne⟩ := Journaled.exists_of_check hchanges
    obtain ⟨hok, hne⟩ := of_decide_eq_true hne
    cases outcome with
    | error i => cases hok
    | ok r =>
      exact ⟨s, s', p, hs, hreturns, hp, r, state, hexecute, fun heq =>
        hne (congrArg Store.sets heq)⟩

end ConstraintSearch
