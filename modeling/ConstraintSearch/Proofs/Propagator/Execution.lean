import ConstraintSearch.Proofs.Propagator.NoGoods
import ConstraintSearch.Proofs.Propagator.SetCardinality

/-!
# The law of propagators

One statement for no-goods and all propagators of the constraints on integers and sets. A run
advances the state and loses no stable box, and each verdict is kept:

* after `Verdict.fix`, the propagator rests, if it is oriented;
* after `Verdict.subsumed`, every smaller box is stable;
* after `Verdict.replace`, a smaller box is stable for the successor if and only if it is stable for
  the propagator.
-/

namespace ConstraintSearch.Propagator

open Propagation

variable {δ : Prop} {p p' : Propagator} {s : State}

/-- The propagator after a run is the one before, up to marks and settled levels. -/
inductive Continues : Propagator → Propagator → Prop
  | same (p : Propagator) : Continues p p
  | marked {vars vars' : List (IntVar × Bool)} (h : vars'.map (·.1) = vars.map (·.1)) :
      Continues (allDifferent vars) (allDifferent vars')
  | settled (levels : List NoGoodLevel) (start start' : Nat) :
      Continues (noGoods levels start) (noGoods levels start')

namespace Continues

theorem stable (h : p.Continues p') : p'.Stable = p.Stable := by
  cases h with
  | same => rfl
  | marked h => exact stable_allDifferent_congr h
  | settled levels start start' => rfl

theorem interests (h : p.Continues p') : p'.interests = p.interests := by
  cases h with
  | same => rfl
  | @marked vars vars' h =>
    have := congrArg (List.map fun x : IntVar => (x.ref, Wake.value)) h
    rw [List.map_map, List.map_map] at this
    exact this
  | settled levels start start' => rfl

theorem oriented (h : p.Continues p') (hp : p.Oriented) : p'.Oriented := by
  cases h with
  | same => exact hp
  | marked h => trivial
  | settled levels start start' => trivial

theorem replacements (h : p.Continues p') : p'.replacements = p.replacements := by
  cases h with
  | same => rfl
  | marked h => rfl
  | settled levels start start' => rfl

theorem trans {p'' : Propagator} (h : p.Continues p') (h' : p'.Continues p'') :
    p.Continues p'' := by
  cases h with
  | same => exact h'
  | marked h =>
    cases h' with
    | same => exact .marked h
    | marked h' => exact .marked (h'.trans h)
  | settled levels start start' =>
    cases h' with
    | same => exact .settled levels start start'
    | settled _ _ start'' => exact .settled levels start start''

end Continues

/-- What the answer of a run promises about the store after it. -/
def Answers (δ : Prop) (p : Propagator) (s : Store) : Propagator × Verdict Propagator → Prop
  | (p', .fix) => p.Continues p' ∧ p'.WellFormed δ s ∧ (p.Oriented → p'.Rests s)
  | (_, .noFix) => False
  | (_, .subsumed) => ∀ F : Box, F.Sound → F.Within s → p.Stable F
  | (_, .replace q) => (∃ a b offset, q = notEquals a b offset) ∧
      q.replacements < p.replacements ∧ q.WellFormed δ s ∧
      ∀ F : Box, F.Sound → F.Within s → (p.Stable F ↔ q.Stable F)

/-- The law of a propagator that stays as it is. -/
theorem law_of_concludes {run : Propagation (Verdict Propagator)} (hs : s.Ready)
    (hw : p.WellFormed δ s.store)
    (h : Law δ p.Stable run s fun verdict s' => p.Concludes s'.store verdict) :
    Law δ p.Stable (do return (p, ← run)) s fun r s' => p.Answers δ s'.store r := by
  refine h.bind fun verdict s' hstep hverdict => Law.pure ?_
  have hw' := hw.of_evolves hs.sound (hstep.advances.ready hs).sound
    hstep.advances.store.evolves
  cases verdict with
  | fix => exact ⟨.same p, hw', hverdict⟩
  | noFix => exact hverdict
  | subsumed => exact hverdict
  | replace q => exact hverdict.elim

theorem run_law (hs : s.Ready) (hw : p.WellFormed δ s.store) :
    Law δ p.Stable p.run s fun r s' => p.Answers δ s'.store r := by
  cases p with
  | notEquals a b offset => exact law_of_concludes hs hw (NotEquals.law hs hw.1 hw.2)
  | lessOrEqual a b offset => exact law_of_concludes hs hw (LessOrEqual.law hs hw.1 hw.2)
  | linearAtMost terms bound => exact law_of_concludes hs hw (Linear.runAtMost_law hs hw)
  | linearEqual terms total => exact law_of_concludes hs hw (Linear.runEqual_law hs hw)
  | clause literals => exact law_of_concludes hs hw (Clause.run_law hs hw)
  | setCardinality set x => exact law_of_concludes hs hw (SetCardinality.run_law hs hw.1 hw.2)
  | allDifferent vars =>
    refine (AllDifferent.run_law hs hw).mono ?_
    rintro ⟨p', verdict⟩ s' - ⟨vars', rfl, hmap, hw', h⟩
    cases verdict with
    | fix => exact ⟨.marked hmap, hw', fun _ => h⟩
    | noFix => exact h
    | subsumed => exact h
    | replace q =>
      obtain ⟨a, b, rfl, hwq, hiff⟩ := h
      exact ⟨⟨a, b, 0, rfl⟩, Nat.zero_lt_one, hwq, hiff⟩
  | noGoods levels start =>
    refine (NoGoods.run_law hs hw).mono ?_
    rintro ⟨p', verdict⟩ s' - ⟨k, rfl, hw', h⟩
    cases verdict with
    | fix => exact ⟨.settled levels start k, hw', fun _ => h⟩
    | noFix => exact h
    | subsumed => exact h
    | replace q => exact h.elim
  | floatAtMost a b => exact hw.elim
  | scripted script executions => exact hw.elim

theorem execute_eq_run (hw : p.WellFormed δ s.store) :
    p.execute s = (p.run s : Except Fault _) := by
  cases p <;> first | rfl | exact hw.elim

/-- The law of an execution, in the journal. -/
theorem execute_law (hs : s.Ready) (hw : p.WellFormed δ s.store) :
    Journaled.Yields δ (p.execute s) fun
      | (.ok r, s') => Step p.Stable s s' ∧ p.Answers δ s'.store r
      | (.error _, _) => ∀ F : Box, F.Sound → p.Stable F → ¬F.Within s.store := by
  have hrun := run_law hs hw
  rw [execute_eq_run hw]
  refine Journaled.Yields.lift (Yields.mono hrun fun r hr => ?_)
  obtain ⟨outcome, s'⟩ := r
  cases outcome with
  | ok r => exact hr
  | error i => exact hr

end ConstraintSearch.Propagator
