import ConstraintSearch.Search.Engine
import ConstraintSearch.Proofs.Search.Complete

/-!
# Tamed stop conditions

A stop condition may fault in any way when it is polled. A search that returns something has met no
such fault, and it returns the same if the polls that fault are answered with "go on" instead. What
a search returns can therefore be studied with conditions that fault in arithmetic at most.

* `Journaled.Refines`: every result of one computation is a result of another one;
* `StopCondition.tamed`, `StopCondition.refines_tamed`: a condition without its faults;
* `Search.step_refines`: the steps of a search by one worker;
* `LawfulStopCondition`: the conditions that fault in arithmetic at most.
-/

namespace ConstraintSearch

/-! ### Computations that return more -/

namespace Journaled

variable {α β : Type} {m m' : Journaled α} {f f' : α → Journaled β} {P : α → Prop}

/-- What the first computation returns, the second one returns as well, with the same notes. -/
def Refines (m m' : Journaled α) : Prop :=
  ∀ journal a journal', m journal = (.ok a, journal') → m' journal = (.ok a, journal')

theorem Refines.refl (m : Journaled α) : m.Refines m := fun _ _ _ h => h

theorem Refines.bind (hm : m.Refines m') (hf : ∀ a, (f a).Refines (f' a)) :
    (m >>= f).Refines (m' >>= f') := by
  intro journal b journal' h
  obtain ⟨a, between, hr, h⟩ := exists_run_of_bind h
  rw [bind_of_run (hm journal a between hr)]
  exact hf a between b journal' h

theorem Refines.lift {r r' : Except Fault α} (h : ∀ a, r = .ok a → r' = .ok a) :
    (liftM r : Journaled α).Refines (liftM r') := by
  intro journal a journal' hr
  cases r with
  | error fault => cases hr
  | ok b =>
    rw [h b rfl]
    exact hr

theorem Refines.ensures (h : m.Refines m') (hP : m'.Ensures P) : m.Ensures P := by
  rintro a ⟨journal, ha⟩
  exact hP a ⟨journal, congrArg Prod.fst (h journal a _ (Prod.ext ha rfl))⟩

end Journaled

/-! ### Conditions -/

namespace StopCondition

variable {σ : Type}

/-- A poll of the first condition that has an answer has the same answer with the second one. -/
def Refines (c c' : StopCondition σ) : Prop :=
  ∀ stop statistics r, c.poll stop statistics = .ok r → c'.poll stop statistics = .ok r

/-- The condition that answers like another one, and does not hold where that one faults. -/
@[reducible] def tamed (c : StopCondition σ) : StopCondition σ where
  poll stop statistics :=
    match c.poll stop statistics with
    | .ok r => .ok r
    | .error _ => .ok (false, stop)

theorem refines_tamed (c : StopCondition σ) : c.Refines c.tamed := by
  intro stop statistics r h
  change (match c.poll stop statistics with
    | .ok r => .ok r
    | .error _ => .ok (false, stop)) = Except.ok r
  rw [h]

variable {c c' : StopCondition σ}

theorem Refines.option (h : c.Refines c') :
    (@instStopConditionOption σ c).Refines (@instStopConditionOption σ c') := by
  intro stop statistics r hr
  cases stop with
  | none => exact hr
  | some stop =>
    obtain ⟨polled, hpolled, hr⟩ := Yields.exists_of_bind hr
    change (c'.poll stop statistics >>= _) = _
    rw [h stop statistics polled hpolled]
    exact hr

theorem Refines.cutoff (h : c.Refines c') :
    (@instStopConditionCutoff σ c).Refines (@instStopConditionCutoff σ c') := by
  intro stop statistics r hr
  obtain ⟨polled, hpolled, hr⟩ := Yields.exists_of_bind hr
  change (c'.poll stop.user statistics >>= _) = _
  rw [h stop.user statistics polled hpolled]
  exact hr

end StopCondition

/-- Conditions whose polls fault in arithmetic at most. -/
class LawfulStopCondition (σ : Type) [StopCondition σ] : Prop where
  yields_poll : ∀ (stop : σ) (statistics : Statistics),
    Yields True (StopCondition.poll stop statistics) fun _ => True

theorem StopCondition.lawful_tamed {σ : Type} (c : StopCondition σ) :
    @LawfulStopCondition σ c.tamed := by
  refine @LawfulStopCondition.mk σ c.tamed fun stop statistics => ?_
  change Yields True (match c.poll stop statistics with
    | .ok r => .ok r
    | .error _ => .ok (false, stop)) _
  cases c.poll stop statistics <;> exact trivial

theorem Stop.yields_poll : ∀ (stop : Stop) (statistics : Statistics),
    Yields True (stop.poll statistics) fun _ => True
  | nodes _, _ | fails _, _ | memory _, _ | time _ _ _, _ | never, _ | optional none, _ => trivial
  | optional (some stop), statistics => (stop.yields_poll statistics).bind fun _ _ => trivial
  | either first second, statistics =>
      (first.yields_poll statistics).bind fun _ _ =>
        (second.yields_poll statistics).bind fun _ _ => trivial
  | interrupt period last, statistics => by
      unfold poll
      repeat' split
      all_goals exact trivial

instance : LawfulStopCondition Stop := ⟨Stop.yields_poll⟩

/-! ### Steps of a search -/

section Steps

variable {σ ρ : Type} {c c' : StopCondition σ}

theorem DepthFirst.step_refines (h : c.Refines c') (d : DepthFirst σ) :
    (@DepthFirst.step σ c d).Refines (@DepthFirst.step σ c' d) :=
  (Journaled.Refines.lift (h d.stop d.explorer.reported)).bind fun _ => .refl _

theorem BranchAndBound.step_refines (h : c.Refines c') (b : BranchAndBound σ) :
    (@BranchAndBound.step σ c b).Refines (@BranchAndBound.step σ c' b) :=
  (Journaled.Refines.lift (h b.stop b.explorer.reported)).bind fun _ => .refl _

theorem CompleteSearch.step_refines (h : c.Refines c') {search : CompleteSearch σ}
    (hsearch : search.explorer?.isSome = true) :
    (@CompleteSearch.step σ c search).Refines (@CompleteSearch.step σ c' search) := by
  cases search with
  | depthFirst d => exact (d.step_refines h).bind fun _ => .refl _
  | branchAndBound b => exact (b.step_refines h).bind fun _ => .refl _
  | parallel p => cases hsearch

theorem LimitedDiscrepancy.step_refines (h : c.Refines c') (l : LimitedDiscrepancy σ) :
    (@LimitedDiscrepancy.step σ c l).Refines (@LimitedDiscrepancy.step σ c' l) := by
  unfold LimitedDiscrepancy.step
  rcases l.probe.current with _ | ⟨s, edge, depth⟩
  · rcases l.probe.stack with _ | ⟨top, rest⟩
    · exact .refl _
    · exact (Journaled.Refines.lift (h l.stop l.probe.statistics)).bind fun _ => .refl _
  · exact .refl _

theorem Restarts.step_refines [CutoffSequence ρ] (h : c.Refines c') {r : Restarts σ ρ}
    (hsearch : r.inner.explorer?.isSome = true) :
    (@Restarts.step σ ρ c _ r).Refines (@Restarts.step σ ρ c' _ r) := by
  unfold Restarts.step
  cases r.restart with
  | true => exact .refl _
  | false => exact (CompleteSearch.step_refines h.cutoff hsearch).bind fun _ => .refl _

/-- A search by one worker. -/
def Search.IsSequential : Search σ ρ → Prop
  | complete search => search.explorer?.isSome = true
  | limitedDiscrepancy _ => True
  | restarts r => r.inner.explorer?.isSome = true

theorem Search.step_refines [CutoffSequence ρ] (h : c.Refines c') {search : Search σ ρ}
    (hsearch : search.IsSequential) :
    (@Search.step σ ρ c _ search).Refines (@Search.step σ ρ c' _ search) := by
  match search with
  | complete search => exact (CompleteSearch.step_refines h.option hsearch).bind fun _ => .refl _
  | limitedDiscrepancy l =>
    exact (LimitedDiscrepancy.step_refines h.option l).bind fun _ => .refl _
  | restarts r => exact (Restarts.step_refines h.option hsearch).bind fun _ => .refl _

/-- What a step ensures with the tamed condition, it ensures with the condition itself. -/
theorem Search.ensures_step_of_tamed [c : StopCondition σ] [CutoffSequence ρ] {search : Search σ ρ}
    {post : Option Outcome × Search σ ρ → Prop} (hsearch : search.IsSequential)
    (h : (@Search.step σ ρ c.tamed _ search).Ensures post) : search.step.Ensures post :=
  (Search.step_refines c.refines_tamed hsearch).ensures h

end Steps

end ConstraintSearch
