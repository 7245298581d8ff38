import ConstraintSearch.Proofs.Search.Restarts
import ConstraintSearch.Proofs.Search.SpaceTree

/-!
# Searches do not read the journal

What was written before does not matter for the steps of a search. So a search goes one way only,
and what is found by evaluating its steps holds of every run.

* `Explorer.steady_nextNodeWithin`, `Explorer.steady_explore`: the next node, and what becomes of
  it;
* `CompleteSearch.steady_step`, `Restarts.steady_step`: the steps of searches.
-/

namespace ConstraintSearch

open Journaled (Steady)

theorem steady_statusOf (s : Space) (statistics : Statistics) : Steady (statusOf s statistics) :=
  s.steady_status.bind fun _ => Steady.pure

namespace Explorer

theorem steady_start (e : Explorer) (root : Space) : Steady (e.start root) := by
  refine (steady_statusOf _ _).bind fun _ => ?_
  dsimp only
  split <;> exact Steady.pure

theorem steady_failAt (e : Explorer) (depth : Nat) (bound : Option Bound) :
    Steady (e.failAt depth bound) :=
  (Steady.lift _).bind fun _ => Steady.pure

theorem steady_constrainAbove (s : Space) (depth : Nat) (bound : Option Bound) :
    Steady (constrainAbove s depth bound) := by
  unfold constrainAbove
  split
  · exact Steady.pure
  split
  · exact (Steady.lift _).bind fun _ => Steady.pure
  · exact Steady.pure

theorem steady_reuseTop (e : Explorer) (top : Edge) (copy : Space) (edges : List Edge)
    (bound : Option Bound) : Steady (e.reuseTop top copy edges bound) := by
  rw [reuseTop_eq]
  exact (Steady.lift _).bind fun _ => (Steady.lift _).bind fun _ =>
    (steady_constrainAbove _ _ _).bind fun _ => Steady.pure

theorem steady_replayHalfway (e : Explorer) (s : Space) (segment above : List Edge)
    (bound : Option Bound) : Steady (e.replayHalfway s segment above bound) := by
  refine (Steady.lift _).bind fun s => ?_
  split
  · refine (steady_statusOf _ _).bind fun _ => ?_
    dsimp only
    split
    · exact steady_failAt _ _ _
    · exact (Steady.lift _).bind fun _ => (Steady.lift _).bind fun _ => Steady.pure
  · exact (Steady.lift _).bind fun _ => Steady.pure

theorem steady_refreshCopy (e : Explorer) (below : List Edge) (edge : Edge) (copy : Space)
    (above : List Edge) (bound : Option Bound) :
    Steady (refreshCopy e below edge copy above bound) := by
  unfold refreshCopy
  split
  · exact Steady.pure
  split
  · exact (Steady.lift _).bind fun _ => (steady_statusOf _ _).bind fun _ => Steady.pure
  · exact Steady.pure

theorem steady_rebuild (e : Explorer) (bound : Option Bound) : Steady (e.rebuild bound) := by
  obtain ⟨fault, h⟩ | ⟨top, copy, edges, -, -, -, h⟩ |
    ⟨top, edges, below, edge, copy, above, hedges, hfar, hsplit⟩ := e.rebuild_cases bound
  · rw [h]
    exact Steady.throw _
  · rw [h]
    exact steady_reuseTop _ _ _ _ _
  · rw [rebuild_eq hedges hfar hsplit]
    refine (steady_refreshCopy _ _ _ _ _ _).bind fun _ => ?_
    dsimp only
    split
    · exact steady_failAt _ _ _
    · split
      · exact (Steady.lift _).bind fun _ => Steady.pure
      · exact steady_replayHalfway _ _ _ _ _

theorem steady_nextNodeWithin (steps : Nat) (e : Explorer) (bound : Option Bound) :
    Steady (nextNodeWithin steps e bound) := by
  induction steps generalizing e bound with
  | zero => exact Steady.throw _
  | succ steps ih =>
    unfold nextNodeWithin
    split
    · exact Steady.pure
    split
    · exact Steady.pure
    refine (steady_rebuild _ _).bind fun r => ?_
    dsimp only
    split
    · exact Steady.pure
    · exact (Steady.lift _).bind fun _ => ih _ _

theorem steady_explore (e : Explorer) (s : Space) : Steady (e.explore s) := by
  unfold explore
  extract_lets statistics visit
  have hvisit (edge : Option EdgeInfo) : Steady (visit edge) := by
    refine (steady_statusOf _ _).bind fun r => ?_
    dsimp only
    split
    · exact (Steady.lift _).bind fun _ => Steady.pure
    · exact (Steady.lift _).bind fun _ => Steady.pure
    · exact (Steady.lift _).bind fun _ => (Steady.lift _).bind fun _ =>
        (Steady.lift _).bind fun _ => Steady.pure
  split
  · refine (Steady.lift _).bind fun edge => ?_
    rw [pure_bind]
    exact hvisit (some edge)
  · rw [pure_bind]
    exact hvisit none

end Explorer

variable {σ : Type} [StopCondition σ]

theorem DepthFirst.steady_step (d : DepthFirst σ) : Steady d.step := by
  refine (Steady.lift _).bind fun _ => ?_
  dsimp only
  split
  · exact Steady.pure
  refine (Explorer.steady_nextNodeWithin _ _ _).bind fun _ => ?_
  split
  · exact Steady.pure
  refine (Explorer.steady_explore _ _).bind fun _ => ?_
  split <;> exact Steady.pure

theorem BranchAndBound.steady_step (b : BranchAndBound σ) : Steady b.step := by
  refine (Steady.lift _).bind fun _ => ?_
  dsimp only
  split
  · exact Steady.pure
  refine (Explorer.steady_nextNodeWithin _ _ _).bind fun _ => ?_
  split
  · exact Steady.pure
  refine (Explorer.steady_explore _ _).bind fun _ => ?_
  split <;> exact Steady.pure


namespace ParallelSearch

variable (p : ParallelSearch σ) (index : Nat) (w : Worker)

theorem steady_work : Steady (p.work index w) := by
  refine (Steady.lift _).bind fun w => ?_
  dsimp only
  split
  · refine (Steady.lift _).bind fun _ => ?_
    split
    · exact Steady.pure
    · refine (Explorer.steady_explore _ _).bind fun _ => ?_
      split <;> exact Steady.pure
  · split
    · exact Steady.pure
    · exact (Explorer.steady_nextNodeWithin _ _ _).bind fun _ => Steady.pure

omit [StopCondition σ] in
theorem steady_report (s : Space) : Steady (p.report index w s) := by
  unfold report
  dsimp only
  split
  · exact Steady.pure
  rename_i shared _
  have hannounce (status : SpaceStatus) (s : Space) (p : ParallelSearch σ) : Steady (do
      if status = .failed then return p
      else return { p with shared := some ⟨some s, shared.generation + 1⟩ }.announce s) := by
    split <;> exact Steady.pure
  split
  · refine (Steady.lift _).bind fun _ => (Space.steady_status _).bind fun _ => hannounce _ _ _
  · exact Steady.pure.bind fun _ => hannounce _ _ _

theorem steady_runSection : Steady (p.runSection index) := by
  refine (Steady.lift _).bind fun w => ?_
  split
  · exact steady_work _ _ _
  · exact Steady.lift _
  · exact Steady.lift _
  · exact Steady.lift _
  · exact steady_report _ _ _ _

theorem steady_step : Steady p.step := by
  unfold step
  split
  · exact Steady.pure
  split
  · exact Steady.pure
  split
  · exact Steady.pure
  · exact ((steady_runSection _ _).tryCatch fun _ => Steady.pure).bind fun _ => Steady.pure

omit [StopCondition σ] in
theorem steady_reset (root : Space) : Steady (p.reset root) := by
  unfold reset
  dsimp only
  split
  · exact Steady.pure.bind fun _ => Steady.pure
  · exact (Explorer.steady_start _ _).bind fun _ => Steady.pure.bind fun _ => Steady.pure

end ParallelSearch

namespace CompleteSearch

theorem steady_step (search : CompleteSearch σ) : Steady search.step := by
  cases search with
  | depthFirst d => exact d.steady_step.bind fun _ => Steady.pure
  | branchAndBound b => exact b.steady_step.bind fun _ => Steady.pure
  | parallel p => exact p.steady_step.bind fun _ => Steady.pure

omit [StopCondition σ] in
theorem steady_reset (root : Space) (search : CompleteSearch σ) : Steady (search.reset root) := by
  cases search with
  | depthFirst d =>
    exact ((Explorer.steady_start _ _).bind fun _ => Steady.pure).bind fun _ => Steady.pure
  | branchAndBound b =>
    exact ((Explorer.steady_start _ _).bind fun _ => Steady.pure).bind fun _ => Steady.pure
  | parallel p => exact (p.steady_reset root).bind fun _ => Steady.pure

end CompleteSearch

namespace NoGoods

theorem steady_post (n : NoGoods) (s : Space) : Steady (n.post s).run := by
  intro journal journal'
  unfold post
  cases n.levels with
  | nil => rfl
  | cons level levels =>
    -- What the post returns is lifted, whatever it is.
    dsimp only
    rcases hpost : s.post (.noGoods (level :: levels) 0) with fault | outcome
    · rfl
    · cases outcome <;> rfl

end NoGoods

namespace Restarts

variable {ρ : Type} [CutoffSequence ρ]

omit [StopCondition σ] in
omit [CutoffSequence ρ] in
theorem steady_learn (r : Restarts σ ρ) : Steady r.learn := by
  unfold learn
  split
  · exact Steady.pure
  · refine (NoGoods.steady_post _ _).bind fun _ => ?_
    split <;> exact Steady.pure

omit [StopCondition σ] in
theorem steady_begin (r : Restarts σ ρ) : Steady r.begin := by
  rw [begin_eq]
  refine (Steady.lift _).bind fun _ => (steady_learn _).bind fun _ => ?_
  dsimp only
  split
  · exact Steady.pure
  refine (steady_statusOf _ _).bind fun _ => ?_
  split
  · exact Steady.pure
  · exact (Steady.note _).bind fun _ => (CompleteSearch.steady_reset _ _).bind fun _ => Steady.pure

theorem steady_step (r : Restarts σ ρ) : Steady r.step := by
  unfold step
  split
  · exact r.steady_begin
  · refine (CompleteSearch.steady_step _).bind fun _ => ?_
    dsimp only
    split
    · exact Steady.pure
    · split
      · exact (Steady.lift _).bind fun _ => Steady.pure
      · exact Steady.pure
    · exact Steady.pure
    · exact Steady.pure

end Restarts

end ConstraintSearch
