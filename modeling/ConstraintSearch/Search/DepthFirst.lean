import ConstraintSearch.Search.Explorer
import ConstraintSearch.Search.Outcome

/-!
# Depth-first search

Reports every solution, in the order in which a depth-first walk of the tree meets them.
-/

namespace ConstraintSearch

structure DepthFirst (σ : Type) where
  explorer : Explorer
  stop : σ

namespace DepthFirst

variable {σ : Type} [StopCondition σ]

/-- A search of the tree below a root. -/
def start (root : Space) (exploration : Exploration) (tracing : Tracing) (stop : σ) :
    Journaled (DepthFirst σ) := do
  return ⟨← (Explorer.ofExploration exploration tracing).start root, stop⟩

/-- Poll the stop condition and explore one node. -/
def step (d : DepthFirst σ) : Journaled (Option Outcome × DepthFirst σ) := do
  let (holds, stop) ← StopCondition.poll d.stop d.explorer.reported
  let d := { d with stop }
  if holds then return (some .stopped, d)
  let (node, explorer, _) ← d.explorer.nextNode none
  match node with
  | none => return (some .exhausted, { d with explorer })
  | some node =>
      let (explored, explorer) ← explorer.explore node
      match explored with
      | .solved s =>
          let statistics := explorer.statistics
          let statistics := { statistics with solutions := statistics.solutions + 1 }
          return (some (.solution s), { d with explorer := { explorer with statistics } })
      | .failed | .branched => return (none, { d with explorer })

/-- Search another tree; the statistics go on. -/
def reset (d : DepthFirst σ) (root : Space) : Journaled (DepthFirst σ) := do
  return { d with explorer := ← d.explorer.start root }

/-- What the path says about the explored part of the tree. -/
def noGoods (d : DepthFirst σ) : NoGoods × DepthFirst σ :=
  let noGoods := d.explorer.path.noGoods
  let statistics := d.explorer.statistics
  let statistics := { statistics with noGoods := statistics.noGoods + noGoods.size }
  (noGoods, { d with explorer := { d.explorer with statistics } })

end DepthFirst

end ConstraintSearch
