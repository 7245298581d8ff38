import ConstraintSearch.Search.BranchAndBound
import ConstraintSearch.Search.DepthFirst
import ConstraintSearch.Search.Parallel

/-!
# Complete searches

The searches that explore the whole tree if nobody stops them: depth-first search and branch and
bound, by one worker or by several.
-/

namespace ConstraintSearch

inductive CompleteSearch (σ : Type)
  | depthFirst (search : DepthFirst σ)
  | branchAndBound (search : BranchAndBound σ)
  | parallel (search : ParallelSearch σ)

namespace CompleteSearch

variable {σ : Type} [StopCondition σ]

/-- A search of the tree below a root. -/
def start (root : Space) (threads : Nat) (optimising : Bool) (exploration : Exploration)
    (recorded : Bool) (stop : σ) : Journaled (CompleteSearch σ) := do
  let tracing := Tracing.start 0 recorded
  if 1 < threads then
    return parallel (← ParallelSearch.start root threads optimising exploration recorded stop)
  else if optimising then
    return branchAndBound (← BranchAndBound.start root exploration tracing stop)
  else return depthFirst (← DepthFirst.start root exploration tracing stop)

def step : CompleteSearch σ → Journaled (Option Outcome × CompleteSearch σ)
  | depthFirst search => do
      let (outcome, search) ← search.step
      return (outcome, depthFirst search)
  | branchAndBound search => do
      let (outcome, search) ← search.step
      return (outcome, branchAndBound search)
  | parallel search => do
      let (outcome, search) ← search.step
      return (outcome, parallel search)

/-- Search another tree; the statistics go on. -/
def reset (root : Space) : CompleteSearch σ → Journaled (CompleteSearch σ)
  | depthFirst search => do return depthFirst (← search.reset root)
  | branchAndBound search => do return branchAndBound (← search.reset root)
  | parallel search => do return parallel (← search.reset root)

def statistics : CompleteSearch σ → Except Fault Statistics
  | depthFirst search => return search.explorer.reported
  | branchAndBound search => return search.explorer.reported
  | parallel search => search.statistics

/-- What the path says about the explored part of the tree; several workers say nothing. -/
def noGoods : CompleteSearch σ → NoGoods × CompleteSearch σ
  | depthFirst search =>
      let (noGoods, search) := search.noGoods
      (noGoods, depthFirst search)
  | branchAndBound search =>
      let (noGoods, search) := search.noGoods
      (noGoods, branchAndBound search)
  | parallel search => (∅, parallel search)

def stop : CompleteSearch σ → σ
  | depthFirst search => search.stop
  | branchAndBound search => search.stop
  | parallel search => search.stop

/-- The search with another stop condition. -/
def withStop (stop : σ) : CompleteSearch σ → CompleteSearch σ
  | depthFirst search => depthFirst { search with stop }
  | branchAndBound search => branchAndBound { search with stop }
  | parallel search => parallel { search with stop }

/-- The events that were recorded. -/
def events : CompleteSearch σ → List TraceEvent
  | depthFirst search => eventsOf search.explorer
  | branchAndBound search => eventsOf search.explorer
  | parallel search => search.events.toList
where
  eventsOf (e : Explorer) : List TraceEvent := (e.tracing.events.map Array.toList).getD []

end CompleteSearch

end ConstraintSearch
