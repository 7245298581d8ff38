import ConstraintSearch.Search.Explorer
import ConstraintSearch.Search.Outcome
import ConstraintSearch.Table

/-!
# Search by several workers

Depth-first search and branch and bound with several workers. Each worker explores a subtree of its
own; a worker without work steals an unexplored alternative from another one.

The workers run in atomic sections, which may be interleaved in any order:

* `work`: take up the best solution, then explore one node, rebuild one, or give up an exhausted
  subtree;
* `leave`: a worker without a subtree is no longer counted as busy;
* `find`: steal from the first worker that has enough to give; the thief is counted as busy while
  the victim still is;
* `adopt`: begin with the stolen subtree;
* `report`: report a solution; a branch and bound drops one that is not better than the best
  solution known by then.

What a worker does next is determined by its `Phase`. `ParallelSearch.step` lets the workers take
turns. The search is over when nobody is busy. A fault of a worker stops the search.
-/

namespace ConstraintSearch

/-- What a worker does next. -/
inductive Phase
  | working
  | leaving
  | idle
  | adopting (s : Space) (edge : EdgeInfo)
  | reporting (s : Space)

structure Worker where
  explorer : Explorer
  phase : Phase
  /-- The best solution the worker knows of. -/
  best : Option Space
  mark : Nat
  /-- The number of best solutions that were found before `best` was taken up. -/
  generation : Nat

/-- The best solution of a branch and bound by several workers. -/
structure SharedBest where
  best : Option Space
  generation : Nat

structure ParallelSearch (σ : Type) where
  workers : Table Worker
  /-- Solutions that were found and not yet returned. -/
  solutions : List Space
  /-- The number of solutions that were found. -/
  found : Nat
  busy : Nat
  hasStopped : Bool
  /-- A worker ended in a fault. -/
  isBroken : Bool
  /-- `none` unless the search is a branch and bound. -/
  shared : Option SharedBest
  stop : σ
  /-- The statistics with which each worker last polled the stop condition. -/
  polled : Table Statistics
  stealLimit : Nat
  /-- The worker whose turn is next. -/
  turn : Nat
  /-- What all workers have recorded, in the order of their sections. -/
  events : Array TraceEvent

namespace Worker

def ofExplorer (explorer : Explorer) : Worker := ⟨explorer, .working, none, 0, 0⟩

/-- Take up the best solution known by now; the node being explored has to be better. -/
def update (w : Worker) (shared : Option SharedBest) : Except Fault Worker := do
  match shared with
  | none => return w
  | some shared =>
      if shared.generation = w.generation then return w
      else
        let w := { w with
          best := shared.best
          generation := shared.generation
          mark := w.explorer.path.length }
        match w.explorer.current, w.best with
        | some s, some best =>
            return { w with explorer := { w.explorer with current := some (← s.constrain best) } }
        | _, _ => return w

end Worker

namespace ParallelSearch

variable {σ : Type} [StopCondition σ]

/-- A search of the tree below a root by a number of workers. The first one begins at the root. -/
def start (root : Space) (threads : Nat) (optimising : Bool) (exploration : Exploration)
    (recorded : Bool) (stop : σ) : Journaled (ParallelSearch σ) := do
  let explorer (index : Nat) : Explorer :=
    Explorer.ofExploration exploration (Tracing.start index recorded)
  let first ← (explorer 0).start root
  let others := (List.range threads).drop 1 |>.map explorer
  Journaled.note (.workersStarted threads)
  return {
    workers := ⟨((first :: others).map Worker.ofExplorer).toArray⟩
    solutions := []
    found := 0
    busy := threads
    hasStopped := false
    isBroken := false
    shared := if optimising then some ⟨none, 0⟩ else none
    stop
    polled := ⟨Array.replicate threads .zero⟩
    stealLimit := exploration.stealLimit
    turn := 0
    events := first.tracing.events.getD #[] }

/-- A worker has become another one, and may have recorded something. -/
def store (p : ParallelSearch σ) (index : Nat) (before w : Worker) : ParallelSearch σ :=
  { p with
    workers := p.workers.set index w
    events := p.events ++ w.explorer.tracing.since before.explorer.tracing }

/-- Poll the stop condition with the statistics of all workers together. -/
def pollStop (p : ParallelSearch σ) (index : Nat) (statistics : Statistics) :
    Except Fault (Bool × ParallelSearch σ) := do
  let polled := p.polled.set index statistics
  let total ← polled.toList.foldlM Statistics.accumulate .zero
  let (holds, stop) ← StopCondition.poll p.stop total
  return (holds, { p with stop, polled })

/-- Explore one node, rebuild one, or give up an exhausted subtree. -/
def work (p : ParallelSearch σ) (index : Nat) (w : Worker) : Journaled (ParallelSearch σ) := do
  let w ← w.update p.shared
  match w.explorer.current with
  | some s =>
      let (holds, p) ← p.pollStop index w.explorer.reported
      if holds then return { p.store index w w with hasStopped := true }
      else
        let (explored, explorer) ← { w.explorer with current := none }.explore s
        match explored with
        | .solved s => return p.store index w { w with explorer, phase := .reporting s }
        | .failed | .branched => return p.store index w { w with explorer }
  | none =>
      if w.explorer.path.isEmpty then
        let path := { w.explorer.path with noGoodDepth := 0 }
        return p.store index w { w with explorer := { w.explorer with path }, phase := .leaving }
      else
        let bound : Option Bound := w.best.map fun best => ⟨best, w.mark⟩
        let (current, explorer, bound) ← w.explorer.nextNode bound
        return p.store index w { w with
          explorer := { explorer with current }
          mark := (bound.map Bound.mark).getD w.mark }

/-- A worker without a subtree is no longer busy. -/
def leave (p : ParallelSearch σ) (index : Nat) (w : Worker) : Except Fault (ParallelSearch σ) := do
  return { p with
    busy := ← lessen p.busy 1
    workers := p.workers.set index { w with phase := .idle } }

/-- Steal from the first of several workers that has enough to give. -/
def findAmong (p : ParallelSearch σ) (index : Nat) (w : Worker) :
    List Nat → Except Fault (ParallelSearch σ)
  | [] => return p
  | victim :: victims => do
      let v ← p.workers.fetch victim
      if !v.explorer.path.hasStealableWork p.stealLimit then findAmong p index w victims
      else
        match ← v.explorer.path.steal? p.stealLimit with
        | none => findAmong p index w victims
        | some (s, edge, path) =>
            let v := { v with explorer := { v.explorer with path } }
            let workers := p.workers.set victim v
            return { p with
              workers := workers.set index { w with phase := .adopting s edge }
              busy := p.busy + 1 }

/-- Steal from the workers that follow in turn. -/
def find (p : ParallelSearch σ) (index : Nat) (w : Worker) : Except Fault (ParallelSearch σ) :=
  let count := p.workers.size
  findAmong p index w ((List.range count).drop 1 |>.map fun offset => (index + offset) % count)

/-- Begin with a stolen subtree. -/
def adopt (p : ParallelSearch σ) (index : Nat) (w : Worker) (s : Space) (edge : EdgeInfo) :
    Except Fault (ParallelSearch σ) := do
  let s ← match w.best with
    | some best => s.constrain best
    | none => pure s
  return p.store index w
    { w with phase := .working, mark := 0, explorer := w.explorer.adopt s edge }

/-- Add a solution to those that were found. -/
def announce (p : ParallelSearch σ) (s : Space) : ParallelSearch σ :=
  { p with solutions := p.solutions ++ [s], found := p.found + 1 }

/-- Report a solution, if it is better than the best one known by now. -/
def report (p : ParallelSearch σ) (index : Nat) (w : Worker) (s : Space) :
    Journaled (ParallelSearch σ) := do
  let p := { p with workers := p.workers.set index { w with phase := .working } }
  match p.shared with
  | none => return p.announce s
  | some shared =>
      let (status, s) ← match shared.best with
        | some best => do (← s.constrain best).status
        | none => pure (SpaceStatus.solved, s)
      if status = .failed then return p
      else
        return { p with shared := some ⟨some s, shared.generation + 1⟩ }.announce s

/-- The next section of a worker. -/
def runSection (p : ParallelSearch σ) (index : Nat) : Journaled (ParallelSearch σ) := do
  let w ← p.workers.fetch index
  match w.phase with
  | .working => p.work index w
  | .leaving => p.leave index w
  | .idle => p.find index w
  | .adopting s edge => p.adopt index w s edge
  | .reporting s => p.report index w s

/-- Let the worker whose turn it is run one section, unless there is an outcome: solutions come
first, then a stop, then the end. -/
def step (p : ParallelSearch σ) : Journaled (Option Outcome × ParallelSearch σ) := do
  match p.solutions with
  | s :: solutions => return (some (.solution s), { p with solutions, hasStopped := false })
  | [] =>
      if p.hasStopped ∨ p.isBroken then return (some .stopped, { p with hasStopped := false })
      else if p.busy = 0 then return (some .exhausted, p)
      else
        let p := { p with turn := (p.turn + 1) % p.workers.size }
        let advanced ← tryCatch (p.runSection p.turn) fun _ => return { p with isBroken := true }
        return (none, advanced)

/-- Search another tree; the statistics go on. -/
def reset (p : ParallelSearch σ) (root : Space) : Journaled (ParallelSearch σ) := do
  let cleared := p.workers.toList.map fun w =>
    { w with phase := .working, best := none, mark := 0, explorer := w.explorer.clear : Worker }
  let (workers, recorded) ← match cleared with
    | [] => pure ([], #[])
    | first :: others => do
        let explorer ← first.explorer.start root
        pure ({ first with explorer } :: others, explorer.tracing.since first.explorer.tracing)
  return { p with
    workers := ⟨workers.toArray⟩
    events := p.events ++ recorded
    solutions := []
    busy := p.workers.size
    hasStopped := false
    shared := p.shared.map fun shared => ⟨none, shared.generation + 1⟩ }

/-- The counters of all workers together. -/
def statistics (p : ParallelSearch σ) : Except Fault Statistics := do
  let total ← p.workers.toList.foldlM
    (fun total w => total.accumulate w.explorer.reported) Statistics.zero
  return { total with solutions := p.found }

end ParallelSearch

end ConstraintSearch
