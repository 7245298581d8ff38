import ConstraintSearch.Search.Explorer
import ConstraintSearch.Search.Outcome

/-!
# Limited discrepancy search

The first alternative of a choice is taken to be the best guess, and alternative number `i` differs
from it by `i` discrepancies. The tree is explored in probes: probe number `d` reports the solutions
whose path has exactly `d` discrepancies, for `d = 0, 1, …` up to a limit.

A probe spends its discrepancies as early as possible and takes them back when it returns to a node
for its next alternative, from right to left. Once all are spent, only first alternatives remain. A
solution that is met with discrepancies left over was reported by an earlier probe.
-/

namespace ConstraintSearch

/-- A split node with alternatives left for the current probe. -/
structure ProbeNode where
  space : Space
  choice : Choice
  /-- The alternative that comes next; those before it follow. -/
  alternative : Nat
  id : NodeId
  depth : Nat

structure Probe where
  stack : List ProbeNode
  /-- The node to explore next, the edge that leads to it, and its depth. -/
  current : Option (Space × EdgeInfo × Nat)
  /-- The number of discrepancies that are left to spend. -/
  discrepancy : Nat
  /-- Whether no alternative was left out for lack of discrepancies. -/
  exhausted : Bool
  statistics : Statistics
  tracing : Tracing

namespace Probe

def ofTracing (tracing : Tracing) : Probe := ⟨[], none, 0, true, .zero, tracing⟩

/-- Begin a probe below a root with a number of discrepancies. -/
def reset (p : Probe) (root : Option Space) (discrepancy : Nat) : Probe :=
  { p with
    tracing := p.tracing.round
    stack := []
    current := root.map fun s => (s, .root, 0)
    discrepancy
    exhausted := true }

/-- The node below the next alternative of the node on top of the stack. Its discrepancy is taken
back. -/
def resume (p : Probe) (top : ProbeNode) (rest : List ProbeNode) :
    Except Fault ((Space × EdgeInfo × Nat) × Probe) := do
  let s ← top.space.commit top.choice top.alternative
  let edge ← p.tracing.edge top.id top.choice top.alternative
  let stack :=
    if top.alternative = 0 then rest
    else { top with alternative := top.alternative - 1 } :: rest
  return ((s, edge, top.depth + 1), { p with stack, discrepancy := p.discrepancy + 1 })

/-- Split a node: spend as many discrepancies as it has alternatives for, and keep the node for the
alternatives that spend fewer. -/
def split (p : Probe) (s : Space) (choice : Choice) (id : NodeId) (depth : Nat) :
    Except Fault Probe := do
  let taken := min p.discrepancy (choice.alternatives - 1)
  let first ← s.commit choice taken
  let edge ← p.tracing.edge id choice taken
  return { p with
    exhausted := p.exhausted && choice.alternatives - 1 ≤ p.discrepancy
    stack := if taken = 0 then p.stack else ⟨s, choice, taken - 1, id, depth⟩ :: p.stack
    discrepancy := p.discrepancy - taken
    current := some (first, edge, depth + 1) }

/-- Explore a node. Returns the solution if it is one that no earlier probe has reported. -/
def explore (p : Probe) (s : Space) (edge : EdgeInfo) (depth : Nat) :
    Journaled (Option Space × Probe) := do
  let (id, tracing) := p.tracing.nextNode
  let (status, s, statistics) ←
    statusOf s { p.statistics with nodes := p.statistics.nodes + 1 }
  let p := { p with tracing, statistics }
  match status with
  | .failed =>
      let statistics := { p.statistics with fails := p.statistics.fails + 1 }
      return (none, { p with statistics, tracing := p.tracing.node edge id .failed })
  | .solved =>
      let p := { p with tracing := p.tracing.node edge id .solved }
      return (if p.discrepancy = 0 then some s else none, p)
  | .branch =>
      let (choice, s) ← s.choice
      let statistics := { p.statistics with depth := max p.statistics.depth (depth + 1) }
      let tracing := p.tracing.node edge id (.branch choice.alternatives)
      return (none, ← { p with statistics, tracing }.split s choice id depth)

end Probe

structure LimitedDiscrepancy (σ : Type) where
  probe : Probe
  /-- The root for the probes to come. -/
  root : Option Space
  /-- The number of the current probe. -/
  discrepancy : Nat
  limit : Nat
  stop : σ

namespace LimitedDiscrepancy

variable {σ : Type} [StopCondition σ]

/-- Search the tree below a root from the first probe on. -/
def reset (l : LimitedDiscrepancy σ) (root : Space) : Journaled (LimitedDiscrepancy σ) := do
  let (status, root, statistics) ← statusOf root l.probe.statistics
  if status = .failed then
    let probe := { l.probe with statistics := { statistics with fails := statistics.fails + 1 } }
    return { l with discrepancy := 0, root := none, probe := probe.reset none 0 }
  else
    let probe := { l.probe with statistics }
    return { l with
      discrepancy := 0
      root := if 0 < l.limit then some root else none
      probe := probe.reset (some root) 0 }

/-- A search of the tree below a root with probes up to a number of discrepancies. -/
def start (root : Space) (limit : Nat) (tracing : Tracing) (stop : σ) :
    Journaled (LimitedDiscrepancy σ) :=
  reset ⟨Probe.ofTracing tracing, none, 0, limit, stop⟩ root

/-- Explore a node of the probe. -/
def explore (l : LimitedDiscrepancy σ) (s : Space) (edge : EdgeInfo) (depth : Nat) :
    Journaled (Option Outcome × LimitedDiscrepancy σ) := do
  let (solution, probe) ← { l.probe with current := none }.explore s edge depth
  match solution with
  | none => return (none, { l with probe })
  | some s =>
      let statistics := probe.statistics
      let statistics := { statistics with solutions := statistics.solutions + 1 }
      return (some (.solution s), { l with probe := { probe with statistics } })

/-- Begin the next probe, unless the last one has seen the whole tree. -/
def nextProbe (l : LimitedDiscrepancy σ) : Option Outcome × LimitedDiscrepancy σ :=
  if l.probe.exhausted ∨ l.limit ≤ l.discrepancy then (some .exhausted, l)
  else
    let discrepancy := l.discrepancy + 1
    let l := { l with discrepancy }
    match l.root with
    | none => (some .exhausted, l)
    | some root =>
        (none, { l with
          root := if discrepancy = l.limit then none else some root
          probe := l.probe.reset (some root) discrepancy })

/-- Explore one node, or begin the next probe. The stop condition is polled before the search
returns to a node for its next alternative. -/
def step (l : LimitedDiscrepancy σ) : Journaled (Option Outcome × LimitedDiscrepancy σ) := do
  match l.probe.current, l.probe.stack with
  | some (s, edge, depth), _ => l.explore s edge depth
  | none, [] => return l.nextProbe
  | none, top :: rest =>
      let (holds, stop) ← StopCondition.poll l.stop l.probe.statistics
      let l := { l with stop }
      if holds then return (some .stopped, l)
      let ((s, edge, depth), probe) ← l.probe.resume top rest
      { l with probe }.explore s edge depth

/-- Whether no solution was left out for lack of discrepancies. -/
def isComplete (l : LimitedDiscrepancy σ) : Bool := l.probe.exhausted

end LimitedDiscrepancy

end ConstraintSearch
