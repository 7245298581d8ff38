import ConstraintSearch.Search.Path
import ConstraintSearch.Search.Stop

/-!
# Depth-first exploration

The exploration of a subtree, shared by the depth-first engines. Nodes are not copied at every
split: a copy is stored on the path every `copyDistance` commits, and a node without a copy is
rebuilt from the closest copy above it.

* `Explorer.start` begins with a root, `Explorer.adopt` with a subtree taken over from elsewhere;
* `Explorer.nextNode` is the node to explore next, rebuilt by `Explorer.rebuild` if necessary;
* `Explorer.explore` propagates a node and either drops it, returns it as a solution, or splits it
  and continues with its first alternative.

With a `Bound`, every copy on the path is constrained by the best solution before it is used again;
the mark says up to which depth copies may not be constrained yet.
-/

namespace ConstraintSearch

/-- The distances and limits of an exploration. -/
structure Exploration where
  /-- The greatest number of commits between two copies on the path. -/
  copyDistance : Nat := 8
  /-- A node that is rebuilt by so many commits leaves a copy halfway. -/
  adaptiveDistance : Nat := 2
  /-- No-goods are taken from so many edges of the path. -/
  noGoodsLimit : Nat := 128
  /-- A path from which work is stolen keeps so many edges with alternatives. -/
  stealLimit : Nat := 3
  deriving DecidableEq, Repr

/-- The best solution of a branch and bound, and the depth from which on the copies on the path
were made after it was found. -/
structure Bound where
  best : Space
  mark : Nat

/-- The status of a node, and the propagator runs added to the statistics. -/
def statusOf (s : Space) (statistics : Statistics) :
    Journaled (SpaceStatus × Space × Statistics) := do
  let before := s.propagations
  let (status, s) ← s.status
  return (status, s,
    { statistics with propagations := statistics.propagations + (s.propagations - before) })

structure Explorer where
  path : Path
  /-- The node to explore next, unless it has to be rebuilt. -/
  current : Option Space
  /-- The number of commits since the last copy was stored on the path. -/
  distance : Nat
  statistics : Statistics
  tracing : Tracing
  /-- The edge that leads to the root of the subtree. -/
  rootEdge : EdgeInfo
  exploration : Exploration

/-- What became of an explored node. -/
inductive Explored
  | failed
  | solved (s : Space)
  | branched

namespace Explorer

def ofExploration (exploration : Exploration) (tracing : Tracing) : Explorer :=
  ⟨Path.empty exploration.noGoodsLimit, none, 0, .zero, tracing, .root, exploration⟩

/-- Explore the tree below a root, and forget what was explored before. The statistics go on. A
root that fails leaves nothing to explore. -/
def start (e : Explorer) (root : Space) : Journaled Explorer := do
  let e := { e with
    tracing := e.tracing.round
    path := Path.empty e.exploration.noGoodsLimit
    distance := 0
    rootEdge := .root }
  let (status, root, statistics) ← statusOf root e.statistics
  if status = .failed then
    return { e with
      statistics := { statistics with fails := statistics.fails + 1 }
      current := none }
  else return { e with statistics, current := some root }

/-- Explore a subtree that was taken over. -/
def adopt (e : Explorer) (root : Space) (edge : EdgeInfo) : Explorer :=
  { e with
    tracing := e.tracing.round
    path := Path.empty 0
    distance := 0
    rootEdge := edge
    current := some root }

/-- Give up the subtree. -/
def clear (e : Explorer) : Explorer :=
  { e with path := Path.empty 0, distance := 0, current := none }

/-- The memory of the copies on the path and of the current node. -/
def memory [MemoryMeasure] (e : Explorer) : Nat := e.path.memory + (e.current.map (·.memory)).getD 0

/-- The statistics with the memory as it is now. -/
def reported [MemoryMeasure] (e : Explorer) : Statistics := { e.statistics with memory := e.memory }

/-- A node turned out to be failed while it was rebuilt: the path is unwound to its depth. -/
def failAt (e : Explorer) (depth : Nat) (bound : Option Bound) :
    Journaled (Option Space × Explorer × Option Bound) := do
  let statistics := { e.statistics with fails := e.statistics.fails + 1 }
  let (path, tracing) ← e.path.unwind depth e.tracing
  return (none, { e with path, tracing, statistics }, bound)

/-- Explore the last alternative of the top edge in the copy of the edge itself. An edge within the
no-good depth stays on the path as it is, an edge beyond that depth is used up. -/
def reuseTop (e : Explorer) (top : Edge) (copy : Space) (edges : List Edge)
    (bound : Option Bound) : Journaled (Option Space × Explorer × Option Bound) := do
  let depth := edges.length
  let memory ← lessen e.path.memory top.memory
  let s ← copy.commit top.choice top.alternative
  let (s, bound) ← match bound with
    | some b =>
        if depth < b.mark then pure (← s.constrain b.best, some { b with mark := depth })
        else pure (s, bound)
    | none => pure (s, bound)
  let alternative :=
    if e.path.noGoodDepth < depth + 1 then top.alternative + 1 else top.alternative
  let top := { top with space := none, memory := 0, alternative }
  return (some s, { e with path := { e.path with edges := top :: edges, memory }, distance := 0 },
    bound)

/-- Replay the edges from a copy downwards, and leave another copy halfway: on the first edge in
the lower half that is not rightmost, unless it is the top. `above` are the edges before the
replayed ones, listed from the deepest one. -/
def replayHalfway [MemoryMeasure] (e : Explorer) (s : Space) (segment : List Edge)
    (above : List Edge) (bound : Option Bound) :
    Journaled (Option Space × Explorer × Option Bound) := do
  let upper := segment.take (segment.length / 2)
  let lower := segment.drop (segment.length / 2)
  let skipped := lower.takeWhile (·.isRightmost)
  let s ← replay s (upper ++ skipped)
  match lower.dropWhile (·.isRightmost) with
  | first :: second :: rest =>
      let (status, s, statistics) ← statusOf s e.statistics
      let e := { e with statistics }
      let depth := above.length + upper.length + skipped.length
      if status = .failed then e.failAt depth bound
      else
        let memory := (← lessen e.path.memory first.memory) + s.memory
        let stored := { first with space := some s, memory := s.memory }
        let kept := (skipped.reverse ++ upper.reverse) ++ above
        let edges := (second :: rest).reverse ++ stored :: kept
        let s ← replay s (first :: second :: rest)
        return (some s,
          { e with path := { e.path with edges, memory }, distance := rest.length + 2 }, bound)
  | remaining =>
      let s ← replay s remaining
      return (some s, e, bound)

/-- Rebuild the node that the path points to. `none` if a node above it turns out to be failed; the
path then ends above that node and has to be advanced. -/
def rebuild [MemoryMeasure] (e : Explorer) (bound : Option Bound) :
    Journaled (Option Space × Explorer × Option Bound) := do
  match e.path.edges with
  | [] => throw .brokenCondition
  | top :: edges =>
      match top.space, top.isRightmost with
      | some copy, true => e.reuseTop top copy edges bound
      | _, _ =>
          match Path.splitAtCopy? (top :: edges) with
          | none => throw .missingCopy
          | some (below, edge, copy, above) =>
              let depth := above.length
              let e := { e with distance := below.length + 1 }
              let (status, copy, e, bound) ← match bound with
                | some b =>
                    if depth < b.mark then do
                      let copy ← copy.constrain b.best
                      let (status, copy, statistics) ← statusOf copy e.statistics
                      let edges := below ++ { edge with space := some copy } :: above
                      pure (status, copy,
                        { e with statistics, path := { e.path with edges } },
                        some { b with mark := depth })
                    else pure (SpaceStatus.branch, copy, e, bound)
                | none => pure (SpaceStatus.branch, copy, e, bound)
              if status = .failed then e.failAt depth bound
              else
                let segment := { edge with space := some copy } :: below.reverse
                if e.distance < e.exploration.adaptiveDistance then
                  return (some (← replay copy segment), e, bound)
                else e.replayHalfway copy segment above bound

/-- The node to explore next; `none` once the subtree is exhausted. Each failed rebuilding makes the
path shorter. -/
def nextNodeWithin [MemoryMeasure] : Nat → Explorer → Option Bound →
    Journaled (Option Space × Explorer × Option Bound)
  | 0, _, _ => throw .unfinished
  | steps + 1, e, bound =>
      match e.current with
      | some s => return (some s, { e with current := none }, bound)
      | none => do
          if e.path.isEmpty then return (none, e, bound)
          let (current, e, bound) ← e.rebuild bound
          match current with
          | some s => return (some s, e, bound)
          | none => nextNodeWithin steps { e with path := ← e.path.advance } bound

/-- The node to explore next; `none` once the subtree is exhausted. -/
def nextNode [MemoryMeasure] (e : Explorer) (bound : Option Bound) :
    Journaled (Option Space × Explorer × Option Bound) :=
  nextNodeWithin (e.path.length + 1) e bound

/-- The edge that leads to the node being explored. -/
def edgeInfo (e : Explorer) : Except Fault EdgeInfo := do
  return (← e.path.topEdge?).getD e.rootEdge

/-- Report the node that was explored. -/
def reportNode (e : Explorer) (edge : Option EdgeInfo) (id : NodeId) (kind : NodeKind) :
    Explorer :=
  match edge with
  | some edge => { e with tracing := e.tracing.node edge id kind }
  | none => e

/-- Propagate a node and act on its status. -/
def explore [MemoryMeasure] (e : Explorer) (s : Space) : Journaled (Explored × Explorer) := do
  let edge ← if e.tracing.isActive then do pure (some (← e.edgeInfo)) else pure none
  let (id, tracing) := e.tracing.nextNode
  let (status, s, statistics) ←
    statusOf s { e.statistics with nodes := e.statistics.nodes + 1 }
  let e := { e with tracing, statistics }
  match status with
  | .failed =>
      let statistics := { e.statistics with fails := e.statistics.fails + 1 }
      let e := { e with statistics, path := ← e.path.advance }
      return (.failed, e.reportNode edge id .failed)
  | .solved =>
      let e := { e with path := ← e.path.advance }
      return (.solved s, e.reportNode edge id .solved)
  | .branch =>
      let copied := e.distance = 0 ∨ e.exploration.copyDistance ≤ e.distance
      let distance := if copied then 1 else e.distance + 1
      let (choice, split) ← s.choice
      let path ← e.path.push choice (if copied then some s else none) id
      let statistics := { e.statistics with depth := max e.statistics.depth path.length }
      let first ← split.commit choice 0
      let e := { e with path, statistics, distance, current := some first }
      return (.branched, e.reportNode edge id (.branch choice.alternatives))

end Explorer

end ConstraintSearch
