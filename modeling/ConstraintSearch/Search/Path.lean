import ConstraintSearch.Search.NoGoods
import ConstraintSearch.Search.Trace

/-!
# The path of a search

The path from the root of the search tree to the node that is explored next. Each edge belongs to a
node that was split: it holds the choice made there and the alternative that is being explored.
Copies of nodes are stored on some of the edges; every other node is rebuilt from the closest copy
above it by replaying the alternatives on the path.

The edges are listed from the deepest one to the root, so that the top of the path is the head of
the list. The depth of an edge is the number of edges behind it.

* `Path.push`, `Path.advance`, `Path.unwind` follow a depth-first search;
* `Path.lastCopy?` and `replay` rebuild a node;
* `Path.steal?` gives away an unexplored alternative;
* `Path.noGoods` are the explored parts of the tree.

Two counters are kept along: the number of edges with alternatives left, and the memory of the
copies. A counter that would fall below zero is a fault.
-/

namespace ConstraintSearch

structure Edge where
  /-- The node as it was before any alternative was committed. -/
  space : Option Space
  /-- The memory that was counted for the copy when it was stored. -/
  memory : Nat
  choice : Choice
  /-- The alternative that is being explored. -/
  alternative : Nat
  /-- The last alternative that this path has to explore; alternatives behind it were given away. -/
  last : Nat
  node : NodeId

namespace Edge

/-- The alternative being explored; an edge whose copy was used up points one too far. -/
def taken (e : Edge) : Nat := min e.alternative (e.choice.alternatives - 1)

def isRightmost (e : Edge) : Bool := e.last ≤ e.alternative

/-- The last alternative was explored with the copy of the edge itself; the edge is only kept for
the no-goods. -/
def isUsedUp (e : Edge) : Bool := e.last < e.alternative

/-- Whether an alternative is left to explore or to give away. -/
def hasWork (e : Edge) : Bool := e.alternative < e.last

/-- Commit the alternative being explored. -/
def commit (e : Edge) (s : Space) : Except Fault Space := s.commit e.choice e.taken

end Edge

/-- Replay the alternatives of edges, listed from the root downwards. -/
def replay (s : Space) : List Edge → Except Fault Space
  | [] => return s
  | e :: es => do replay (← e.commit s) es

/-- A counter less an amount. -/
def lessen (counter amount : Nat) : Except Fault Nat :=
  if amount ≤ counter then .ok (counter - amount) else .error .negativeCounter

structure Path where
  /-- The edges, the deepest one first. -/
  edges : List Edge
  /-- No-goods are taken from the edges above this depth only. -/
  noGoodDepth : Nat
  /-- The number of edges with alternatives left. -/
  edgesWithWork : Nat
  /-- The memory of the copies on the path. -/
  memory : Nat

namespace Path

def empty (noGoodDepth : Nat) : Path := ⟨[], noGoodDepth, 0, 0⟩

def isEmpty (p : Path) : Bool := p.edges.isEmpty

def length (p : Path) : Nat := p.edges.length

/-- The edge along which the next node is reached. -/
def topEdge? (p : Path) : Except Fault (Option EdgeInfo) := do
  match p.edges with
  | [] => return none
  | e :: _ => return some (← EdgeInfo.ofChoice e.node e.choice e.taken)

/-- Remove the top edge. -/
def pop (p : Path) : Except Fault Path := do
  match p.edges with
  | [] => return p
  | e :: edges =>
      let memory ← lessen p.memory e.memory
      let edgesWithWork ← if e.hasWork then lessen p.edgesWithWork 1 else pure p.edgesWithWork
      return { p with edges, memory, edgesWithWork }

/-- Add the edge of a split node, with a copy of the node if one is given. An edge at the top that
is used up makes room for it. -/
def push [MemoryMeasure] (p : Path) (choice : Choice) (copy : Option Space) (node : NodeId) :
    Except Fault Path := do
  let p ← match p.edges with
    | e :: _ => if e.isUsedUp then p.pop else pure p
    | [] => pure p
  let memory := (copy.map (·.memory)).getD 0
  let last := choice.alternatives - 1
  return { p with
    edges := ⟨copy, memory, choice, 0, last, node⟩ :: p.edges
    memory := p.memory + memory
    edgesWithWork := if 0 < last then p.edgesWithWork + 1 else p.edgesWithWork }

/-- Move on to the next node: drop edges without alternatives from the top, and advance the
alternative of the edge below them. An exhausted path becomes empty. -/
def advanceWithin : Nat → Path → Except Fault Path
  | 0, p => return p
  | steps + 1, p => do
      match p.edges with
      | [] => return p
      | e :: edges =>
          if e.isRightmost then advanceWithin steps (← p.pop)
          else
            let e := { e with alternative := e.alternative + 1 }
            let edgesWithWork ←
              if e.hasWork then pure p.edgesWithWork else lessen p.edgesWithWork 1
            return { p with edges := e :: edges, edgesWithWork }

/-- Move on to the next node. -/
def advance (p : Path) : Except Fault Path := advanceWithin (p.length + 1) p

/-- The edges above a depth, with the copy closest to that depth: the edges below the copy, the
edge and its copy, and the edges above it. -/
def splitAtCopy? : List Edge → Option (List Edge × Edge × Space × List Edge)
  | [] => none
  | e :: edges =>
      match e.space with
      | some s => some ([], e, s, edges)
      | none =>
          (splitAtCopy? edges).map fun (below, copy, s, above) => (e :: below, copy, s, above)

/-- Report the alternatives of an edge from `first` on as skipped. -/
def skipFrom (e : Edge) (first : Nat) (t : Tracing) : Except Fault Tracing :=
  (List.range (e.last + 1 - first)).foldlM
    (fun t i => return t.skip (← EdgeInfo.ofChoice e.node e.choice (first + i)))
    t

/-- Remove edges from the top until `depth` edges are left, and report the alternatives that will
never be explored. The alternative below the top edge was not reached either. -/
def unwindWithin (depth : Nat) : Nat → Bool → Path → Tracing → Except Fault (Path × Tracing)
  | 0, _, p, t => return (p, t)
  | steps + 1, isTop, p, t => do
      match p.edges with
      | [] => return (p, t)
      | e :: edges =>
          if edges.length < depth then return (p, t)
          else
            let p ← p.pop
            let first := if isTop then e.alternative else e.alternative + 1
            let t ← if t.isActive then skipFrom e first t else pure t
            unwindWithin depth steps false p t

/-- Remove the edges from `depth` on. -/
def unwind (p : Path) (depth : Nat) (t : Tracing) : Except Fault (Path × Tracing) :=
  unwindWithin depth p.length true p t

/-- Whether an alternative can be given away such that edges with alternatives remain, `limit` of
them at least. -/
def hasStealableWork (p : Path) (limit : Nat) : Bool := limit < p.edgesWithWork

/-- The deepest edge that has `limit` edges with alternatives below it and is the next one with
alternatives itself: the edges below it, the edge, and the edges above it. -/
def stealable? (limit : Nat) : Nat → List Edge → Option (List Edge × Edge × List Edge)
  | _, [] => none
  | work, e :: edges =>
      let work := if e.hasWork then work + 1 else work
      if limit < work then some ([], e, edges)
      else
        (stealable? limit work edges).map fun (below, found, above) => (e :: below, found, above)

/-- Give away the last alternative of an edge, leaving `limit` edges with alternatives on the path
at least. Returns the node below that alternative, the edge that leads to it, and the path that is
left. -/
def steal? (p : Path) (limit : Nat) : Except Fault (Option (Space × EdgeInfo × Path)) := do
  match stealable? limit 0 p.edges with
  | none => return none
  | some (below, e, above) =>
      match splitAtCopy? (e :: above) with
      | none => return none
      | some (between, copy, s, _) =>
          let replayed := match between with
            | [] => []
            | _ :: between => copy :: between.reverse
          let s ← replay s replayed
          let s ← s.commit e.choice e.last
          let info ← EdgeInfo.ofChoice e.node e.choice e.last
          let robbed := { e with last := e.last - 1 }
          let edgesWithWork ←
            if robbed.hasWork then pure p.edgesWithWork else lessen p.edgesWithWork 1
          return some (s, info, { p with edges := below ++ robbed :: above, edgesWithWork })

/-- The explored alternatives along the path, down to the no-good depth. -/
def noGoods (p : Path) : NoGoods :=
  ⟨(p.edges.reverse.take p.noGoodDepth).map fun e => (e.choice, e.taken)⟩

end Path

end ConstraintSearch
