import ConstraintSearch.Branching.Choice

/-!
# The trace of a search

The events from which the explored tree can be rebuilt: nodes with the edge that leads to them, and
edges that are skipped. A node is named by the worker that explored it and by its number among the
nodes of that worker.

`Tracing` is the state of a worker: the number of its next node, and the events so far if they are
recorded.
-/

namespace ConstraintSearch

structure NodeId where
  worker : Nat
  index : Nat
  deriving DecidableEq, Repr

def NodeId.text (id : NodeId) : String := toString id.worker ++ "." ++ toString id.index

/-- The edge that leads to a node. -/
structure EdgeInfo where
  /-- `none` for the root. -/
  parent : Option NodeId
  alternative : Nat
  description : String
  deriving DecidableEq, Repr

/-- The edge that leads to the root. -/
def EdgeInfo.root : EdgeInfo := ⟨none, 0, ""⟩

/-- The edge that an alternative of a choice leads along. -/
def EdgeInfo.ofChoice (parent : NodeId) (choice : Choice) (alternative : Nat) :
    Except Fault EdgeInfo := do
  return ⟨some parent, alternative, ← choice.describe alternative⟩

inductive NodeKind
  | branch (alternatives : Nat)
  | solved
  | failed
  deriving DecidableEq, Repr

inductive TraceEvent
  /-- A worker starts to explore a tree. -/
  | round (worker : Nat)
  | node (edge : EdgeInfo) (id : NodeId) (kind : NodeKind)
  /-- An alternative of an explored node will not be explored. -/
  | skip (edge : EdgeInfo)
  /-- The search has ended. -/
  | done
  deriving DecidableEq, Repr

structure Tracing where
  worker : Nat
  next : Nat
  /-- The events so far; `none` if they are not recorded. -/
  events : Option (Array TraceEvent)

namespace Tracing

def start (worker : Nat) (recorded : Bool) : Tracing :=
  ⟨worker, 0, if recorded then some #[] else none⟩

def isActive (t : Tracing) : Bool := t.events.isSome

/-- The name of the next node. -/
def nextNode (t : Tracing) : NodeId × Tracing := (⟨t.worker, t.next⟩, { t with next := t.next + 1 })

def record (t : Tracing) (event : TraceEvent) : Tracing :=
  { t with events := t.events.map (·.push event) }

def round (t : Tracing) : Tracing := t.record (.round t.worker)

/-- Report a node. -/
def node (t : Tracing) (edge : EdgeInfo) (id : NodeId) (kind : NodeKind) : Tracing :=
  t.record (.node edge id kind)

def skip (t : Tracing) (edge : EdgeInfo) : Tracing := t.record (.skip edge)

/-- What was recorded after an earlier time. -/
def since (t earlier : Tracing) : Array TraceEvent :=
  match t.events, earlier.events with
  | some events, some before => events.extract before.size events.size
  | _, _ => #[]

/-- The edge along an alternative, described only if somebody listens. -/
def edge (t : Tracing) (parent : NodeId) (choice : Choice) (alternative : Nat) :
    Except Fault EdgeInfo :=
  if t.isActive then EdgeInfo.ofChoice parent choice alternative else return .root

end Tracing

end ConstraintSearch
