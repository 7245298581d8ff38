import ConstraintSearch.Search.LimitedDiscrepancy
import ConstraintSearch.Search.Restarts

/-!
# Search engines

An engine searches the tree of a space for solutions and returns them one by one.

* `Engine.start` begins a search of a given kind, or refuses options that make no sense;
* `Engine.next` returns the next solution, or none if the tree is exhausted or the stop condition
  held; `Engine.hasStopped` tells these apart, and a search that was stopped goes on when it is
  asked again;
* `Engine.take` returns several solutions;
* `Engine.isComplete` says whether an exhausted search has seen the whole tree;
* `Engine.reset` searches another tree.
-/

namespace ConstraintSearch

inductive EngineKind
  /-- Every solution, depth first. -/
  | depthFirst
  /-- Solutions of increasing quality. -/
  | branchAndBound
  /-- Solutions in the order of their discrepancies. -/
  | limitedDiscrepancy
  /-- One of the first two, begun again after a number of failures. -/
  | restarts
  deriving DecidableEq, Repr

def EngineKind.text : EngineKind → String
  | .depthFirst => "dfs"
  | .branchAndBound => "bab"
  | .limitedDiscrepancy => "lds"
  | .restarts => "rbs"

/-- The options of a search, for a type of stop conditions and one of cutoff sequences. -/
structure SearchOptions (σ : Type := Stop) (ρ : Type := Sequence) where
  exploration : Exploration := {}
  /-- The number of workers. -/
  threads : Nat := 1
  stop : Option σ := none
  /-- Whether the space is copied. Otherwise it is taken, and an empty space is left. -/
  copiesSpace : Bool := true
  /-- The greatest number of discrepancies of a solution. -/
  discrepancyLimit : Nat := 3
  /-- The limits of failures between two restarts. -/
  cutoffs : ρ := by exact Sequence.ofKind .geometric 250 1.5
  /-- Whether the events of the search are recorded. -/
  isTraced : Bool := false

/-- The state of a search. -/
inductive Search (σ : Type := Stop) (ρ : Type := Sequence)
  | complete (search : CompleteSearch (Option σ))
  | limitedDiscrepancy (search : LimitedDiscrepancy (Option σ))
  | restarts (search : Restarts (Option σ) ρ)

namespace Search

variable {σ ρ : Type} [StopCondition σ] [CutoffSequence ρ]

/-- Begin a search of the tree below a root. -/
def start (kind : EngineKind) (root : Space) (options : SearchOptions σ ρ) :
    Journaled (Search σ ρ) := do
  let completeSearch (optimising : Bool) : Journaled (Search σ ρ) := do
    return complete (← CompleteSearch.start root options.threads optimising options.exploration
      options.isTraced options.stop)
  match kind with
  | .depthFirst => completeSearch false
  | .branchAndBound => completeSearch true
  | .limitedDiscrepancy =>
      return limitedDiscrepancy (← LimitedDiscrepancy.start root options.discrepancyLimit
        (Tracing.start 0 options.isTraced) options.stop)
  | .restarts =>
      return restarts (← Restarts.start root options.threads options.exploration options.isTraced
        options.cutoffs options.stop)

/-- One step of the search; it explores at most one node. -/
def step : Search σ ρ → Journaled (Option Outcome × Search σ ρ)
  | complete search => do
      let (outcome, search) ← search.step
      return (outcome, complete search)
  | limitedDiscrepancy search => do
      let (outcome, search) ← search.step
      return (outcome, limitedDiscrepancy search)
  | restarts search => do
      let (outcome, search) ← search.step
      return (outcome, restarts search)

/-- Search another tree; the statistics go on. -/
def reset (root : Space) : Search σ ρ → Journaled (Search σ ρ)
  | complete search => do return complete (← search.reset root)
  | limitedDiscrepancy search => do return limitedDiscrepancy (← search.reset root)
  | restarts search => return restarts (search.reset root)

def statistics : Search σ ρ → Except Fault Statistics
  | complete search => search.statistics
  | limitedDiscrepancy search => return search.probe.statistics
  | restarts search => search.reported

/-- What the path says about the explored part of the tree; the probes of a limited discrepancy
search have no path. -/
def noGoods : Search σ ρ → NoGoods × Search σ ρ
  | complete search =>
      let (noGoods, search) := search.noGoods
      (noGoods, complete search)
  | limitedDiscrepancy search => (∅, limitedDiscrepancy search)
  | restarts search =>
      let (noGoods, inner) := search.inner.noGoods
      (noGoods, restarts { search with inner })

/-- Whether the search, once it is exhausted, has seen the whole tree. -/
def isComplete : Search σ ρ → Bool
  | limitedDiscrepancy search => search.isComplete
  | complete _ | restarts _ => true

def events : Search σ ρ → List TraceEvent
  | complete search => search.events
  | limitedDiscrepancy search => (search.probe.tracing.events.map Array.toList).getD []
  | restarts search => search.inner.events

end Search

structure Engine (σ : Type := Stop) (ρ : Type := Sequence) where
  search : Search σ ρ
  /-- The last search for a solution ended because the stop condition held. -/
  hasStopped : Bool
  isTraced : Bool

namespace Engine

variable {σ ρ : Type} [StopCondition σ] [CutoffSequence ρ]

/-- Begin a search of a space. Returns the engine and what is left of the space. -/
def start (kind : EngineKind) (s : Space) (options : SearchOptions σ ρ) :
    JournaledRequest (Engine σ ρ × Space) := do
  if options.threads = 0 then throw (.invalidOption "the number of threads must be positive")
  if kind = .branchAndBound ∧ s.objective.isNone then throw .missingObjective
  if kind = .limitedDiscrepancy ∧ 1 < options.threads then Journaled.note .threadsIgnored
  let search ← Search.start kind s options
  return (⟨search, false, options.isTraced⟩, if options.copiesSpace then s else default)

/-- The next solution, if there is one within a number of steps. -/
def next (e : Engine σ ρ) (steps : Nat) : Journaled (Option Space × Engine σ ρ) := do
  let (outcome, search) ← searchWithin Search.step steps e.search
  match outcome with
  | .solution s => return (some s, { e with search, hasStopped := false })
  | .exhausted => return (none, { e with search, hasStopped := false })
  | .stopped => return (none, { e with search, hasStopped := true })

/-- Up to `count` further solutions, and whether the last of these searches found none. -/
def take (steps : Nat) : Nat → Engine σ ρ → Journaled (List Space × Bool × Engine σ ρ)
  | 0, e => return ([], false, e)
  | count + 1, e => do
      match ← e.next steps with
      | (none, e) => return ([], true, e)
      | (some s, e) =>
          let (found, ended, e) ← take steps count e
          return (s :: found, ended, e)

/-- Search the tree of another space; the statistics go on. -/
def reset (e : Engine σ ρ) (s : Space) : Journaled (Engine σ ρ) := do
  return { e with search := ← e.search.reset s, hasStopped := false }

def statistics (e : Engine σ ρ) : Except Fault Statistics := e.search.statistics

/-- What is known about the explored part of the tree. Its literals are counted. -/
def noGoods (e : Engine σ ρ) : NoGoods × Engine σ ρ :=
  let (noGoods, search) := e.search.noGoods
  (noGoods, { e with search })

def isComplete (e : Engine σ ρ) : Bool := e.search.isComplete

/-- The recorded events so far. -/
def trace (e : Engine σ ρ) : List TraceEvent := e.search.events

/-- The recorded events of an engine that is given up. -/
def finalTrace (e : Engine σ ρ) : List TraceEvent :=
  if e.isTraced then e.trace ++ [.done] else []

end Engine

end ConstraintSearch
