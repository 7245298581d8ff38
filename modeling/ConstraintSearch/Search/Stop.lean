import ConstraintSearch.Search.Statistics

/-!
# Stopping a search

A search polls its stop condition with its statistics before each node. A condition may keep state
between polls; when it holds, the search is interrupted and can be resumed.

* `StopCondition` is the interface: a poll answers whether to stop, and the condition afterwards, or
  it ends in a fault;
* `Stop` are the conditions that can be asked for;
* a search without a condition has the condition `none`, which never holds.
-/

namespace ConstraintSearch

/-- A condition that is polled before each node. -/
class StopCondition (σ : Type) where
  poll : σ → Statistics → Except Fault (Bool × σ)

instance {σ : Type} [StopCondition σ] : StopCondition (Option σ) where
  poll
    | none, _ => return (false, none)
    | some stop, statistics => do
        let (holds, stop) ← StopCondition.poll stop statistics
        return (holds, some stop)

inductive Stop
  /-- The number of nodes has reached a limit. -/
  | nodes (limit : Nat)
  /-- The number of failures has reached a limit. -/
  | fails (limit : Nat)
  /-- The memory exceeds a limit. -/
  | memory (limit : Nat)
  /-- A time in milliseconds is over. The clock says how many have passed at each poll, after so
  many polls; one that stands still is at zero. -/
  | time (milliseconds : Nat) (clock : Nat → Nat := fun _ => 0) (polls : Nat := 0)
  | never
  /-- A condition that may be missing. -/
  | optional (stop : Option Stop)
  /-- One of two conditions holds; both are polled. -/
  | either (first second : Stop)
  /-- The number of nodes is a positive multiple of the period, other than the last one at which the
  condition held. There are no multiples of zero: with that period the first node is a fault. -/
  | interrupt (period last : Nat)

namespace Stop

instance : Inhabited Stop := ⟨never⟩

/-- Whether the condition holds, and the condition for the next poll. -/
def poll : Stop → Statistics → Except Fault (Bool × Stop)
  | nodes limit, s => return (limit ≤ s.nodes, nodes limit)
  | fails limit, s => return (limit ≤ s.fails, fails limit)
  | memory limit, s => return (limit < s.memory, memory limit)
  | time milliseconds clock polls, _ =>
      return (milliseconds ≤ clock polls, time milliseconds clock (polls + 1))
  | never, _ => return (false, never)
  | optional none, _ => return (false, optional none)
  | optional (some stop), s => do
      let (holds, stop) ← stop.poll s
      return (holds, optional (some stop))
  | either first second, s => do
      let (holdsFirst, first) ← first.poll s
      let (holdsSecond, second) ← second.poll s
      return (holdsFirst || holdsSecond, either first second)
  | interrupt period last, s =>
      if s.nodes = 0 then return (false, interrupt period last)
      else if period = 0 then throw .remainderByZero
      else if s.nodes % period = 0 ∧ s.nodes ≠ last then return (true, interrupt period s.nodes)
      else return (false, interrupt period last)

instance : StopCondition Stop := ⟨poll⟩

end Stop

end ConstraintSearch
