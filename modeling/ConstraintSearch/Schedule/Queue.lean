import ConstraintSearch.Random
import ConstraintSearch.Table
import ConstraintSearch.Total
import ConstraintSearch.Schedule.Cost
import ConstraintSearch.Schedule.Lane

/-!
# The propagator queue

The propagators that wait to be executed. A propagator is scheduled at most once; `remove` cancels
it without touching the lane it waits in, where its entry stays behind and is passed over, unless
the propagator is scheduled again before the entry is reached.

* each class of costs has a lane of its own, and cheap classes are served first; under policies
  other than `Policy.costOrdered` all propagators wait in one lane;
* `Policy.random` serves a random entry, and the last entry moves into its place;
* `Queue.line` lists the entries of all lanes in the order in which they are served;
* `Queue.isScheduled` is the set of the scheduled propagators, `Queue.pop` serves one of them.
-/

namespace ConstraintSearch

/-- The order in which scheduled propagators are executed. -/
inductive Policy
  | costOrdered
  | fifo
  | random (seed : UInt64)
  deriving DecidableEq, Repr

instance : Inhabited Policy := ⟨.costOrdered⟩

/-- A policy together with what it remembers. -/
inductive Order
  | costOrdered
  | fifo
  | random (generator : Generator)
  deriving DecidableEq, Repr

def Policy.order : Policy → Order
  | .costOrdered => .costOrdered
  | .fifo => .fifo
  | .random seed => .random (Generator.ofSeed seed)

structure Queue where
  /-- The lane of each class, under the rank of the class. -/
  lanes : Table Lane
  /-- Whether the propagator with a given number is scheduled. -/
  scheduled : Table Bool
  /-- The number of scheduled propagators. -/
  count : Nat
  order : Order
  deriving DecidableEq, Repr

namespace Queue

/-- An empty lane for each class. -/
def emptyLanes : Table Lane := ⟨(Cost.all.map fun _ => ∅).toArray⟩

def ofPolicy (policy : Policy) : Queue := ⟨emptyLanes, ∅, 0, policy.order⟩

instance : Inhabited Queue := ⟨ofPolicy default⟩

def isEmpty (q : Queue) : Bool := q.count = 0

def isScheduled (q : Queue) (propagator : Nat) : Bool := (q.scheduled.get? propagator).getD false

/-- The entries of all lanes, cancelled ones included. -/
def line (q : Queue) : List Nat := q.lanes.toList.flatMap Lane.toList

/-- The class under which a propagator waits: its own if cost matters, one for all otherwise. -/
def Order.lane (order : Order) (cost : Cost) : Cost :=
  match order with
  | .costOrdered => cost
  | .fifo | .random _ => .unary

/-- The flags with the one of `propagator` set to `value`. -/
def flag (scheduled : Table Bool) (propagator : Nat) (value : Bool) : Table Bool :=
  (scheduled.accommodate propagator false).set propagator value

/-- Schedule a propagator, unless it is scheduled already. -/
def schedule (q : Queue) (propagator : Nat) (cost : Cost) : Queue :=
  if q.isScheduled propagator then q
  else
    { q with
      lanes := q.lanes.modify (Order.lane q.order cost).rank (·.push propagator)
      scheduled := flag q.scheduled propagator true
      count := q.count + 1 }

/-- Cancel a scheduled propagator; its entry stays in its lane. -/
def remove (q : Queue) (propagator : Nat) : Queue :=
  if q.isScheduled propagator then
    { q with scheduled := flag q.scheduled propagator false, count := q.count - 1 }
  else q

/-- Serve the first lane that is not empty. -/
def serveFirst? : List Lane → Option (Nat × List Lane)
  | [] => none
  | lane :: lanes =>
      match lane.pop? with
      | some (entry, lane) => some (entry, lane :: lanes)
      | none => (serveFirst? lanes).map fun (entry, lanes) => (entry, lane :: lanes)

/-- Take the entry that is served next out of its lane. -/
def serve? (q : Queue) : Option (Nat × Queue) :=
  match q.order with
  | .costOrdered | .fifo =>
      (serveFirst? q.lanes.toList).map fun (entry, lanes) =>
        (entry, { q with lanes := ⟨lanes.toArray⟩ })
  | .random generator =>
      let lane := (q.lanes.get? Cost.unary.rank).getD ∅
      let (position, generator) := generator.below lane.size
      (lane.take? position).map fun (entry, lane) =>
        (entry, { q with lanes := q.lanes.set Cost.unary.rank lane, order := .random generator })

/-- Serve entries until one belongs to a scheduled propagator, at most `steps` of them. -/
def popWithin : Nat → Queue → Option Nat × Queue
  | 0, q => (none, q)
  | steps + 1, q =>
      if q.isEmpty then (none, q)
      else
        match q.serve? with
        | none => (none, q)
        | some (propagator, q) =>
            if q.isScheduled propagator then (some propagator, q.remove propagator)
            else popWithin steps q

/-- The propagator that is executed next, which is then no longer scheduled. -/
def pop (q : Queue) : Option Nat × Queue := popWithin (total Lane.size q.lanes.toList) q

/-- Cancel every propagator and empty the lanes. -/
def clear (q : Queue) : Queue :=
  { q with
    lanes := ⟨q.lanes.rows.map fun _ => ∅⟩
    scheduled := ⟨q.scheduled.rows.map fun _ => false⟩
    count := 0 }

theorem getD_flag (scheduled : Table Bool) (propagator other : Nat) (value : Bool) :
    ((flag scheduled propagator value).get? other).getD false =
      if propagator = other then value else (scheduled.get? other).getD false := by
  unfold flag
  rw [Table.get?_set, if_pos (Table.lt_size_accommodate ..)]
  split
  · rfl
  · rw [Table.get?_accommodate]
    split
    · rename_i h
      have : scheduled.get? other = none := by
        simp only [Table.get?, Table.size] at h ⊢
        exact Array.getElem?_eq_none h.1
      simp [this]
    · rfl

theorem isScheduled_schedule (q : Queue) (propagator other : Nat) (cost : Cost) :
    (q.schedule propagator cost).isScheduled other
      = (decide (propagator = other) || q.isScheduled other) := by
  unfold schedule
  split
  · by_cases h : propagator = other <;> simp_all
  · simp only [isScheduled, getD_flag]
    by_cases h : propagator = other <;> simp [h]

theorem isScheduled_remove (q : Queue) (propagator other : Nat) :
    (q.remove propagator).isScheduled other
      = (!decide (propagator = other) && q.isScheduled other) := by
  unfold remove
  split
  · simp only [isScheduled, getD_flag]
    by_cases h : propagator = other <;> simp [h]
  · by_cases h : propagator = other <;> simp_all

theorem isScheduled_clear (q : Queue) (propagator : Nat) :
    q.clear.isScheduled propagator = false := by
  simp only [clear, isScheduled, Table.get?, Array.getElem?_map]
  cases q.scheduled.rows[propagator]? <;> rfl

end Queue

end ConstraintSearch
