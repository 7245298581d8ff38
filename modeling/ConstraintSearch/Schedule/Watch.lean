import ConstraintSearch.Store

/-!
# Watch lists

Who wants to hear of the changes of a variable. Each variable has the list of its subscriptions in
the order in which they were made, and each propagator the list of the variables it is subscribed
to, with a repetition for each subscription.

* `WatchLists.subscribe` adds one subscription to both lists;
* `WatchLists.unsubscribeAll` removes all subscriptions of a propagator;
* `WatchLists.watchers` and `WatchLists.degree` read the list of a variable.
-/

namespace ConstraintSearch

/-- A propagator that wants to run after changes of a certain level. -/
structure Subscription where
  propagator : Nat
  wake : Wake
  deriving DecidableEq, Repr

structure WatchLists where
  ints : Table (Array Subscription)
  sets : Table (Array Subscription)
  floats : Table (Array Subscription)
  /-- The variables each propagator is subscribed to. -/
  subscribedTo : Table (Array VarRef)
  deriving DecidableEq, Repr

namespace WatchLists

instance : EmptyCollection WatchLists := ⟨⟨∅, ∅, ∅, ∅⟩⟩

/-- The subscriptions of a variable; a variable that was never subscribed to has none. -/
def watchers (w : WatchLists) : VarRef → Array Subscription
  | .int index => (w.ints.get? index).getD #[]
  | .set index => (w.sets.get? index).getD #[]
  | .float index => (w.floats.get? index).getD #[]

/-- The number of subscriptions of a variable. -/
def degree (w : WatchLists) (x : VarRef) : Nat := (w.watchers x).size

/-- Change the list under a key, which is empty if it is not there yet. -/
def change {α : Type} (t : Table (Array α)) (key : Nat) (f : Array α → Array α) :
    Table (Array α) :=
  (t.accommodate key #[]).modify key f

/-- Change the subscriptions of a variable. -/
def changeWatchers (w : WatchLists) (x : VarRef) (f : Array Subscription → Array Subscription) :
    WatchLists :=
  match x with
  | .int index => { w with ints := change w.ints index f }
  | .set index => { w with sets := change w.sets index f }
  | .float index => { w with floats := change w.floats index f }

/-- Add a subscription. -/
def subscribe (w : WatchLists) (propagator : Nat) (x : VarRef) (wake : Wake) : WatchLists :=
  let w := w.changeWatchers x (·.push ⟨propagator, wake⟩)
  { w with subscribedTo := change w.subscribedTo propagator (·.push x) }

/-- The variables a propagator is subscribed to. -/
def variablesOf (w : WatchLists) (propagator : Nat) : Array VarRef :=
  (w.subscribedTo.get? propagator).getD #[]

/-- Remove the subscriptions of a propagator to a variable. -/
def unsubscribe (propagator : Nat) (w : WatchLists) (x : VarRef) : WatchLists :=
  w.changeWatchers x fun subscriptions =>
    subscriptions.filter fun subscription => subscription.propagator ≠ propagator

/-- Remove all subscriptions of a propagator. -/
def unsubscribeAll (w : WatchLists) (propagator : Nat) : WatchLists :=
  let vars := w.variablesOf propagator
  vars.foldl (unsubscribe propagator) { w with subscribedTo := w.subscribedTo.set propagator #[] }

end WatchLists

end ConstraintSearch
