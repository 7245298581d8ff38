import ConstraintSearch.Search.Complete
import ConstraintSearch.Sequence

/-!
# Restart-based search

A complete search that is interrupted after a number of failures and begun again. The limits are
taken from a sequence. Before it begins again, the explored part of the tree is posted into the
master as no-goods, so that it is not explored twice; in an optimisation every solution is posted as
a bound and followed by a restart. After a solution of any other search, there are no more limits.
-/

namespace ConstraintSearch

/-- The condition that interrupts the inner search: the condition of the user, or a number of
failures. -/
structure Cutoff (σ : Type) where
  user : σ
  /-- `none` if there is no limit. -/
  failLimit : Option Nat
  /-- The condition of the user held. -/
  userStopped : Bool

instance {σ : Type} [StopCondition σ] : StopCondition (Cutoff σ) where
  poll cutoff statistics := do
    let (holds, user) ← StopCondition.poll cutoff.user statistics
    if holds then return (true, { cutoff with user, userStopped := true })
    else
      match cutoff.failLimit with
      | some limit => return (limit ≤ statistics.fails, { cutoff with user })
      | none => return (false, { cutoff with user })

structure Restarts (σ ρ : Type) where
  inner : CompleteSearch (Cutoff σ)
  /-- The root of the next run, with what was learnt from the runs before. -/
  master : Space
  cutoffs : ρ
  optimising : Bool
  /-- Begin again before the next step. -/
  restart : Bool
  /-- The inner search explores the tree of the master, so that its no-goods belong there. -/
  exploresMaster : Bool
  statistics : Statistics

namespace Restarts

variable {σ ρ : Type} [StopCondition σ] [CutoffSequence ρ]

/-- The next limit, one failure at least. -/
def nextLimit (cutoffs : ρ) : Nat × ρ :=
  let (value, cutoffs) := CutoffSequence.next cutoffs
  ((max value 1).toNat, cutoffs)

/-- A search of the tree below `master`. -/
def start (master : Space) (threads : Nat) (exploration : Exploration) (recorded : Bool)
    (cutoffs : ρ) (stop : σ) : Journaled (Restarts σ ρ) := do
  let optimising := master.objective.isSome
  let (limit, cutoffs) := nextLimit cutoffs
  let inner ← CompleteSearch.start master threads optimising exploration recorded
    (Cutoff.mk stop (some limit) false)
  return ⟨inner, master, cutoffs, optimising, false, true, .zero⟩

/-- Give the inner search another limit. -/
def setLimit (r : Restarts σ ρ) (limit : Option Nat) : Restarts σ ρ :=
  { r with inner := r.inner.withStop { r.inner.stop with failLimit := limit } }

/-- Post the no-goods of the inner search into the master. Returns whether the master could take
them; one that has failed cannot. -/
def learn (r : Restarts σ ρ) : Journaled (Bool × Restarts σ ρ) := do
  if !r.exploresMaster then return (true, r)
  let (noGoods, inner) := r.inner.noGoods
  let r := { r with inner }
  match ← (noGoods.post r.master).run with
  | .ok master => return (true, { r with master })
  | .error _ => return (false, r)

/-- Begin again. The search is over if the master has failed. -/
def begin (r : Restarts σ ρ) : Journaled (Option Outcome × Restarts σ ρ) := do
  let statistics := { r.statistics with restarts := r.statistics.restarts + 1 }
  let (cutoff, cutoffs) := nextLimit r.cutoffs
  let limit := (← r.inner.statistics).fails + cutoff
  let (learnt, r) ← { r with restart := false, statistics, cutoffs }.setLimit (some limit) |>.learn
  if !learnt then return (some .exhausted, r)
  let (status, master, statistics) ← statusOf r.master r.statistics
  let r := { r with master, statistics }
  if status = .failed then return (some .exhausted, r)
  else
    Journaled.note (.restart r.statistics.restarts limit)
    return (none, { r with inner := ← r.inner.reset master, exploresMaster := true })

/-- An inner search has ended without a solution: the condition of the user held, or the limit was
reached, or the tree is exhausted. -/
def endRun (r : Restarts σ ρ) (limited : Bool) : Option Outcome × Restarts σ ρ :=
  let cutoff := r.inner.stop
  if cutoff.userStopped then
    (some .stopped, { r with inner := r.inner.withStop { cutoff with userStopped := false } })
  else if limited then (none, { r with restart := true })
  else (some .exhausted, r)

/-- Begin again if it is time to, or let the inner search make a step. -/
def step (r : Restarts σ ρ) : Journaled (Option Outcome × Restarts σ ρ) := do
  if r.restart then r.begin
  else
    let (outcome, inner) ← r.inner.step
    let r := { r with inner }
    match outcome with
    | none => return (none, r)
    | some (.solution s) =>
        if r.optimising then
          return (outcome, { r with master := ← r.master.constrain s, restart := true })
        else return (outcome, r.setLimit none)
    | some .exhausted => return r.endRun false
    | some .stopped => return r.endRun true

/-- Search another tree; the statistics go on. -/
def reset (r : Restarts σ ρ) (master : Space) : Restarts σ ρ :=
  { r with
    master
    optimising := master.objective.isSome
    restart := true
    exploresMaster := false }

/-- The counters of the inner search, and the restarts. -/
def reported (r : Restarts σ ρ) : Except Fault Statistics := do
  let inner ← r.inner.statistics
  return { inner with
    restarts := inner.restarts + r.statistics.restarts
    propagations := inner.propagations + r.statistics.propagations }

end Restarts

end ConstraintSearch
