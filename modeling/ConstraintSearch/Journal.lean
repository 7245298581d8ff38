import ConstraintSearch.Domain.Event
import ConstraintSearch.Fault

/-!
# The journal

What a run reports on the side: failures found by propagation, restarts, no-goods, warnings, and
the moves of scripted propagators. A `Note` is a report, `Note.line` its text with the level of its
importance. `Journaled` is the monad of computations that write notes and may fault; the notes
written before a fault are kept. `JournaledRequest` are those that may be refused as well.
-/

namespace ConstraintSearch

/-- The importance of a note. -/
inductive Level
  | warn
  | info
  | debug
  | trace
  deriving DecidableEq, Repr

def Level.text : Level → String
  | .warn => "WARN"
  | .info => "INFO"
  | .debug => "DEBUG"
  | .trace => "TRACE"

inductive Note
  /-- A propagator found the space inconsistent. -/
  | failedBy (propagator : String)
  /-- A propagator was replaced by another one. -/
  | replaced (before after : String)
  /-- A brancher without variables was built. -/
  | noVariables
  /-- No-goods over a number of levels are posted. -/
  | postingNoGoods (levels : Nat)
  | restart (number failLimit : Nat)
  | workersStarted (threads : Nat)
  /-- An engine without worker threads was asked for several. -/
  | threadsIgnored
  /-- A scripted propagator runs for the `number`-th time. -/
  | run (propagator : String) (number : Nat)
  /-- A move of a scripted propagator and its outcome. -/
  | move (name : String) (event : Event)
  /-- A scripted propagator is retired. -/
  | retired (propagator : String)
  | loggingConfigured
  | solving (model : String) (size : Nat) (engine : String) (threads : Nat)
  deriving DecidableEq, Repr

namespace Note

/-- The level of a note; the moves of scripted propagators have none. -/
def level? : Note → Option Level
  | failedBy _ | replaced _ _ => some .trace
  | postingNoGoods _ | restart _ _ | workersStarted _ => some .debug
  | noVariables | threadsIgnored => some .warn
  | loggingConfigured | solving _ _ _ _ => some .info
  | run _ _ | move _ _ | retired _ => none

def message : Note → String
  | failedBy propagator => propagator ++ " failed the space"
  | replaced before after => before ++ " rewritten into " ++ after
  | noVariables => "The IntBrancher was not provided with any variables"
  | postingNoGoods levels => "posting no-goods over " ++ toString levels ++ " levels"
  | restart number failLimit =>
      "restart " ++ toString number ++ " with fail limit " ++ toString failLimit
  | workersStarted threads => "started " ++ toString threads ++ " search workers"
  | threadsIgnored => "limited discrepancy search ignores the number of threads"
  | run propagator number => "RUN " ++ propagator ++ " " ++ toString number
  | move name event => "ACT " ++ name ++ " " ++ event.text
  | retired propagator => "DISPOSE " ++ propagator
  | loggingConfigured => "Logging successfully configured"
  | solving model size engine threads =>
      "solving " ++ model ++ " of size " ++ toString size ++ " with " ++ engine ++ " on "
        ++ toString threads ++ " thread(s)"

/-- The message behind its level. -/
def line (note : Note) : String :=
  match note.level? with
  | some level => level.text ++ " " ++ note.message
  | none => note.message

end Note

/-- The notes of a run, in the order in which they were written. -/
abbrev Journal := Array Note

/-- Computations that write notes and may fault. -/
abbrev Journaled := ExceptT Fault (StateM Journal)

namespace Journaled

/-- Write a note. -/
def note (n : Note) : Journaled Unit := modify (·.push n)

/-- Run a computation, and return its notes beside its result. -/
def collect {α : Type} (computation : Journaled α) : Except Fault α × Journal :=
  computation.run.run #[]

end Journaled

/-- Requests that write notes. -/
abbrev JournaledRequest := ExceptT ModelError Journaled

instance : MonadLift Request JournaledRequest where
  monadLift request :=
    match request.run with
    | .ok outcome => ExceptT.mk (pure outcome)
    | .error fault => ExceptT.mk (throw fault)

end ConstraintSearch
