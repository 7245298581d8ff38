import ConstraintSearch.Journal
import ConstraintSearch.State

/-!
# Scripted propagators

A propagator that plays a fixed list of moves each time it runs, and writes what it does into the
journal. It narrows variables at will and so shows how scheduling, subscriptions and replacement
work, whatever the constraints of a model are.

A script names its variables, and builds the views among them only when it gets there: a view that
cannot be built is a `Mention` that holds the fault, which is met by the move or the subscription
that mentions it.

`Move.perform` performs one move, `Script.play` the moves of one run.
-/

namespace ConstraintSearch

/-- A variable as a script mentions it, or the fault of building the view that it mentions. -/
abbrev Mention (α : Type) := Except Fault α

/-- A narrowing by a scripted propagator. -/
inductive Move
  | restrict (x : Mention IntVar) (relation : Relation) (value : Int)
  | restrictTo (x : Mention IntVar) (values : List Int)
  | includeElement (set : Nat) (value : Int)
  | excludeElement (set : Nat) (value : Int)
  | setCardinality (set least greatest : Nat)
  | setFloatUpper (float : Nat) (value : Float)
  | setFloatLower (float : Nat) (value : Float)

namespace Move

def name : Move → String
  | restrict _ .atMost _ => "lq"
  | restrict _ .atLeast _ => "gq"
  | restrict _ .equal _ => "eq"
  | restrict _ .notEqual _ => "nq"
  | restrictTo _ _ => "in"
  | includeElement _ _ => "include"
  | excludeElement _ _ => "exclude"
  | setCardinality _ _ _ => "card"
  | setFloatUpper _ _ => "flq"
  | setFloatLower _ _ => "fgq"

def perform : Move → Propagation Event
  | restrict x relation v => do Propagation.restrict (← x) relation v
  | restrictTo x values => do Propagation.restrictTo (← x) values
  | includeElement set v => Propagation.includeElement set v
  | excludeElement set v => Propagation.excludeElement set v
  | setCardinality set least greatest => Propagation.setCardinality set least greatest
  | setFloatUpper float v => Propagation.setFloatUpper float v
  | setFloatLower float v => Propagation.setFloatLower float v

end Move

mutual

/-- A scripted propagator: its name and cost class, the changes that wake it, and its runs. -/
inductive Script
  | mk (name : String) (cost : Cost) (watch : List (Mention VarRef × Wake)) (runs : List Run)

/-- One execution: the moves, and what is answered after them. -/
inductive Run
  | mk (moves : List Move) (reply : Reply)

/-- What a scripted propagator answers at the end of a run. -/
inductive Reply
  | fix
  | noFix
  | subsumed
  | conflict
  | replace (script : Script)

end

namespace Script

def name : Script → String
  | mk name _ _ _ => name

def cost : Script → Cost
  | mk _ cost _ _ => cost

def watch : Script → List (Mention VarRef × Wake)
  | mk _ _ watch _ => watch

def runs : Script → List Run
  | mk _ _ _ runs => runs

end Script

mutual

/-- The number of times a script can be replaced in a row. -/
def Script.height : Script → Nat
  | .mk _ _ _ runs => runsHeight runs

/-- The greatest height of the scripts that replace at the end of one of the runs. -/
def runsHeight : List Run → Nat
  | [] => 0
  | run :: runs => max run.height (runsHeight runs)

/-- One more than the height of the script that replaces at the end of the run, if one does. -/
def Run.height : Run → Nat
  | .mk _ reply => reply.height

/-- One more than the height of the script that replaces, if one does. -/
def Reply.height : Reply → Nat
  | .replace script => script.height + 1
  | .fix | .noFix | .subsumed | .conflict => 0

end

namespace Script

/-- Perform moves until one fails, noting each of them. -/
def playMoves : List Move → State → Journaled (Except Inconsistency Unit × State)
  | [], s => return (.ok (), s)
  | move :: moves, s => do
      let (outcome, s) ← (move.perform s : Except Fault (Except Inconsistency Event × State))
      match outcome with
      | .ok event =>
          Journaled.note (.move move.name event)
          playMoves moves s
      | .error inconsistency =>
          Journaled.note (.move move.name .failed)
          return (.error inconsistency, s)

/-- The `number`-th run of a script, counted from one; runs beyond the last one do nothing. -/
def play (script : Script) (number : Nat) (s : State) :
    Journaled (Except Inconsistency Reply × State) := do
  Journaled.note (.run script.name number)
  match script.runs[number - 1]? with
  | none => return (.ok .fix, s)
  | some (.mk moves reply) =>
      let (outcome, s) ← playMoves moves s
      match outcome, reply with
      | .error inconsistency, _ => return (.error inconsistency, s)
      | .ok (), .conflict => return (.error .conflict, s)
      | .ok (), reply => return (.ok reply, s)

end Script

end ConstraintSearch
