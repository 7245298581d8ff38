import ConstraintSearch.CommandLine.Settings
import ConstraintSearch.Search.Report

/-!
# The behaviour of the program

What the program prints for a command line, and its exit code: 0 after a search, 1 if the puzzle
cannot be built or searched, 2 for arguments that make no sense, and 101 after a fault.

* A solution is printed by its number and its text, with the value of the objective if there is one.
  Unless all solutions are asked for, only the last one is.
* Then a line says what the search has proved: nothing is left to find, there is no solution, or
  neither is known.
* Notes are printed behind a mark: warnings always, further ones on request.
-/

namespace ConstraintSearch.CommandLine

/-- The reasons for which a run ends early. -/
inductive Failure
  | fault (fault : Fault)
  | refused (error : ModelError)
  | noThreads

structure Behaviour where
  lines : List String
  /-- A line for the standard error. -/
  complaint : Option String
  exitCode : Nat
  deriving DecidableEq, Repr

/-- Computations that print lines and may end early. -/
abbrev Printing := ExceptT Failure (StateM (Array String))

namespace Printing

def line (text : String) : Printing Unit := modify (·.push text)

/-- Whether a note is printed. -/
def isShown (verbose : Bool) (note : Note) : Bool :=
  match note.level? with
  | some .warn => true
  | some .info | some .debug => verbose
  | some .trace | none => false

def note (verbose : Bool) (n : Note) : Printing Unit := do
  if isShown verbose n then line ("c " ++ n.message)

/-- Print the notes of a computation. -/
def ofJournaled {α : Type} (verbose : Bool) (computation : Journaled α) : Printing α := do
  let (outcome, notes) := computation.collect
  notes.toList.forM (note verbose)
  match outcome with
  | .ok result => return result
  | .error fault => throw (.fault fault)

/-- Print the notes of a request. -/
def ofRequest {α : Type} (verbose : Bool) (request : JournaledRequest α) : Printing α := do
  match ← ofJournaled verbose request.run with
  | .ok result => return result
  | .error error => throw (.refused error)

/-- The result of a computation that may fault. -/
def ofFault {α : Type} : Except Fault α → Printing α
  | .ok result => return result
  | .error fault => throw (.fault fault)

end Printing

/-- Print a solution by its number. -/
def printSolution (puzzle : Puzzle) (s : Space) (number : Nat) : Printing Unit := do
  let text ← Printing.ofFault (puzzle.describe s)
  Printing.line ("solution " ++ toString number ++ ": " ++ text)
  match ← Printing.ofFault s.objectiveValue with
  | some value => Printing.line ("objective = " ++ toString value)
  | none => pure ()
  Printing.line "----------"

/-- The solutions that were found: how many, the last one, and the engine afterwards. -/
structure Found where
  count : Nat
  last : Option Space
  engine : Engine

/-- Search until there is no further solution, or for one if `single` is set. -/
def searchAll (settings : Settings) (puzzle : Puzzle) (single : Bool) (steps : Nat) :
    Nat → Found → Printing Found
  | 0, _ => throw (.fault .unfinished)
  | rounds + 1, found => do
      match ← Printing.ofJournaled settings.verbose (found.engine.next steps) with
      | (none, engine) => return { found with engine }
      | (some s, engine) =>
          let found : Found := ⟨found.count + 1, some s, engine⟩
          if settings.allSolutions then printSolution puzzle s found.count
          if single then return found else searchAll settings puzzle single steps rounds found

/-- The line that says what was proved, if anything is to be said. -/
def verdict (foundAny complete : Bool) : Option String :=
  match foundAny, complete with
  | false, true => some "=====UNSATISFIABLE====="
  | false, false => some "=====UNKNOWN====="
  | true, true => some "=========="
  | true, false => none

/-- Build the puzzle and search it, at most `steps` steps for each solution. -/
def solve (settings : Settings) (steps : Nat) : Printing Unit := do
  let verbose := settings.verbose
  Printing.note verbose .loggingConfigured
  if settings.threads = 0 then throw .noThreads
  let (puzzle, s) ← Printing.ofRequest verbose
    (settings.puzzle.build (Space.ofPolicy settings.policy) settings.size)
  let hasObjective := s.objective.isSome
  let kind := settings.engine.getD (if hasObjective then .branchAndBound else .depthFirst)
  let optimising := hasObjective && (kind = .branchAndBound || kind = .restarts)
  Printing.note verbose
    (.solving settings.puzzle.title settings.size kind.text settings.threads)
  let (engine, _) ← Printing.ofRequest verbose (Engine.start kind s settings.searchOptions)
  let single := !optimising && !settings.allSolutions
  let found ← searchAll settings puzzle single steps steps ⟨0, none, engine⟩
  match found.last with
  | some s => if !settings.allSolutions then printSolution puzzle s found.count
  | none => pure ()
  let engine := found.engine
  let complete := !engine.hasStopped && engine.isComplete
    && (optimising || settings.allSolutions || found.last.isNone)
  (verdict found.last.isSome complete).forM Printing.line
  if settings.statistics then
    let statistics ← Printing.ofFault engine.statistics
    ((StatisticScope.ofParts []).lines statistics).forM Printing.line
    Printing.line (statisticLine "engine" kind.text)
    Printing.line statisticEnd

/-- What the program does with its arguments. -/
def behaviour (arguments : List String) (steps : Nat) : Behaviour :=
  match Settings.ofArguments? arguments with
  | none => ⟨[], some "the arguments make no sense", 2⟩
  | some settings =>
      let (outcome, lines) := (solve settings steps).run.run #[]
      let refusal (reason : String) : Behaviour :=
        ⟨lines.toList ++ ["c Execution failed, error: " ++ reason], none, 1⟩
      match outcome with
      | .ok () => ⟨lines.toList, none, 0⟩
      | .error (.fault fault) => ⟨lines.toList, some fault.message, 101⟩
      | .error (.refused error) =>
          refusal ("Failed to build the model, more details: " ++ error.message)
      | .error .noThreads =>
          refusal "Invalid argument: the number of threads must be at least 1"

end ConstraintSearch.CommandLine
