import ConstraintSearch.CommandLine.Arguments
import ConstraintSearch.Decimal.Reading
import ConstraintSearch.Puzzle
import ConstraintSearch.Search.Engine

/-!
# Settings of a run

What a command line asks for: a puzzle, its size, the engine that solves it, limits, and what is to
be printed. `Settings.ofArguments?` reads them; each option may be given once, and exactly one
operand names the puzzle.
-/

namespace ConstraintSearch.CommandLine

inductive OptionName
  | size
  | engine
  | threads
  | copyDistance
  | adaptiveDistance
  | discrepancyLimit
  | allSolutions
  | timeLimit
  | nodeLimit
  | failLimit
  | restartSequence
  | restartBase
  | restartFactor
  | seed
  | statistics
  | verbose
  deriving DecidableEq, Repr

namespace OptionName

def ofLong? : String → Option OptionName
  | "size" => some size
  | "engine" => some engine
  | "threads" => some threads
  | "copy-distance" => some copyDistance
  | "adaptive-distance" => some adaptiveDistance
  | "discrepancy-limit" => some discrepancyLimit
  | "all-solutions" => some allSolutions
  | "time-limit" => some timeLimit
  | "node-limit" => some nodeLimit
  | "fail-limit" => some failLimit
  | "restart-sequence" => some restartSequence
  | "restart-base" => some restartBase
  | "restart-factor" => some restartFactor
  | "seed" => some seed
  | "statistics" => some statistics
  | "verbose" => some verbose
  | _ => none

def ofShort? : Char → Option OptionName
  | 'n' => some size
  | 'e' => some engine
  | 'j' => some threads
  | 'a' => some allSolutions
  | 't' => some timeLimit
  | 'r' => some seed
  | 's' => some statistics
  | 'v' => some verbose
  | _ => none

def takesValue : OptionName → Bool
  | allSolutions | statistics | verbose => false
  | _ => true

/-- The options of this program. -/
def vocabulary : Vocabulary OptionName := ⟨ofLong?, ofShort?, takesValue⟩

end OptionName

structure Settings where
  puzzle : PuzzleKind
  size : Nat := 8
  /-- If none is given, it depends on whether the puzzle has an objective. -/
  engine : Option EngineKind := none
  threads : Nat := 1
  exploration : Exploration := {}
  discrepancyLimit : Nat := 3
  /-- Whether each solution is printed, and a search without an objective goes on behind the first
  one. -/
  allSolutions : Bool := false
  timeLimit : Option Nat := none
  nodeLimit : Option Nat := none
  failLimit : Option Nat := none
  restartSequence : SequenceKind := .geometric
  restartBase : Int := 250
  restartFactor : Float := 1.5
  /-- The propagators are executed in a random order drawn from a seed. -/
  seed : Option Nat := none
  statistics : Bool := false
  verbose : Bool := false

namespace Settings

def puzzleOfName? : String → Option PuzzleKind
  | "queens" => some .queens
  | "golomb" => some .golomb
  | "partition" => some .partition
  | _ => none

def engineOfName? : String → Option EngineKind
  | "dfs" => some .depthFirst
  | "bab" => some .branchAndBound
  | "lds" => some .limitedDiscrepancy
  | "rbs" => some .restarts
  | _ => none

def sequenceOfName? : String → Option SequenceKind
  | "constant" => some .constant
  | "geometric" => some .geometric
  | "luby" => some .luby
  | _ => none

/-- A counter of 64 bits. -/
def counter? : String → Option Nat := Decimal.natural? (Word.count 64 - 1)

/-- The settings with the value of an option. -/
def set (s : Settings) (name : OptionName) (value : String) : Option Settings := do
  match name with
  | .size => return { s with size := ← counter? value }
  | .engine => return { s with engine := some (← engineOfName? value) }
  | .threads => return { s with threads := ← counter? value }
  | .copyDistance =>
      return { s with exploration := { s.exploration with copyDistance := ← counter? value } }
  | .adaptiveDistance =>
      return { s with exploration := { s.exploration with adaptiveDistance := ← counter? value } }
  | .discrepancyLimit => return { s with discrepancyLimit := ← counter? value }
  | .allSolutions => return { s with allSolutions := true }
  | .timeLimit => return { s with timeLimit := some (← counter? value) }
  | .nodeLimit => return { s with nodeLimit := some (← counter? value) }
  | .failLimit => return { s with failLimit := some (← counter? value) }
  | .restartSequence => return { s with restartSequence := ← sequenceOfName? value }
  | .restartBase =>
      return { s with restartBase := ← Decimal.integer? (-Word.count 63) (Word.count 63 - 1) value }
  | .restartFactor => return { s with restartFactor := ← Decimal.float? value }
  | .seed => return { s with seed := some (← counter? value) }
  | .statistics => return { s with statistics := true }
  | .verbose => return { s with verbose := true }

/-- The settings that arguments ask for. -/
def ofArguments? (arguments : List String) : Option Settings := do
  let arguments ← Argument.ofList? OptionName.vocabulary arguments
  let operands := arguments.filterMap fun
    | .operand text => some text
    | .option _ _ => none
  let options := arguments.filterMap fun
    | .option name value => some (name, value)
    | .operand _ => none
  match operands with
  | [name] =>
      let puzzle ← puzzleOfName? name
      if (options.map (·.1)).Nodup then
        options.foldlM (fun (s : Settings) (name, value) => s.set name value) { puzzle }
      else none
  | _ => none

/-- The condition that stops the search, from the limits that were given. -/
def stop (s : Settings) : Stop :=
  let withLimit (limit : Option Nat) (condition : Nat → Stop) (stop : Stop) : Stop :=
    match limit with
    | some limit => .either stop (condition limit)
    | none => stop
  withLimit s.failLimit .fails (withLimit s.nodeLimit .nodes (withLimit s.timeLimit .time .never))

def policy (s : Settings) : Policy :=
  match s.seed with
  | some seed => .random (UInt64.ofNat seed)
  | none => .costOrdered

def searchOptions (s : Settings) : SearchOptions where
  exploration := s.exploration
  threads := s.threads
  stop := some s.stop
  discrepancyLimit := s.discrepancyLimit
  cutoffs := .ofKind s.restartSequence s.restartBase s.restartFactor

end Settings

end ConstraintSearch.CommandLine
