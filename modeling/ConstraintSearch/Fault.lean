/-!
# Faults and refusals

Two kinds of unsuccessful outcome are kept apart.

* `Fault`: a computation that has no result, because fixed-width arithmetic overflowed, a handle
  names nothing, or a request contradicts the state it is made in. A fault ends the whole run.
* `ModelError`: a request to extend a model or to create a search that is refused; the space it
  was made in is left as it was.

Each has one rendering function, `Fault.message` and `ModelError.message`.
-/

namespace ConstraintSearch

/-- The operations of fixed-width arithmetic that can overflow. -/
inductive Operation
  | add
  | subtract
  | multiply
  | negate
  | divide
  | remainder
  deriving DecidableEq, Repr

/-- The verb of an operation in a message. -/
def Operation.verb : Operation → String
  | .add => "add"
  | .subtract => "subtract"
  | .multiply => "multiply"
  | .negate => "negate"
  | .divide => "divide"
  | .remainder => "calculate the remainder"

/-- The reasons for which a computation has no result. -/
inductive Fault
  /-- The exact result does not fit the width of the operands. -/
  | overflow (operation : Operation)
  /-- A counter would fall below zero. -/
  | negativeCounter
  | divisionByZero
  | remainderByZero
  /-- A handle beyond the end of the table it points into. -/
  | indexOutOfBounds (length index : Nat)
  /-- A view that multiplies by zero cannot be read backwards. -/
  | zeroScale
  /-- A choice is asked of a space that has none. -/
  | noChoice
  /-- A float brancher that would split forever. -/
  | nonPositivePrecision
  /-- A random draw from an empty range. -/
  | emptyRange
  /-- A set brancher that has no open element left to decide. -/
  | nothingUndecided
  /-- A node is to be rebuilt and no copy above it is left. -/
  | missingCopy
  /-- A request that breaks a stated condition of the operation. -/
  | brokenCondition
  /-- A computation that used up the number of steps it was given. -/
  | unfinished
  deriving DecidableEq, Repr

/-- The text of a fault. -/
def Fault.message : Fault → String
  | .overflow operation => "attempt to " ++ operation.verb ++ " with overflow"
  | .negativeCounter => "attempt to subtract with overflow"
  | .divisionByZero => "attempt to divide by zero"
  | .remainderByZero => "attempt to calculate the remainder with a divisor of zero"
  | .indexOutOfBounds length index =>
      "index out of bounds: the len is " ++ toString length ++ " but the index is "
        ++ toString index
  | .zeroScale =>
      "assertion \x60left != right\x60 failed: Multiplication by zero is not invertable"
  | .noChoice => "a choice can only be made in a space with status Branch"
  | .nonPositivePrecision => "The precision must be positive"
  | .emptyRange => "cannot sample empty range"
  | .nothingUndecided => "An unassigned set variable has an undecided element"
  | .missingCopy => "the last copy stores a space"
  | .brokenCondition => "assertion failed"
  | .unfinished => "the number of steps is exhausted"

/-- The reasons for which a request to a model or a search is refused. -/
inductive ModelError
  /-- A variable whose domain would hold no value. -/
  | emptyDomain (lower upper : Int)
  /-- Two lists that are read in parallel have different lengths. -/
  | sizeMismatch (left right : Nat)
  /-- The space has failed already. -/
  | infeasibleState
  /-- One variable is named twice where distinct variables are required. -/
  | duplicateVariable
  /-- An optimising search of a space without an objective. -/
  | missingObjective
  | invalidOption (reason : String)
  deriving DecidableEq, Repr

/-- The text of a refusal. -/
def ModelError.message : ModelError → String
  | .emptyDomain lower upper =>
      "Cannot create a variable with domain [" ++ toString lower ++ ", " ++ toString upper
        ++ "] since it is empty"
  | .sizeMismatch left right =>
      "Expected arrays of equal length but got " ++ toString left ++ " and " ++ toString right
  | .infeasibleState =>
      "Adding constraint failed because the space is in an infeasible state"
  | .duplicateVariable =>
      "The same variable occurs more than once where distinct variables are required"
  | .missingObjective => "An optimising search requires the space to have an objective"
  | .invalidOption reason => "Invalid search option: " ++ reason

/-- The outcome of a request that may be refused and that may fault. -/
abbrev Request := ExceptT ModelError (Except Fault)

/-- A request that is refused. -/
def Request.refuse {α : Type} (error : ModelError) : Request α := throw error

end ConstraintSearch
