import ConstraintSearch.Search.Statistics
import ConstraintSearch.Text.Casing

/-!
# Statistic reports

Statistics are reported in the format of MiniZinc: a line for each value, and a line that ends the
block. The name of a value is preceded by the scope that it was counted in, and written in camel
case.
-/

namespace ConstraintSearch

/-- What statistics were counted in, as a name that precedes theirs. -/
structure StatisticScope where
  name : String
  deriving DecidableEq, Repr

/-- The line of one value. -/
def statisticLine (name value : String) : String :=
  "%%%mzn-stat: " ++ Casing.camel name ++ "=" ++ value

/-- The line that ends a block. -/
def statisticEnd : String := "%%%mzn-stat-end"

namespace StatisticScope

def ofParts (parts : List String) : StatisticScope := ⟨"_".intercalate parts⟩

/-- The scope of a part of what the scope names. -/
def attach (scope : StatisticScope) (part : String) : StatisticScope :=
  if scope.name.isEmpty then ⟨part⟩ else ⟨scope.name ++ "_" ++ part⟩

/-- The lines of the counters of a search. -/
def lines (scope : StatisticScope) (s : Statistics) : List String :=
  s.fields.map fun (name, value) => statisticLine (scope.attach name).name (toString value)

end StatisticScope

end ConstraintSearch
