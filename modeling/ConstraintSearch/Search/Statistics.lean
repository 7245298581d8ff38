import ConstraintSearch.Word

/-!
# Search statistics

The counters that a search keeps and reports. `Statistics.fields` lists them by name in the order in
which they are reported, and `Statistics.accumulate` adds up the counters of two searches.
-/

namespace ConstraintSearch

structure Statistics where
  /-- Explored nodes. -/
  nodes : Nat
  /-- Nodes without a solution below them, found by propagation. -/
  fails : Nat
  solutions : Nat
  /-- The length of the longest path. -/
  depth : Nat
  restarts : Nat
  /-- Runs of propagators. -/
  propagations : Nat
  /-- Literals of the no-goods that were extracted. -/
  noGoods : Nat
  /-- The memory held by the copies of spaces. -/
  memory : Nat
  deriving DecidableEq, Repr

namespace Statistics

def zero : Statistics := ⟨0, 0, 0, 0, 0, 0, 0, 0⟩

instance : Inhabited Statistics := ⟨zero⟩

/-- The counters with their names. -/
def fields (s : Statistics) : List (String × Nat) :=
  [("nodes", s.nodes), ("fails", s.fails), ("solutions", s.solutions), ("depth", s.depth),
    ("restarts", s.restarts), ("propagations", s.propagations), ("nogoods", s.noGoods),
    ("memory", s.memory)]

/-- The sum of two counters of 64 bits. -/
def addCounters (a b : Nat) : Except Fault Nat :=
  if a + b < Word.count 64 then .ok (a + b) else .error (.overflow .add)

/-- The counters of two searches together: the greater depth, and the sums of the others. -/
def accumulate (s other : Statistics) : Except Fault Statistics := do
  let nodes ← addCounters s.nodes other.nodes
  let fails ← addCounters s.fails other.fails
  let solutions ← addCounters s.solutions other.solutions
  let restarts ← addCounters s.restarts other.restarts
  let propagations ← addCounters s.propagations other.propagations
  let noGoods ← addCounters s.noGoods other.noGoods
  let memory ← addCounters s.memory other.memory
  return ⟨nodes, fails, solutions, max s.depth other.depth, restarts, propagations, noGoods,
    memory⟩

end Statistics

end ConstraintSearch
