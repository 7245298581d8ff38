import ConstraintSearch.Constraint

/-!
# Puzzles

Three puzzles of any size, each built into a given space:

* *queens*: `n` queens on a board of `n` columns and `n` rows, none of which attacks another;
* *Golomb rulers*: `n` marks whose distances are all different, on a ruler as short as possible;
* *partition*: the numbers `1, …, n` in two halves of the same size, the first of which contains
  `1`. If `n` is odd, the second half is larger by one.

`PuzzleKind.build` adds the variables, the constraints and a brancher, and `Puzzle.describe` is the
text of what a space says about them. Sizes are brought to 32 bits where they enter a domain.
-/

namespace ConstraintSearch

inductive PuzzleKind
  | queens
  | golomb
  | partition
  deriving DecidableEq, Repr

/-- The name of a puzzle as a proper noun. -/
def PuzzleKind.title : PuzzleKind → String
  | .queens => "Queens"
  | .golomb => "Golomb"
  | .partition => "Partition"

/-- The variables of a puzzle. -/
inductive Puzzle
  /-- The row of the queen in each column. -/
  | queens (rows : List IntVar)
  /-- The marks of the ruler from left to right. -/
  | golomb (marks : List IntVar)
  /-- The half with the number `1`, among the numbers up to `n`. -/
  | partition (half : Nat) (n : Int)
  deriving DecidableEq, Repr

namespace Puzzle

/-- Act on the pairs `(i, j)` with `i < j < n`, in lexicographic order. -/
def overPairs {α : Type} (n : Nat) (act : α → Nat → Nat → Request α) (a : α) : Request α :=
  (List.range n).foldlM
    (fun a i => (List.range (n - (i + 1))).foldlM (fun a k => act a i (i + 1 + k)) a)
    a

/-- New integer variables with one domain. -/
def newVariables (s : Space) (count : Nat) (lower upper : Int) :
    Request (Table IntVar × Space) := do
  let (xs, s) ← s.newInts count lower upper
  return (⟨(xs.map IntVar.root).toArray⟩, s)

/-- Two queens in different columns are in different rows and on different diagonals. -/
def separate (rows : Table IntVar) (s : Space) (i j : Nat) : Request Space := do
  let a ← rows.fetch i
  let b ← rows.fetch j
  let distance : Int := (j : Int) - i
  let (_, s) ← Constraint.notEquals s a b 0
  let (_, s) ← Constraint.notEquals s a b distance
  let (_, s) ← Constraint.notEquals s a b (-distance)
  return s

def buildQueens (s : Space) (n : Nat) : JournaledRequest (Puzzle × Space) := do
  let (rows, s) ← newVariables s n 0 (← Word.sub (Word.wrap n) 1)
  let s ← overPairs n (separate rows) s
  let brancher ← (IntBrancher.ofVariables rows.toList .firstFail .min).announced
  return (queens rows.toList, (s.branch (.int brancher)).2)

/-- Each variable is less than its successor. -/
def increasing (s : Space) : List IntVar → Request Space
  | a :: b :: xs => do
      let (_, s) ← Constraint.lessThan s a b
      increasing s (b :: xs)
  | _ => return s

/-- The distance between two marks, as a new variable behind the others. -/
def measure (marks : Table IntVar) (longest : Int) (measured : List IntVar × Space) (i j : Nat) :
    Request (List IntVar × Space) := do
  let (distances, s) := measured
  let (d, s) ← s.newInt 1 longest
  let d := IntVar.root d
  let (_, s) ←
    Constraint.weightedEqual s [1, -1, -1] [← marks.fetch j, ← marks.fetch i, d] 0
  return (d :: distances, s)

/-- All distances are different. A ruler and its reflection have the same distances: the first
distance has to be less than the last one. -/
def distinguish (s : Space) (distances : List IntVar) : Request Space := do
  match distances, distances.getLast? with
  | first :: _ :: _, some last =>
      let (_, s) ← Constraint.lessThan s first last
      let (_, s) ← Constraint.allDifferent s distances
      return s
  | _, _ => return s

/-- The square of a size, as an index of 64 bits. -/
def square (n : Nat) : Except Fault Nat :=
  if n * n < Word.count 64 then .ok (n * n) else .error (.overflow .multiply)

def buildGolomb (s : Space) (n : Nat) : JournaledRequest (Puzzle × Space) := do
  let longest := Word.wrap (← square n)
  let (marks, s) ← newVariables s n 0 longest
  let s ← match marks.toList with
    | first :: _ => do pure (← s.restrict first .equal 0).2
    | [] => pure s
  let s ← increasing s marks.toList
  let (distances, s) ← overPairs n (measure marks longest) ([], s)
  let s ← distinguish s distances.reverse
  let s := match marks.toList.getLast? with
    | some last => { s with objective := some (.minimise last) }
    | none => s
  let brancher ← (IntBrancher.ofVariables marks.toList .inputOrder .min).announced
  return (golomb marks.toList, (s.branch (.int brancher)).2)

/-- The numbers `1, …, n`. -/
def numbers (n : Int) : List Int := (List.range n.toNat).map fun i : Nat => (i : Int) + 1

def buildPartition (s : Space) (n : Nat) : JournaledRequest (Puzzle × Space) := do
  let n := Word.wrap n
  let (half, s) ← s.newSet [1] (numbers n) 0 (n % 4294967296).toNat
  let (cardinality, s) ← s.newInt 0 n
  let (_, s) ← Constraint.setCardinality s half (.root cardinality)
  let (_, s) ← s.restrict (.root cardinality) .equal (n.tdiv 2)
  return (partition half n, (s.branch (Brancher.ofSets [half])).2)

/-- Numbers behind each other. -/
def listed (values : List String) : String := ", ".intercalate values

/-- What a space says about the variables of a puzzle. -/
def describe (p : Puzzle) (s : Space) : Except Fault String := do
  match p with
  | queens rows =>
      let values ← rows.mapM (·.value? s.store)
      return "rows = [" ++ listed (values.map fun v => (v.map toString).getD "_") ++ "]"
  | golomb marks =>
      let values ← marks.mapM (·.value? s.store)
      let length := match values.getLast? with
        | some (some length) => ", length = " ++ toString length
        | _ => ""
      return "marks = [" ++ listed (values.filterMap fun v => v.map toString) ++ "]" ++ length
  | partition half n =>
      let d ← s.store.set half
      let braced (values : List Int) : String :=
        "\x7b" ++ listed (values.map toString) ++ "\x7d"
      return braced d.required ++ " | " ++ braced ((numbers n).filter (!d.isPossible ·))

end Puzzle

/-- Build a puzzle of size `n` into a space. -/
def PuzzleKind.build (kind : PuzzleKind) (s : Space) (n : Nat) :
    JournaledRequest (Puzzle × Space) :=
  match kind with
  | .queens => Puzzle.buildQueens s n
  | .golomb => Puzzle.buildGolomb s n
  | .partition => Puzzle.buildPartition s n

end ConstraintSearch
