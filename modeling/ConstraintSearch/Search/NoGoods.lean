import ConstraintSearch.Space

/-!
# The no-goods of a path

What a path records of the explored part of the tree: each edge contributes the alternatives to the
left of the one it took, which are explored completely.

* `NoGoods.literals` lists them, `NoGoods.size` counts them;
* `NoGoods.levels` turns them into the levels of a constraint: it is cut off at the first taken
  alternative that no literal describes, and explored alternatives without a literal are left out;
* `NoGoods.post` posts that constraint.
-/

namespace ConstraintSearch

/-- The choices of a path from the root on, with the alternative that is taken. -/
structure NoGoods where
  edges : List (Choice × Nat)

namespace NoGoods

instance : EmptyCollection NoGoods := ⟨⟨[]⟩⟩

/-- The number of explored alternatives. -/
def size (n : NoGoods) : Nat := total (·.2) n.edges

/-- The explored alternatives with their depth. -/
def literals (n : NoGoods) : List (Nat × Choice × Nat) :=
  n.edges.zipIdx.flatMap fun ((choice, taken), depth) =>
    (List.range taken).map fun alternative => (depth, choice, alternative)

/-- The text of an explored alternative. -/
def literalText (literal : Nat × Choice × Nat) : Except Fault String := do
  let (depth, choice, alternative) := literal
  return toString depth ++ ": " ++ (← choice.describe alternative)

/-- The levels of the edges, down to the first one without a literal for its taken alternative. The
alternative of the last edge does not matter. -/
def levelsOf : List (Choice × Nat) → List NoGoodLevel
  | [] => []
  | (choice, taken) :: edges =>
      let explored := (List.range taken).filterMap choice.literal?
      match edges with
      | [] => [⟨explored, none⟩]
      | _ :: _ =>
          match choice.literal? taken with
          | none => [⟨explored, none⟩]
          | some literal => ⟨explored, some literal⟩ :: levelsOf edges

/-- The levels without those at the end that exclude nothing; the last one needs no taken
alternative. -/
def trimmed (levels : List NoGoodLevel) : List NoGoodLevel :=
  match (levels.reverse.dropWhile (·.explored.isEmpty)) with
  | [] => []
  | last :: before => (⟨last.explored, none⟩ :: before).reverse

def levels (n : NoGoods) : List NoGoodLevel := trimmed (levelsOf n.edges)

/-- Post the no-goods into a space with the variables of the space they come from. Posting none
changes nothing. -/
def post (n : NoGoods) (s : Space) : JournaledRequest Space := do
  match n.levels with
  | [] => return s
  | levels =>
      Journaled.note (.postingNoGoods levels.length)
      return (← s.post (.noGoods levels 0)).2

end NoGoods

end ConstraintSearch
