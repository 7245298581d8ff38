/-!
# Totals

The sum of a size over a list. The totals of the sizes of domains bound the number of steps that
propagation takes.

* `total_cons` computes a total from its parts;
* `total_set` compares the totals before and after a replacement.
-/

namespace ConstraintSearch

variable {α : Type}

/-- The sum of `size` over a list. -/
def total (size : α → Nat) (xs : List α) : Nat := xs.foldr (fun x n => size x + n) 0

@[simp]
theorem total_nil (size : α → Nat) : total size [] = 0 := rfl

@[simp]
theorem total_cons (size : α → Nat) (x : α) (xs : List α) :
    total size (x :: xs) = size x + total size xs := rfl

/-- The total after one member was replaced. -/
theorem total_set (size : α → Nat) {xs : List α} {i : Nat} {x : α} (y : α)
    (hx : xs[i]? = some x) : total size (xs.set i y) + size x = total size xs + size y := by
  induction xs generalizing i with
  | nil => cases hx
  | cons z zs ih =>
    cases i with
    | zero =>
      cases hx
      simp only [List.set_cons_zero, total_cons]
      omega
    | succ i =>
      have := ih (i := i) (by simpa using hx)
      simp only [List.set_cons_succ, total_cons]
      omega

end ConstraintSearch
