import ConstraintSearch.Domain.Event

/-!
# Set domains

The domain of a variable whose values are finite sets of integers: the elements that every value
includes, the elements that a value may include, and bounds on the number of elements. It denotes
the sets between `required` and `possible` with an admissible cardinality.

* `SetDomain.of?` builds a domain, if it denotes a set at all;
* `including`, `excluding`, `withCardinality` narrow it;
* `normalised` tightens the cardinality bounds to the two lists, and closes the list that the
  cardinality has decided. One pass is enough: closing a list makes both lists equal.

Both lists are kept in increasing order without repetitions. Their lengths are exact, where lengths
of 32 bits would wrap around for the list of all `2 ^ 32` values and for no other; that list is left
out.
-/

namespace ConstraintSearch

/-- The sets between `required` and `possible` that have from `cardMin` to `cardMax` elements. -/
structure SetDomain where
  required : List Int
  possible : List Int
  cardMin : Nat
  cardMax : Nat
  deriving DecidableEq, Repr

namespace SetDomain

/-- A list in increasing order without its repetitions. -/
def distinctSorted : List Int → List Int
  | [] => []
  | v :: vs =>
      match distinctSorted vs with
      | [] => [v]
      | w :: ws => if v = w then w :: ws else v :: w :: ws

/-- The elements of a list in increasing order, each once. -/
def sorted (values : List Int) : List Int := distinctSorted (values.mergeSort (· ≤ ·))

/-- Put a new element into its place in a list in increasing order. -/
def insertSorted (v : Int) (values : List Int) : List Int :=
  values.takeWhile (· < v) ++ v :: values.dropWhile (· < v)

/-- Tighten the cardinality by the lengths of the two lists, which are below `2 ^ 32`, and close the
list that the cardinality decides. `none` if no cardinality is left. -/
def normalised (d : SetDomain) : Option SetDomain :=
  let cardMin := max d.cardMin d.required.length
  let cardMax := min d.cardMax d.possible.length
  if cardMax < cardMin then none
  else if d.required.length = cardMax then some ⟨d.required, d.required, cardMin, cardMax⟩
  else if d.possible.length = cardMin then some ⟨d.possible, d.possible, cardMin, cardMax⟩
  else some ⟨d.required, d.possible, cardMin, cardMax⟩

/-- The domain of the sets between two sets with bounded cardinality, if there are any. -/
def of? (required possible : List Int) (cardMin cardMax : Nat) : Option SetDomain :=
  let required := sorted required
  let possible := sorted possible
  if required.all (possible.contains ·) then normalised ⟨required, possible, cardMin, cardMax⟩
  else none

/-- Whether every value includes `v`. -/
def isRequired (d : SetDomain) (v : Int) : Bool := d.required.contains v

/-- Whether some value may include `v`. -/
def isPossible (d : SetDomain) (v : Int) : Bool := d.possible.contains v

/-- The elements that are neither required nor ruled out. -/
def unknown (d : SetDomain) : List Int := d.possible.filter fun v => !d.isRequired v

/-- The least open element. -/
def leastUnknown? (d : SetDomain) : Option Int := d.possible.find? fun v => !d.isRequired v

/-- The number of open elements and of open steps between the cardinality bounds. -/
def freedom (d : SetDomain) : Nat :=
  (d.possible.length - d.required.length) + (d.cardMax - d.cardMin)

def isAssigned (d : SetDomain) : Bool := d.required.length = d.possible.length

/-- What was lost on the way from `d` to the smaller domain `narrowed`. -/
def eventTowards (d narrowed : SetDomain) : Event :=
  if narrowed = d then .none
  else if narrowed.isAssigned then .assigned
  else if narrowed.required ≠ d.required ∨ narrowed.possible ≠ d.possible then .domain
  else .bounds

/-- The normal form of a changed domain. -/
def changed (d : SetDomain) : Narrowing SetDomain :=
  match d.normalised with
  | some narrowed => .changed narrowed
  | none => .empty

/-- Keep the sets that include `v`. -/
def including (d : SetDomain) (v : Int) : Narrowing SetDomain :=
  if d.isRequired v then .unchanged
  else if !d.isPossible v then .empty
  else changed { d with required := insertSorted v d.required }

/-- Keep the sets that do not include `v`. -/
def excluding (d : SetDomain) (v : Int) : Narrowing SetDomain :=
  if !d.isPossible v then .unchanged
  else if d.isRequired v then .empty
  else changed { d with possible := d.possible.filter (· ≠ v) }

/-- Keep the sets that have from `least` to `greatest` elements. -/
def withCardinality (d : SetDomain) (least greatest : Nat) : Narrowing SetDomain :=
  let narrowed := { d with cardMin := max d.cardMin least, cardMax := min d.cardMax greatest }
  if narrowed = d then .unchanged else changed narrowed

/-- The elements in braces. -/
def listText (values : List Int) : String :=
  "\x7b" ++ ", ".intercalate (values.map toString) ++ "\x7d"

def text (d : SetDomain) : String :=
  if d.isAssigned then listText d.required
  else
    listText d.required ++ ".." ++ listText d.possible ++ "#[" ++ toString d.cardMin ++ ", "
      ++ toString d.cardMax ++ "]"

end SetDomain

end ConstraintSearch
