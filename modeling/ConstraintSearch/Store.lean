import ConstraintSearch.Table
import ConstraintSearch.Domain.IntDomain
import ConstraintSearch.Domain.SetDomain
import ConstraintSearch.Domain.FloatDomain

/-!
# The variable store

The domains of all variables of a space. A variable is named by its kind and its position; the same
name denotes the corresponding variable in every copy of the space.

`narrowInt`, `narrowSet` and `narrowFloat` replace a domain by a smaller one and report what was
lost; a narrowing to nothing leaves the store as it is and reports `Event.failed`.
-/

namespace ConstraintSearch

/-- The name of a variable. -/
inductive VarRef
  | int (index : Nat)
  | set (index : Nat)
  | float (index : Nat)
  deriving DecidableEq, Repr

/-- The name as it is printed. -/
def VarRef.text : VarRef → String
  | .int index => "x" ++ toString index
  | .set index => "s" ++ toString index
  | .float index => "f" ++ toString index

structure Store where
  ints : Table IntDomain
  sets : Table SetDomain
  floats : Table FloatDomain

namespace Store

instance : EmptyCollection Store := ⟨⟨∅, ∅, ∅⟩⟩

def int (s : Store) (index : Nat) : Except Fault IntDomain := s.ints.fetch index

def set (s : Store) (index : Nat) : Except Fault SetDomain := s.sets.fetch index

def float (s : Store) (index : Nat) : Except Fault FloatDomain := s.floats.fetch index

/-- Narrow the domain of an integer variable. -/
def narrowInt (s : Store) (index : Nat) (narrowing : IntDomain → Narrowing IntDomain) :
    Except Fault (Event × Store) := do
  let current ← s.int index
  match narrowing current with
  | .unchanged => return (.none, s)
  | .empty => return (.failed, s)
  | .changed narrowed =>
      return (current.eventTowards narrowed, { s with ints := s.ints.set index narrowed })

/-- Narrow the domain of a set variable. -/
def narrowSet (s : Store) (index : Nat) (narrowing : SetDomain → Narrowing SetDomain) :
    Except Fault (Event × Store) := do
  let current ← s.set index
  match narrowing current with
  | .unchanged => return (.none, s)
  | .empty => return (.failed, s)
  | .changed narrowed =>
      return (current.eventTowards narrowed, { s with sets := s.sets.set index narrowed })

/-- Narrow the domain of a float variable. -/
def narrowFloat (s : Store) (index : Nat) (narrowing : FloatDomain → Narrowing FloatDomain) :
    Except Fault (Event × Store) := do
  let current ← s.float index
  match narrowing current with
  | .unchanged => return (.none, s)
  | .empty => return (.failed, s)
  | .changed narrowed =>
      return (current.eventTowards narrowed, { s with floats := s.floats.set index narrowed })

/-- What the domains can still lose: the values of the integer variables, the open elements and
cardinalities of the set variables, and the numbers of the float variables. Every narrowing that
changes the domain of an integer or set variable makes it smaller. -/
def weight (s : Store) : Nat :=
  total IntDomain.size s.ints.toList + total SetDomain.freedom s.sets.toList
    + s.floats.size * Word.count 64

end Store

end ConstraintSearch
