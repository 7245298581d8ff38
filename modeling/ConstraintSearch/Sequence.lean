import ConstraintSearch.Word

/-!
# Cutoff sequences

The sequences of fail limits between two restarts of a search. Values are integers of 64 bits and
saturate there.

`CutoffSequence` is the interface: the next value, and the sequence after it. `Sequence` are the
sequences that can be asked for:

* a *constant* sequence repeats its base;
* a *geometric* sequence multiplies the previous value by a factor, in floating point, and drops
  the fraction;
* a *Luby* sequence multiplies its base by 1, 1, 2, 1, 1, 2, 4, 1, 1, 2, 1, 1, 2, 4, 8, …, computed
  by reluctant doubling: the value is doubled until it is the lowest bit of the counter, then the
  counter advances and the value is one again.
-/

namespace ConstraintSearch

/-- A sequence of fail limits. -/
class CutoffSequence (ρ : Type) where
  next : ρ → Int × ρ

/-- The kinds of sequence. -/
inductive SequenceKind
  | constant
  | geometric
  | luby
  deriving DecidableEq, Repr

/-- A sequence is Luby's where none is asked for. -/
instance : Inhabited SequenceKind := ⟨.luby⟩

def SequenceKind.text : SequenceKind → String
  | .constant => "constant"
  | .geometric => "geometric"
  | .luby => "luby"

/-- A sequence of 64-bit integers, given by what is left of it. -/
inductive Sequence
  | constant (value : Int)
  | geometric (current : Int) (factor : Float)
  | luby (counter value : Nat) (base : Int)

namespace Sequence

/-- The 64-bit value closest to `v`. -/
def saturate (v : Int) : Int := max (-9223372036854775808) (min 9223372036854775807 v)

/-- The lowest one bit of `n`. -/
def lowestBit (n : Nat) : Nat := n - (n &&& (n - 1))

/-- The sequence of a kind from its start. -/
def ofKind (kind : SequenceKind) (base : Int) (factor : Float) : Sequence :=
  match kind with
  | .constant => .constant base
  | .geometric => .geometric base factor
  | .luby => .luby 1 1 base

/-- `current * factor` without its fraction, saturated; zero if it is not a number. -/
def grow (current : Int) (factor : Float) : Int :=
  ((Int64.ofInt current).toFloat * factor).toInt64.toInt

/-- The next value, and the sequence after it. -/
def next : Sequence → Int × Sequence
  | .constant value => (value, .constant value)
  | .geometric current factor => (current, .geometric (grow current factor) factor)
  | .luby counter value base =>
      (saturate (value * base),
        if lowestBit counter = value then .luby (counter + 1) 1 base
        else .luby counter (2 * value) base)

instance : CutoffSequence Sequence := ⟨next⟩

/-- The first `count` values, and the sequence after them. -/
def take : Nat → Sequence → List Int × Sequence
  | 0, s => ([], s)
  | count + 1, s =>
      let (value, s) := s.next
      let (values, s) := take count s
      (value :: values, s)

/-- The sequence without its first `count` values. -/
def drop : Nat → Sequence → Sequence
  | 0, s => s
  | count + 1, s => drop count s.next.2

end Sequence

end ConstraintSearch
