import ConstraintSearch.Word

/-!
# Shortest decimals of binary floating-point numbers

The text of a binary floating-point number is the shortest decimal that reads back as that number,
of those the one closest to it, and of two equally close ones the greater in magnitude. It is
written positionally, without an exponent and without a trailing point.

* `Binary.ofBits` decodes a finite number into `mantissa * 2 ^ exponent`; the reals that read back
  as it form an interval around it, whose ends belong to it if the mantissa is even;
* `shortest` tries 1, 2, …, 17 digits, and with each number of digits the two neighbours of the
  number on that decimal grid, in exact arithmetic on natural numbers;
* `Numeral.text` writes a decimal positionally, and `text` adds the sign and the values that are
  not finite.
-/

namespace ConstraintSearch.Decimal

/-- A non-negative number `mantissa * 2 ^ exponent`. At a power of two the gap to the number below
is half of the gap to the number above. -/
structure Binary where
  mantissa : Nat
  exponent : Int
  isPower : Bool
  deriving DecidableEq, Repr

/-- The magnitude of the finite number with the given bits. -/
def Binary.ofBits (bits : Nat) : Binary :=
  let fraction := bits % Word.count 52
  let scale := bits / Word.count 52 % Word.count 11
  if scale = 0 then ⟨fraction, -1074, false⟩
  else ⟨Word.count 52 + fraction, Int.ofNat scale - 1075, fraction = 0 ∧ 1 < scale⟩

/-- A fraction with a positive denominator, kept as numerator and denominator. -/
structure Fraction where
  num : Nat
  den : Nat
  deriving Repr

/-- `n * base ^ k`. -/
def Fraction.scaled (base n : Nat) (k : Int) : Fraction :=
  if 0 ≤ k then ⟨n * base.pow k.toNat, 1⟩ else ⟨n, base.pow (-k).toNat⟩

def Fraction.le (x y : Fraction) : Bool := x.num * y.den ≤ y.num * x.den

def Fraction.lt (x y : Fraction) : Bool := x.num * y.den < y.num * x.den

/-- The greatest integer that is at most `x / 10 ^ k`. -/
def Fraction.grid (x : Fraction) (k : Int) : Nat :=
  if 0 ≤ k then x.num / (x.den * Nat.pow 10 k.toNat)
  else x.num * Nat.pow 10 (-k).toNat / x.den

/-- The decimal `digits * 10 ^ exponent`. -/
structure Numeral where
  digits : Nat
  exponent : Int
  deriving DecidableEq, Repr

/-- Whether `candidate` reads back as `number`. Everything is taken four times as large, so that
the ends of the interval are integers times `2 ^ exponent`. -/
def readsBack (number : Binary) (candidate : Numeral) : Bool :=
  let below := if number.isPower then 1 else 2
  let low := Fraction.scaled 2 (4 * number.mantissa - below) number.exponent
  let high := Fraction.scaled 2 (4 * number.mantissa + 2) number.exponent
  let value := Fraction.scaled 10 (4 * candidate.digits) candidate.exponent
  if number.mantissa % 2 = 0 then low.le value && value.le high
  else low.lt value && value.lt high

/-- The exponent `e` with `10 ^ (e - 1) ≤ number < 10 ^ e`, found upwards from a lower estimate. -/
def magnitude (number : Fraction) : Nat → Int → Int
  | 0, e => e
  | steps + 1, e =>
      if number.lt (Fraction.scaled 10 1 e) then e else magnitude number steps (e + 1)

/-- A lower estimate of `magnitude` from the position of the leading bit, off by at most two. -/
def estimate (number : Binary) : Int :=
  ((number.mantissa.log2 + number.exponent) * 30103).fdiv 100000 - 1

/-- Of the two neighbours of `value` on the grid `10 ^ k`, one that reads back as `number`; of two
such neighbours the closer, and the upper of two equally close ones. -/
def neighbour? (number : Binary) (value : Fraction) (k : Int) : Option Numeral :=
  let low : Numeral := ⟨value.grid k, k⟩
  let high : Numeral := ⟨value.grid k + 1, k⟩
  match readsBack number low, readsBack number high with
  | false, false => none
  | true, false => some low
  | false, true => some high
  | true, true =>
      let middle := Fraction.scaled 10 (2 * low.digits + 1) k
      if (Fraction.mk (2 * value.num) value.den).lt middle then some low else some high

/-- The first decimal that reads back as `number` on the grids with `count`, `count + 1`, …
digits; after `steps` grids the exact integer part is given. -/
def search (number : Binary) (value : Fraction) (top : Int) : Nat → Nat → Numeral
  | 0, _ => ⟨value.grid 0, 0⟩
  | steps + 1, count =>
      match neighbour? number value (top - count) with
      | some decimal => decimal
      | none => search number value top steps (count + 1)

/-- The shortest decimal that reads back as `number`. -/
def shortest (number : Binary) : Numeral :=
  if number.mantissa = 0 then ⟨0, 0⟩
  else
    let value := Fraction.scaled 2 number.mantissa number.exponent
    search number value (magnitude value 8 (estimate number)) 17 1

/-- The digits of a fractional part of `places` places, without zeros at the end. -/
def fractionDigits (part places : Nat) : List Char :=
  let digits := (toString part).toList
  let padded := List.replicate (places - digits.length) '0' ++ digits
  (padded.reverse.dropWhile (· = '0')).reverse

/-- A decimal in positional notation. -/
def Numeral.text (d : Numeral) : String :=
  if 0 ≤ d.exponent then toString (d.digits * Nat.pow 10 d.exponent.toNat)
  else
    let places := (-d.exponent).toNat
    let whole := toString (d.digits / Nat.pow 10 places)
    match fractionDigits (d.digits % Nat.pow 10 places) places with
    | [] => whole
    | digits => whole ++ "." ++ String.ofList digits

/-- The text of a floating-point number. -/
def text (x : Float) : String :=
  if x.isNaN then "NaN"
  else
    let bits := x.toBits.toNat
    let sign := if bits / Word.count 63 = 1 then "-" else ""
    if x.isInf then sign ++ "inf" else sign ++ (shortest (Binary.ofBits bits)).text

example : (shortest (Binary.ofBits 0x3fb999999999999a)).text = "0.1" := by decide +kernel
example : (shortest (Binary.ofBits 0x0000000000000001)).digits = 5 := by decide +kernel
example : (shortest (Binary.ofBits 0x444b1ae4d6e2ef50)).text = "1000000000000000000000" := by
  decide +kernel

end ConstraintSearch.Decimal
