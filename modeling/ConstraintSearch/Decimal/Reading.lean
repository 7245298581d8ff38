/-!
# Reading decimal numbers

Numbers as they are written on a command line.

* `Decimal.natural?` reads digits behind an optional plus;
* `Decimal.integer?` reads digits behind an optional sign;
* `Decimal.float?` reads digits with an optional point and an optional exponent behind an optional
  sign, and the words `inf`, `infinity` and `nan` in any case. The result is the number closest to
  what is written.

A number outside the stated limits is not read at all; a float beyond the greatest one is infinite.
-/

namespace ConstraintSearch.Decimal

/-- The number that digits write down. -/
def ofDigits (digits : List Char) : Nat := digits.foldl (fun n d => 10 * n + (d.toNat - 48)) 0

/-- The number that a whole text of digits writes down. -/
def digits? (text : List Char) : Option Nat :=
  if text.isEmpty || !text.all Char.isDigit then none else some (ofDigits text)

/-- A number up to a limit. -/
def natural? (limit : Nat) (text : String) : Option Nat := do
  let n ← match text.toList with
    | '+' :: digits => digits? digits
    | digits => digits? digits
  if n ≤ limit then return n else none

/-- A number between two limits. -/
def integer? (lower upper : Int) (text : String) : Option Int := do
  let v : Int ← match text.toList with
    | '+' :: digits => (digits? digits).map fun n : Nat => (n : Int)
    | '-' :: digits => (digits? digits).map fun n : Nat => -(n : Int)
    | digits => (digits? digits).map fun n : Nat => (n : Int)
  if lower ≤ v ∧ v ≤ upper then return v else none

/-- What follows the digits of a float: nothing, or an exponent. -/
def exponent? : List Char → Option Int
  | [] => some 0
  | mark :: text =>
      if mark ≠ 'e' ∧ mark ≠ 'E' then none
      else
        match text with
        | '-' :: digits => (digits? digits).map fun n : Nat => -(n : Int)
        | '+' :: digits => (digits? digits).map fun n : Nat => (n : Int)
        | digits => (digits? digits).map fun n : Nat => (n : Int)

/-- The float closest to `m * 10 ^ e`. Below `10 ^ (-400)` and from `10 ^ 400` on, it does not
depend on `m` any more. -/
def scaled (m : Nat) (e : Int) : Float :=
  let magnitude := e + (Nat.toDigits 10 m).length
  if m = 0 ∨ magnitude < -400 then 0.0
  else if 400 < magnitude then 1.0 / 0.0
  else Float.ofScientific m (decide (e < 0)) e.natAbs

/-- A float without a sign. -/
def magnitude? (text : List Char) : Option Float :=
  let word := String.ofList (text.map Char.toLower)
  if word = "inf" ∨ word = "infinity" then some (1.0 / 0.0)
  else if word = "nan" then some (0.0 / 0.0)
  else
    let (whole, rest) := text.span Char.isDigit
    let (fraction, rest) := match rest with
      | '.' :: rest => rest.span Char.isDigit
      | rest => ([], rest)
    if whole.isEmpty && fraction.isEmpty then none
    else (exponent? rest).map fun e => scaled (ofDigits (whole ++ fraction)) (e - fraction.length)

/-- A float. -/
def float? (text : String) : Option Float :=
  match text.toList with
  | '-' :: text => (magnitude? text).map fun x => -x
  | '+' :: text => magnitude? text
  | text => magnitude? text

end ConstraintSearch.Decimal
