import ConstraintSearch.Word

/-!
# Pseudo-random draws

A generator with 256 bits of state that produces words of 64 bits (xoshiro256++), seeded from one
word by a linear congruential sequence whose high bits are permuted (PCG).

* `Generator.ofSeed`, `Generator.next`;
* `Generator.below` draws from `0, …, range - 1` by widening multiplication: a word `v` is turned
  into the high half of `v * range`, and words whose low half exceeds the zone are drawn again;
* `Generator.index`, `Generator.word32` and `Generator.fraction` are draws from a range of
  indices, from a range of 32-bit values, and from `[0, 1)`.

`below_lt` says that a draw lies in its range, whatever the state.
-/

namespace ConstraintSearch

/-- The four words of state. -/
structure Generator where
  a : UInt64
  b : UInt64
  c : UInt64
  d : UInt64
  deriving DecidableEq, Repr

namespace Generator

/-- Rotate the bits of a word to the left. -/
def rotate (x : UInt64) (k : UInt64) : UInt64 := (x <<< k) ||| (x >>> (64 - k))

/-- The next word, and the generator after it. -/
def next (g : Generator) : UInt64 × Generator :=
  let word := rotate (g.a + g.d) 23 + g.a
  let shifted := g.b <<< 17
  let c := g.c ^^^ g.a
  let d := g.d ^^^ g.b
  (word, ⟨g.a ^^^ d, g.b ^^^ c, c ^^^ shifted, rotate d 45⟩)

/-- One step of the seeding sequence: its 32 output bits, and its next state. -/
def seedStep (state : UInt64) : UInt64 × UInt64 :=
  let state := state * 6364136223846793005 + 11634580027462260723
  let mixed := (((state >>> 18) ^^^ state) >>> 27).toUInt32
  let turn := (state >>> 59).toUInt32
  let output := if turn = 0 then mixed else (mixed >>> turn) ||| (mixed <<< (32 - turn))
  (output.toUInt64, state)

/-- The generator of a seed: two outputs of the seeding sequence for each word of state, the low
half first. -/
def ofSeed (seed : UInt64) : Generator :=
  let word (state : UInt64) : UInt64 × UInt64 :=
    let low := seedStep state
    let high := seedStep low.2
    (low.1 ||| (high.1 <<< 32), high.2)
  let a := word seed
  let b := word a.2
  let c := word b.2
  let d := word c.2
  ⟨a.1, b.1, c.1, d.1⟩

/-- The number of zero bits in front of the first one bit of a number below `Word.count width`. -/
def leadingZeros (width n : Nat) : Nat := if n = 0 then width else width - 1 - n.log2

/-- The greatest low half that is accepted for draws below `range` from words of `width` bits. -/
def zone (width range : Nat) : Nat :=
  ((range <<< leadingZeros width range) + Word.count width - 1) % Word.count width

/-- The number of words that are drawn before the last one is taken as it is; each is rejected
with probability below one half. -/
def attempts : Nat := 4096

/-- Draw words of `width` bits by `draw` until one is accepted for `range`. -/
def belowWith (width : Nat) (draw : Generator → Nat × Generator) (range : Nat) :
    Nat → Generator → Nat × Generator
  | 0, g =>
      let (v, g) := draw g
      (v % Word.count width * range / Word.count width, g)
  | tries + 1, g =>
      let (v, g) := draw g
      let product := v % Word.count width * range
      if product % Word.count width ≤ zone width range then (product / Word.count width, g)
      else belowWith width draw range tries g

/-- A word of 64 bits as a number. -/
def draw64 (g : Generator) : Nat × Generator :=
  let (v, g) := g.next
  (v.toNat, g)

/-- The high half of a word as a number. -/
def draw32 (g : Generator) : Nat × Generator :=
  let (v, g) := g.next
  ((v >>> 32).toNat, g)

/-- A draw from `0, …, range - 1`. -/
def below (range : Nat) (g : Generator) : Nat × Generator :=
  belowWith 64 draw64 range attempts g

/-- A draw from the indices `low, …, high - 1`. -/
def index (low high : Nat) (g : Generator) : Except Fault (Nat × Generator) :=
  if low < high then
    let (offset, g) := below (high - low) g
    .ok (low + offset, g)
  else .error .emptyRange

/-- A draw from the 32-bit values `low, …, high`. -/
def word32 (low high : Int) (g : Generator) : Except Fault (Int × Generator) :=
  if high < low then .error .emptyRange
  else
    let range := (high - low + 1).toNat
    if range = Word.count 32 then
      let (v, g) := draw32 g
      .ok (Word.wrap v, g)
    else
      let (offset, g) := belowWith 32 draw32 range attempts g
      .ok (low + offset, g)

/-- A draw from `[0, 1)`: 52 random bits behind the point of a number in `[1, 2)`, less one. -/
def fraction (g : Generator) : Float × Generator :=
  let (v, g) := g.next
  (Float.ofBits ((v >>> 12) ||| 0x3ff0000000000000) - 1.0, g)

theorem belowWith_lt (width : Nat) (draw : Generator → Nat × Generator) {range : Nat}
    (h : 0 < range) (tries : Nat) (g : Generator) :
    (belowWith width draw range tries g).1 < range := by
  have bound (v : Nat) : v % Word.count width * range / Word.count width < range := by
    rw [Nat.div_lt_iff_lt_mul (Word.count_pos width), Nat.mul_comm range]
    exact Nat.mul_lt_mul_of_pos_right (Nat.mod_lt _ (Word.count_pos width)) h
  induction tries generalizing g with
  | zero => exact bound _
  | succ tries ih =>
    unfold belowWith
    dsimp only
    split
    · exact bound _
    · exact ih _

/-- A draw lies in its range. -/
theorem below_lt {range : Nat} (h : 0 < range) (g : Generator) : (below range g).1 < range :=
  belowWith_lt 64 draw64 h attempts g

/-- A range of indices is refused exactly if it is empty, and a draw lies in it. -/
theorem index_bounds {low high : Nat} {g g' : Generator} {i : Nat}
    (h : index low high g = .ok (i, g')) : low ≤ i ∧ i < high := by
  unfold index at h
  split at h
  · rename_i hlt
    have := below_lt (show 0 < high - low by omega) g
    simp only [Except.ok.injEq, Prod.mk.injEq] at h
    omega
  · cases h

end Generator

end ConstraintSearch
