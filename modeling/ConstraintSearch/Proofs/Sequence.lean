import Mathlib.Algebra.Ring.Int.Defs
import Mathlib.Data.Nat.Count
import ConstraintSearch.Sequence

/-!
# Luby's sequence by reluctant doubling

Luby's sequence falls into blocks: its first `2 ^ (k + 1) - 1` values are the first `2 ^ k - 1`
values twice, and then `2 ^ k`. Reluctant doubling knows nothing of blocks. It holds a counter and
the value that is next, and compares this value to the lowest bit of the counter.

* `Luby.value`: the sequence, by recursion over the blocks, and `Luby.block_induction`: hence an
  induction over the blocks;
* `Luby.ones`: how often the value has been one, which is what the counter says;
* `Luby.value_succ`: a step of reluctant doubling is a step of the sequence;
* `Luby.Words`: reluctant doubling in words of 64 bits, with the lowest bit by two's complement;
* `Luby.reluctant_doubling`: what a Luby sequence returns, and that words are wide enough for it.
-/

namespace ConstraintSearch

/-! ### The lowest bit -/

/-- The ones of a word are those that it shares with another one and those that it does not. -/
theorem Word.and_add_and_not {k : Nat} (x y : BitVec k) : (x &&& y) + (x &&& ~~~y) = x := by
  have hdisjoint : (x &&& y) &&& (x &&& ~~~y) = 0#k := by
    ext i hi
    simp +contextual
  rw [BitVec.add_eq_or_of_and_eq_zero _ _ hdisjoint]
  ext i hi
  simp [← Bool.and_or_distrib_left]

namespace Sequence

theorem lowestBit_le (n : Nat) : lowestBit n ≤ n := Nat.sub_le ..

theorem lowestBit_two_pow (k : Nat) : lowestBit (2 ^ k) = 2 ^ k := by
  unfold lowestBit
  rw [Nat.and_two_pow_sub_one_eq_mod, Nat.mod_self, Nat.sub_zero]

/-- A bit above a positive number does not change its lowest bit. -/
theorem lowestBit_two_pow_add {k n : Nat} (hpos : 0 < n) (hlt : n < 2 ^ k) :
    lowestBit (2 ^ k + n) = lowestBit n := by
  have hand : (2 ^ k + n) &&& (2 ^ k + n - 1) = 2 ^ k + (n &&& (n - 1)) := by
    have hn := Nat.two_pow_add_eq_or_of_lt hlt 1
    have hpred := Nat.two_pow_add_eq_or_of_lt (by omega : n - 1 < 2 ^ k) 1
    have hboth := Nat.two_pow_add_eq_or_of_lt (Nat.and_le_left.trans_lt hlt : n &&& (n - 1) < _) 1
    rw [mul_one] at hn hpred hboth
    rw [Nat.add_sub_assoc hpos, hn, hpred, hboth, Nat.or_and_distrib_left]
  unfold lowestBit
  rw [hand, Nat.add_sub_add_left]

/-- The same where the number may be the bit itself. Then the sum is the next bit, and `v` is the
lowest bit of neither. -/
theorem lowestBit_two_pow_add_eq_iff {k n v : Nat} (hpos : 0 < n) (hn : n ≤ 2 ^ k) (hv : v ≤ 2 ^ k)
    (hne : n = 2 ^ k → v ≠ 2 ^ k) : lowestBit (2 ^ k + n) = v ↔ lowestBit n = v := by
  obtain hlt | rfl := hn.lt_or_eq
  · rw [lowestBit_two_pow_add hpos hlt]
  · rw [← Nat.two_mul, ← Nat.pow_succ', lowestBit_two_pow, lowestBit_two_pow]
    exact iff_of_false (by rw [Nat.pow_succ]; omega) (hne rfl).symm

/-- In two's complement, the lowest bit of a word is all that the word and its negative share. -/
theorem toNat_and_neg (x : BitVec 64) : (x &&& -x).toNat = lowestBit x.toNat := by
  have hsplit := Word.and_add_and_not x (-x)
  rw [BitVec.not_neg] at hsplit
  rw [BitVec.eq_sub_iff_add_eq.2 hsplit]
  by_cases hx : x = 0
  · subst hx
    rfl
  have hone : 1#64 ≤ x := by
    rw [BitVec.le_def]
    exact Nat.pos_of_ne_zero (by simpa [BitVec.toNat_eq] using hx)
  have hle : x &&& (x - 1#64) ≤ x := by
    rw [BitVec.le_def, BitVec.toNat_and]
    exact Nat.and_le_left
  rw [BitVec.toNat_sub_of_le hle, BitVec.toNat_and, BitVec.toNat_sub_of_le hone]
  rfl

theorem toInt_and_neg {w : Int64} {n : Nat} (h : w.toInt = n) :
    (w &&& -w).toInt = lowestBit n := by
  rw [← Int64.toInt_toBitVec, BitVec.toInt_eq_toNat_cond] at h
  rw [← Int64.toInt_toBitVec, Int64.toBitVec_and, Int64.toBitVec_neg, BitVec.toInt_eq_toNat_cond,
    toNat_and_neg]
  have hlt := w.toBitVec.isLt
  have hle := lowestBit_le w.toBitVec.toNat
  split at h
  · rw [if_pos (by omega), Int.ofNat_inj.1 h]
  · omega

end Sequence

namespace Luby

open Sequence

/-! ### The sequence by blocks -/

theorem one_lt_two_pow_log2 {n : Nat} (h : n + 1 ≠ 2 ^ (n + 1).log2) : 1 < 2 ^ (n + 1).log2 := by
  apply Nat.one_lt_two_pow
  intro hzero
  have hlt := Nat.lt_log2_self (n := n + 1)
  rw [hzero] at h hlt
  omega

/-- The `n`th value of Luby's sequence, where the first value has the number one: a power of two at
the end of a block, and before it what the sequence was at its beginning. -/
def value (n : Nat) : Nat :=
  let k := (n + 1).log2
  if n + 1 = 2 ^ k then 2 ^ (k - 1) else value (n + 1 - 2 ^ k)
termination_by n
decreasing_by
  have hone := one_lt_two_pow_log2 ‹_›
  have hle := Nat.log2_self_le (Nat.add_one_ne_zero n)
  omega

theorem value_of_last {k n : Nat} (h : n + 1 = 2 ^ (k + 1)) : value n = 2 ^ k := by
  rw [value, h, Nat.log2_two_pow]
  exact if_pos rfl

theorem value_of_inner {k m n : Nat} (h : n + 1 = 2 ^ (k + 1) + m) (hpos : 1 ≤ m)
    (hlt : m < 2 ^ (k + 1)) : value n = value m := by
  have hlog : (n + 1).log2 = k + 1 :=
    (Nat.log2_eq_iff (Nat.add_one_ne_zero n)).2 ⟨by omega, by rw [Nat.pow_succ]; omega⟩
  rw [value, hlog]
  exact (if_neg (by omega)).trans (congrArg value (by omega))

theorem value_one : value 1 = 1 := value_of_last (k := 0) rfl

/-- Induction over the blocks: a number is the last one of a block, or it comes in the block where
an earlier number comes among all. -/
theorem block_induction {P : Nat → Prop} (zero : P 0) (last : ∀ k n, n + 1 = 2 ^ (k + 1) → P n)
    (inner : ∀ k m n, n + 1 = 2 ^ (k + 1) + m → 1 ≤ m → m < 2 ^ (k + 1) → P m → P n) (n : Nat) :
    P n := by
  induction n using Nat.strong_induction_on with
  | _ n ih =>
    obtain rfl | hpos := Nat.eq_zero_or_pos n
    · exact zero
    obtain ⟨k, hk⟩ : ∃ k, (n + 1).log2 = k + 1 := by
      apply Nat.exists_eq_succ_of_ne_zero
      intro hzero
      have hlog := Nat.lt_log2_self (n := n + 1)
      rw [hzero] at hlog
      omega
    obtain ⟨hle, hlt⟩ := (Nat.log2_eq_iff (Nat.add_one_ne_zero n)).1 hk
    rw [Nat.pow_succ] at hlt
    have hone := Nat.one_lt_two_pow (Nat.succ_ne_zero k)
    by_cases h : n + 1 = 2 ^ (k + 1)
    · exact last k n h
    · exact inner k (n + 1 - 2 ^ (k + 1)) n (by omega) (by omega) (by omega) (ih _ (by omega))

theorem value_le {k n : Nat} (h : n < 2 ^ (k + 1)) : value n ≤ 2 ^ k := by
  induction n using block_induction with
  | zero =>
    rw [value]
    exact Nat.one_le_two_pow
  | last j n hn =>
    have hexp : j + 1 < k + 2 := (Nat.pow_lt_pow_iff_right Nat.one_lt_two).1 (by
      rw [← hn, Nat.pow_succ]
      omega)
    rw [value_of_last hn]
    exact Nat.pow_le_pow_right Nat.two_pos (by omega)
  | inner j m n hn hpos hlt ih =>
    rw [value_of_inner hn hpos hlt]
    exact ih (by omega)

/-! ### The ones of the sequence -/

/-- The number of ones among the first `n` values. -/
def ones (n : Nat) : Nat := Nat.count (fun m => value (m + 1) = 1) n

theorem ones_succ (n : Nat) : ones (n + 1) = ones n + if value (n + 1) = 1 then 1 else 0 :=
  Nat.count_succ _ n

theorem ones_one : ones 1 = 1 := by
  rw [ones_succ, value_one]
  rfl

theorem ones_mono : Monotone ones := Nat.count_monotone _

theorem ones_pos {n : Nat} (hn : 1 ≤ n) : 0 < ones n := by
  have hmono := ones_mono hn
  rw [ones_one] at hmono
  omega

/-- The ones of a block repeat those at the beginning. -/
theorem ones_append {k l m : Nat} (hl : l + 1 = 2 ^ (k + 1)) (hlt : m < 2 ^ (k + 1)) :
    ones (l + m) = ones l + ones m := by
  have hrepeat : ∀ j < m, value (l + j + 1) = value (j + 1) := by
    intro j hj
    exact value_of_inner (k := k) (by omega) (by omega) (by omega)
  unfold ones
  rw [Nat.count_add, Nat.add_left_cancel_iff]
  apply le_antisymm
  · apply Nat.count_mono_left
    intro j hj hone
    rwa [hrepeat j hj] at hone
  · apply Nat.count_mono_left
    intro j hj hone
    rwa [hrepeat j hj]

theorem ones_of_last {k n : Nat} (h : n + 1 = 2 ^ (k + 1)) : ones n = 2 ^ k := by
  induction k generalizing n with
  | zero =>
    obtain rfl : n = 1 := by omega
    exact ones_one
  | succ k ih =>
    have hk := Nat.one_lt_two_pow (Nat.succ_ne_zero k)
    -- The last value is not a one, and what comes before it is the beginning twice.
    obtain ⟨l, hl⟩ : ∃ l, l + 1 = 2 ^ (k + 1) := ⟨2 ^ (k + 1) - 1, by omega⟩
    obtain rfl : n = l + l + 1 := by
      rw [Nat.pow_succ] at h
      omega
    have hne : value (l + l + 1) ≠ 1 := by
      rw [value_of_last h]
      omega
    calc ones (l + l + 1) = ones (l + l) := by rw [ones_succ, if_neg hne, Nat.add_zero]
      _ = ones l + ones l := ones_append hl (by omega)
      _ = 2 ^ (k + 1) := by rw [ih hl, ← Nat.two_mul, Nat.pow_succ']

theorem ones_of_inner {k m n : Nat} (h : n + 1 = 2 ^ (k + 1) + m) (hlt : m < 2 ^ (k + 1)) :
    ones n = 2 ^ k + ones m := by
  have hpos := Nat.two_pow_pos (k + 1)
  obtain ⟨l, hl⟩ : ∃ l, l + 1 = 2 ^ (k + 1) := ⟨2 ^ (k + 1) - 1, by omega⟩
  obtain rfl : n = l + m := by omega
  rw [ones_append hl hlt, ones_of_last hl]

theorem ones_le {k n : Nat} (h : n < 2 ^ (k + 1)) : ones n ≤ 2 ^ k := by
  obtain ⟨l, hl⟩ : ∃ l, l + 1 = 2 ^ (k + 1) := ⟨2 ^ (k + 1) - 1, by omega⟩
  exact (ones_mono (by omega : n ≤ l)).trans_eq (ones_of_last hl)

/-! ### Reluctant doubling -/

/-- The value is doubled until it is the lowest bit of the number of ones. -/
theorem value_succ {n : Nat} (hn : 1 ≤ n) :
    value (n + 1) = if lowestBit (ones n) = value n then 1 else 2 * value n := by
  induction n using block_induction with
  | zero => omega
  | last k n h =>
    have hk := Nat.one_lt_two_pow (Nat.succ_ne_zero k)
    rw [ones_of_last h, value_of_last h, if_pos (lowestBit_two_pow k)]
    exact (value_of_inner (by omega) le_rfl hk).trans value_one
  | inner k m n h hpos hlt ih =>
    have ih := ih hpos
    rw [value_of_inner h hpos hlt, ones_of_inner h hlt]
    by_cases hlast : m + 1 = 2 ^ (k + 1)
    · -- The block ends with one more doubling than the beginning.
      have hend : n + 1 + 1 = 2 ^ (k + 2) := by
        rw [Nat.pow_succ]
        omega
      have hne : 2 ^ (k + 1) ≠ 2 ^ k := by
        rw [Nat.pow_succ]
        have := Nat.two_pow_pos k
        omega
      rw [value_of_last hend, value_of_last hlast, ones_of_last hlast, ← Nat.two_mul,
        ← Nat.pow_succ', lowestBit_two_pow, if_neg hne]
    · have hsame : lowestBit (2 ^ k + ones m) = value m ↔ lowestBit (ones m) = value m := by
        apply lowestBit_two_pow_add_eq_iff (ones_pos hpos) (ones_le hlt) (value_le hlt)
        intro hones hvalue
        -- The next value would be a one that the beginning of the block does not have.
        have hsucc := ones_le (k := k) (n := m + 1) (by omega)
        rw [ones_succ, ih, hones, hvalue, if_pos (lowestBit_two_pow k), if_pos rfl] at hsucc
        omega
      rw [value_of_inner (k := k) (m := m + 1) (by omega) (by omega) (by omega), ih]
      simp only [hsame]

end Luby

namespace Sequence

open Luby

theorem drop_succ (n : Nat) (s : Sequence) : s.drop (n + 1) = (s.drop n).next.2 := by
  induction n generalizing s with
  | zero => rfl
  | succ n ih => exact ih s.next.2

variable {base : Int}

/-- A step leads from the counter and the value that belong to `n` to those of the next number. -/
theorem next_luby {n : Nat} (hn : 1 ≤ n) :
    (luby (ones n) (value n) base).next =
      (saturate (value n * base), luby (ones (n + 1)) (value (n + 1)) base) := by
  rw [next, ones_succ, value_succ hn]
  by_cases h : lowestBit (ones n) = value n
  · rw [if_pos h, if_pos h, if_pos rfl]
  · rw [if_neg h, if_neg h, if_neg (by omega), Nat.add_zero]

theorem drop_luby (n : Nat) :
    (luby 1 1 base).drop n = luby (ones (n + 1)) (value (n + 1)) base := by
  induction n with
  | zero => rw [ones_one, value_one]; rfl
  | succ n ih => rw [drop_succ, ih, next_luby (by omega)]

/-- The counter and the value of a Luby sequence are less than `limit`. -/
def CountersBelow (limit : Nat) : Sequence → Prop
  | luby counter value _ => counter < limit ∧ value < limit
  | _ => False

instance (limit : Nat) : (s : Sequence) → Decidable (s.CountersBelow limit)
  | luby counter value _ => inferInstanceAs (Decidable (counter < limit ∧ value < limit))
  | constant _ | geometric _ _ => inferInstanceAs (Decidable False)

end Sequence

namespace Luby

open Sequence

/-! ### Reluctant doubling in words -/

/-- The counter and the value as words of 64 bits with sign. -/
structure Words where
  counter : Int64
  value : Int64

namespace Words

variable {s : Sequence} {w : Words} {v : Int} {n : Nat}

/-- The exact result `v` of `operation`, if it is a word. -/
def checked (operation : Operation) (v : Int) : Except Fault Int64 :=
  if (Int64.ofInt v).toInt = v then .ok (Int64.ofInt v) else .error (.overflow operation)

/-- A step on words. It faults where a result is no word. -/
def step (w : Words) : Except Fault Words := do
  let opposite ← checked .negate (-w.counter.toInt)
  if w.counter &&& opposite = w.value then
    return ⟨← checked .add (w.counter.toInt + 1), 1⟩
  else
    return ⟨w.counter, ← checked .multiply (w.value.toInt * 2)⟩

/-- The words after `n` steps. -/
def after : Nat → Except Fault Words
  | 0 => .ok ⟨1, 1⟩
  | n + 1 => after n >>= step

/-- The words are the counter and the value of the sequence. -/
def Hold (w : Words) : Sequence → Prop
  | .luby counter value _ => w.counter.toInt = counter ∧ w.value.toInt = value
  | _ => False

theorem checked_of_lt {operation : Operation} (hle : -2 ^ 63 ≤ v) (hlt : v < 2 ^ 63) :
    checked operation v = .ok (Int64.ofInt v) :=
  if_pos (Int64.toInt_ofInt_of_le hle hlt)

/-- A step on words is the step of the sequence, as long as two bits are left. -/
theorem Hold.step (h : w.Hold s) (hbelow : s.CountersBelow (2 ^ 62)) :
    ∃ w', w.step = .ok w' ∧ w'.Hold s.next.2 := by
  cases s with
  | constant value => exact h.elim
  | geometric current factor => exact h.elim
  | luby counter value base =>
    obtain ⟨hu, hv⟩ : w.counter.toInt = counter ∧ w.value.toInt = value := h
    obtain ⟨hcounter, hvalue⟩ : counter < 2 ^ 62 ∧ value < 2 ^ 62 := hbelow
    have hneg : checked .negate (-w.counter.toInt) = .ok (-w.counter) := by
      rw [checked_of_lt (by omega) (by omega), Int64.ofInt_neg, Int64.ofInt_toInt]
    have hbit : w.counter &&& -w.counter = w.value ↔ lowestBit counter = value := by
      rw [← Int64.toInt_inj, toInt_and_neg hu, hv, Int.ofNat_inj]
    simp only [Words.step, Sequence.next, hneg, bind, Except.bind, hbit]
    by_cases heq : lowestBit counter = value
    · rw [if_pos heq, if_pos heq, checked_of_lt (by omega) (by omega)]
      refine ⟨_, rfl, ?_, rfl⟩
      rw [Int64.toInt_ofInt_of_le (by omega) (by omega), hu]
      rfl
    · rw [if_neg heq, if_neg heq, checked_of_lt (by omega) (by omega)]
      refine ⟨_, rfl, hu, ?_⟩
      rw [Int64.toInt_ofInt_of_le (by omega) (by omega), hv]
      omega

theorem exists_after (hs : Hold ⟨1, 1⟩ s)
    (hbelow : ∀ m < n, (s.drop m).CountersBelow (2 ^ 62)) :
    ∃ w, after n = .ok w ∧ w.Hold (s.drop n) := by
  induction n with
  | zero => exact ⟨_, rfl, hs⟩
  | succ n ih =>
    obtain ⟨w, hw, hhold⟩ := ih fun m hm => hbelow m (by omega)
    rw [drop_succ, after, hw]
    exact hhold.step (hbelow n (by omega))

end Words

/-- **Reluctant doubling computes Luby's sequence.** The `n`th value is the product of the base and
the `n`th value of Luby's sequence, or the closest value in the range. As long as the counter and
the value are less than `2 ^ 62`, words of 64 bits hold them, and no operation on these words
faults. -/
theorem reluctant_doubling (base : Int) (factor : Float) {n : Nat} (hn : 1 ≤ n) :
    ((ofKind .luby base factor).drop (n - 1)).next.1 = saturate (base * value n) ∧
      ((∀ m < n, ((ofKind .luby base factor).drop m).CountersBelow (2 ^ 62)) →
        ∀ m ≤ n, ∃ w, Words.after m = .ok w ∧ w.Hold ((ofKind .luby base factor).drop m)) := by
  have hstart : ofKind .luby base factor = .luby 1 1 base := rfl
  have hfirst : Words.Hold ⟨1, 1⟩ (ofKind .luby base factor) := ⟨rfl, rfl⟩
  constructor
  · rw [hstart, drop_luby, Nat.sub_add_cancel hn, next_luby hn, Int.mul_comm]
  · intro hbelow m hm
    apply Words.exists_after hfirst
    intro j hj
    exact hbelow j (by omega)

/-- The fifteenth value is the first one that leaves the range if the base is `2 ^ 60`. -/
theorem reluctant_doubling_saturating :
    1 ≤ 15 ∧
      (∀ m < 15, ((ofKind .luby 1152921504606846976 1.5).drop m).CountersBelow (2 ^ 62)) ∧
      value 15 = 8 ∧
      ((ofKind .luby 1152921504606846976 1.5).drop 14).next.1 = 9223372036854775807 ∧
      ∀ m ≤ 15, ∃ w, Words.after m = .ok w ∧
        w.Hold ((ofKind .luby 1152921504606846976 1.5).drop m) := by
  have hbelow : ∀ m < 15,
      ((ofKind .luby 1152921504606846976 1.5).drop m).CountersBelow (2 ^ 62) := by decide
  have hvalue : value 15 = 8 := value_of_last (k := 3) rfl
  obtain ⟨hnext, hwords⟩ := reluctant_doubling 1152921504606846976 1.5 (n := 15) (by decide)
  rw [hvalue] at hnext
  exact ⟨by decide, hbelow, hvalue, hnext, hwords hbelow⟩

example : ((ofKind .luby 3 1.5).take 8).1 = [3, 3, 6, 3, 3, 6, 12, 3] := by decide

end Luby

end ConstraintSearch
