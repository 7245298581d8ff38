import Mathlib.Logic.Equiv.Basic
import Mathlib.Logic.Relation
import ConstraintSearch.Branching.Brancher
import ConstraintSearch.Proofs.Assignments

/-!
# The theory of symmetries

A symmetry that is declared for a brancher allows some exchanges of the values at its positions: of
two positions, or of two values at all positions at once.

* `Exchange.apply`: what an exchange makes of the values at the positions;
* `Symmetry.Allows`: the exchanges that a symmetry allows;
* `Symmetry.exists_allows_of_mem_images`: an image of an equation is turned into the equation by an
  exchange;
* `Symmetry.Allows.of_update`: the exchanges that are left after an equation keep the equation;
* `IntBrancher.Exchanges`, `IntBrancher.Reaches`: one exchange of an assignment, or several.
-/

namespace ConstraintSearch

/-- An exchange of two positions, or of two values. -/
inductive Exchange
  | positions (p q : Nat)
  | values (v w : Int)

/-- The values at the positions after an exchange. -/
def Exchange.apply (u : Nat → Option Int) : Exchange → Nat → Option Int
  | positions p q, r => u (Equiv.swap p q r)
  | values v w, r => (u r).map (Equiv.swap v w)

namespace Symmetry

/-- The symmetry allows the exchange. -/
def Allows : Symmetry → Exchange → Prop
  | positions ps, .positions p q => p ∈ ps ∧ q ∈ ps
  | values vs, .values v w => v ∈ vs ∧ w ∈ vs
  | positions _, .values _ _ | values _, .positions _ _ => False

variable {σ : Symmetry} {p q : Nat} {v w : Int} {e : Exchange}

/-- An image of "the value at `p` is `v`" is turned into this equation by an exchange. -/
theorem exists_allows_of_mem_images (h : (q, w) ∈ σ.images p v) :
    ∃ e, σ.Allows e ∧ ∀ u : Nat → Option Int, u q = some w → e.apply u p = some v := by
  cases σ with
  | positions ps =>
    simp only [images] at h
    by_cases hp : ps.contains p = true
    · rw [if_pos hp] at h
      obtain ⟨other, hother, heq⟩ := List.mem_map.1 h
      cases heq
      refine ⟨.positions p q, ⟨List.contains_iff_mem.1 hp, (List.mem_filter.1 hother).1⟩, ?_⟩
      intro u hu
      show u (Equiv.swap p q p) = some v
      rw [Equiv.swap_apply_left, hu]
    · rw [if_neg hp] at h
      cases h
  | values vs =>
    simp only [images] at h
    by_cases hv : vs.contains v = true
    · rw [if_pos hv] at h
      obtain ⟨other, hother, heq⟩ := List.mem_map.1 h
      cases heq
      refine ⟨.values v w, ⟨List.contains_iff_mem.1 hv, (List.mem_filter.1 hother).1⟩, ?_⟩
      intro u hu
      show (u p).map (Equiv.swap v w) = some v
      rw [hu, Option.map_some, Equiv.swap_apply_right]
    · rw [if_neg hv] at h
      cases h

/-- What the symmetry still allows once the value at `p` is `v`, it allowed before, and this keeps
the equation. -/
theorem Allows.of_update (h : (σ.update p v).Allows e) :
    σ.Allows e ∧ ∀ u : Nat → Option Int, u p = some v → e.apply u p = some v := by
  cases σ with
  | positions ps =>
    cases e with
    | positions q r =>
      obtain ⟨hq, hr⟩ := h
      obtain ⟨hq, hqp⟩ := List.mem_filter.1 hq
      obtain ⟨hr, hrp⟩ := List.mem_filter.1 hr
      refine ⟨⟨hq, hr⟩, ?_⟩
      intro u hu
      show u (Equiv.swap q r p) = some v
      rw [Equiv.swap_apply_of_ne_of_ne (Ne.symm (of_decide_eq_true hqp))
        (Ne.symm (of_decide_eq_true hrp)), hu]
    | values w w' => exact h.elim
  | values vs =>
    cases e with
    | positions q r => exact h.elim
    | values w w' =>
      obtain ⟨hw, hw'⟩ := h
      obtain ⟨hw, hwv⟩ := List.mem_filter.1 hw
      obtain ⟨hw', hwv'⟩ := List.mem_filter.1 hw'
      refine ⟨⟨hw, hw'⟩, ?_⟩
      intro u hu
      show (u p).map (Equiv.swap w w') = some v
      rw [hu, Option.map_some, Equiv.swap_apply_of_ne_of_ne (Ne.symm (of_decide_eq_true hwv))
        (Ne.symm (of_decide_eq_true hwv'))]

/-- An update names no other positions. -/
theorem within_update {count : Nat} (h : σ.within count = true) :
    (σ.update p v).within count = true := by
  cases σ with
  | positions ps =>
    refine List.all_eq_true.2 ?_
    intro q hq
    exact List.all_eq_true.1 h q (List.mem_filter.1 hq).1
  | values vs => rfl

/-- The positions of images are named by the symmetry, or are the position itself. -/
theorem lt_of_mem_images {count : Nat} (h : σ.within count = true) (hp : p < count)
    (himage : (q, w) ∈ σ.images p v) : q < count := by
  cases σ with
  | positions ps =>
    simp only [images] at himage
    split at himage
    · obtain ⟨other, hother, heq⟩ := List.mem_map.1 himage
      cases heq
      exact of_decide_eq_true (List.all_eq_true.1 h q (List.mem_filter.1 hother).1)
    · cases himage
  | values vs =>
    simp only [images] at himage
    split at himage
    · obtain ⟨other, -, heq⟩ := List.mem_map.1 himage
      cases heq
      exact hp
    · cases himage

end Symmetry

namespace IntBrancher

/-- The value at a position of the brancher. -/
def valueAt (b : IntBrancher) (a : Assignment) (p : Nat) : Option Int := (b.vars.get? p).map a.value

/-- An exchange that a symmetry of the brancher allows turns the first assignment into the
second. -/
def Exchanges (b : IntBrancher) (a a' : Assignment) : Prop :=
  ∃ σ ∈ b.symmetries, ∃ e, σ.Allows e ∧ b.valueAt a' = e.apply (b.valueAt a)

/-- Some exchanges turn the first assignment into the second. -/
def Reaches (b : IntBrancher) : Assignment → Assignment → Prop := Relation.ReflTransGen b.Exchanges

end IntBrancher

end ConstraintSearch
