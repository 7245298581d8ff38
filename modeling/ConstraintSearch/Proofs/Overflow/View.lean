import ConstraintSearch.Proofs.Overflow.Finishing

/-!
# Bounds that are carried back through views

To bound the view `scale * x + offset` is to bound `x`: the offset is subtracted from the bound, and
the difference is divided by the scale. Both operations are 32-bit arithmetic. The difference may
leave the range of values, and the quotient of the least value by `-1` does.

* `IntVar.Carries x side v`: the bound `v` on a side of `x` can be carried back to the store
  variable, said by sums and quotients of integers;
* `IntVar.exists_pull_iff`: the code carries back exactly these bounds;
* `IntVar.Carries.of_between`: they are convex, and `IntVar.Readable.carries_edge`: the bounds that
  a variable has are among them. A bound between the two is never lost to an overflow;
* `Propagation.finishes_setUpper_iff`, `Propagation.finishes_setLower_iff`: hence when the bound of
  a variable is set without a fault.
-/

namespace ConstraintSearch

/-! ### Quotients -/

/-- The quotient of two words is a word, unless it is the negative of the least one. -/
theorem Word.fits_tdiv_iff {a b : Int} (ha : Fits a) (hb : b ≠ 0) :
    Fits (a.tdiv b) ↔ (b = -1 → a ≠ least) := by
  by_cases hneg : b = -1
  · subst hneg
    rw [Int.tdiv_neg, Int.tdiv_one]
    unfold Fits least greatest at *
    omega
  refine iff_of_true ?_ fun h => absurd h hneg
  by_cases hone : b = 1
  · rwa [hone, Int.tdiv_one]
  -- Any other divisor halves the absolute value at least.
  have habs : (a.tdiv b).natAbs = a.natAbs / b.natAbs := Int.natAbs_tdiv a b
  have hhalf : a.natAbs / b.natAbs ≤ a.natAbs / 2 := Nat.div_le_div_left (by omega) (by omega)
  unfold Fits least greatest at *
  omega

theorem Word.exists_quot_iff {a b : Int} (ha : Fits a) :
    (∃ q, quot a b = .ok q) ↔ b ≠ 0 ∧ (b = -1 → a ≠ least) := by
  by_cases hb : b = 0
  · subst hb
    exact iff_of_false (fun ⟨q, hq⟩ => by cases hq) fun h => h.1 rfl
  · have hquot : quot a b = checked .divide (a.tdiv b) := if_neg hb
    rw [hquot, ← fits_tdiv_iff ha hb]
    simp only [checked_eq_ok]
    exact ⟨fun ⟨q, hq⟩ => ⟨hb, hq.1⟩, fun h => ⟨_, h.2, rfl⟩⟩

namespace Side

/-- How the values of a variable compare to the bound on this side. -/
def relation : Side → Relation
  | lower => .atLeast
  | upper => .atMost

/-- The side that a factor takes to this one. -/
def across (side : Side) (scale : Int) : Side := if scale < 0 then side.flip else side

/-- The quotient of a bound on this side, rounded towards the values. -/
def quotient : Side → Int → Int → Int
  | lower, a, b => -((-a).fdiv b)
  | upper, a, b => a.fdiv b

theorem quotient_mono {a b scale : Int} (hscale : 0 < scale) (h : a ≤ b) (side : Side) :
    side.quotient a scale ≤ side.quotient b scale := by
  have hfdiv {u v : Int} (h : u ≤ v) : u.fdiv scale ≤ v.fdiv scale :=
    (IntVar.le_fdiv_iff hscale).2 (((IntVar.le_fdiv_iff hscale).1 le_rfl).trans h)
  cases side with
  | lower => exact neg_le_neg (hfdiv (neg_le_neg h))
  | upper => exact hfdiv h

theorem quotient_antitone {a b scale : Int} (hscale : scale < 0) (h : a ≤ b) (side : Side) :
    side.quotient b scale ≤ side.quotient a scale := by
  have hfdiv {u v : Int} (h : u ≤ v) : v.fdiv scale ≤ u.fdiv scale :=
    (IntVar.le_fdiv_iff_of_neg hscale).2
      (h.trans ((IntVar.le_fdiv_iff_of_neg hscale).1 le_rfl))
  cases side with
  | lower => exact neg_le_neg (hfdiv (neg_le_neg h))
  | upper => exact hfdiv h

end Side

namespace IntVar

variable {x : IntVar} {side : Side} {s : Store} {u v w : Int}

/-- The bound `v` on a side of the variable can be carried back to the store variable: at each view
the difference is a word, and so is the quotient. -/
def Carries : IntVar → Side → Int → Prop
  | root _, _, _ => True
  | affine inner scale offset, side, v =>
      scale ≠ 0 ∧ Word.Fits (v - offset) ∧ (scale = -1 → v - offset ≠ Word.least) ∧
        inner.Carries (side.across scale) ((side.across scale).quotient (v - offset) scale)
  | bool inner, side, v => inner.Carries side v

instance decidableCarries : (x : IntVar) → (side : Side) → (v : Int) → Decidable (x.Carries side v)
  | root _, _, _ => inferInstanceAs (Decidable True)
  | affine inner scale offset, side, v =>
      have := inner.decidableCarries (side.across scale)
        ((side.across scale).quotient (v - offset) scale)
      inferInstanceAs (Decidable (scale ≠ 0 ∧ Word.Fits (v - offset) ∧
        (scale = -1 → v - offset ≠ Word.least) ∧ inner.Carries _ _))
  | bool inner, side, v => inner.decidableCarries side v

instance decidableComputes : (x : IntVar) → (v : Int) → Decidable (x.Computes v)
  | root _, v => inferInstanceAs (Decidable (Word.Fits v))
  | affine inner scale offset, v =>
      have := inner.decidableComputes v
      inferInstanceAs (Decidable (inner.Computes v ∧ Word.Fits (scale * inner.eval v) ∧
        Word.Fits (scale * inner.eval v + offset)))
  | bool inner, v => inner.decidableComputes v

instance (x : IntVar) (s : Store) : Decidable (x.Readable s) :=
  decidable_of_iff (x.Computes ((s.box.ints x.index).extreme (x.turn .lower)) ∧
      x.Computes ((s.box.ints x.index).extreme (x.turn .upper)))
    ⟨fun h side => by cases side <;> simp only [h], fun h => ⟨h .lower, h .upper⟩⟩

/-- The condition for a view of a store variable. -/
theorem carries_affine_root {i : Nat} {scale offset : Int} :
    (affine (root i) scale offset).Carries side v ↔
      scale ≠ 0 ∧ Word.Fits (v - offset) ∧ (scale = -1 → v - offset ≠ Word.least) := by
  simp only [Carries, and_true]

/-- No bound is carried back through a view that multiplies by zero. -/
theorem Carries.proper (h : x.Carries side v) : x.Proper := by
  induction x generalizing side v with
  | root i => trivial
  | affine inner scale offset ih => exact ⟨h.1, ih h.2.2.2⟩
  | bool inner ih => exact ih h

/-- A bound is carried back through one view by a subtraction and a division. -/
theorem pullOnce_relation (scale offset : Int) (side : Side) (v : Int) :
    pullOnce scale offset side.relation v = (do
      let difference ← Word.sub v offset
      let _ ← Word.quot difference scale
      return some ((side.across scale).relation,
        (side.across scale).quotient difference scale)) := by
  have hunfold : ∀ d : Int, Word.sub v offset = .ok d →
      pullOnce scale offset side.relation v = (do
        let _ ← Word.quot d scale
        return some ((side.across scale).relation, (side.across scale).quotient d scale)) := by
    intro d hd
    unfold Side.across
    by_cases hscale : scale < 0
    · cases side <;>
      · simp only [Side.relation, pullOnce, hd, if_pos hscale, bind, Except.bind, Word.floorDiv,
          Word.ceilDiv, Side.flip, Side.quotient]
        cases Word.quot d scale <;> rfl
    · cases side <;>
      · simp only [Side.relation, pullOnce, hd, if_neg hscale, bind, Except.bind, Word.floorDiv,
          Word.ceilDiv, Side.quotient]
        cases Word.quot d scale <;> rfl
  cases hd : Word.sub v offset with
  | error fault =>
    cases side <;>
    · simp only [Side.relation, pullOnce, hd]
      rfl
  | ok d => exact hunfold d hd

/-- The code carries back a bound if and only if this takes words to words. -/
theorem exists_pull_iff (side : Side) :
    (∃ p, x.pull side.relation v = .ok p) ↔ x.Carries side v := by
  induction x generalizing side v with
  | root i => exact iff_of_true ⟨_, rfl⟩ trivial
  | bool inner ih => exact ih side
  | affine inner scale offset ih =>
    unfold pull Carries
    rw [pullOnce_relation]
    unfold Word.sub
    by_cases hfits : Word.Fits (v - offset)
    case neg =>
      refine iff_of_false ?_ fun h => hfits h.2.1
      rintro ⟨p, hp⟩
      rw [Word.checked, if_neg hfits] at hp
      cases hp
    rw [Word.checked_of_fits hfits]
    by_cases hquot : ∃ q, Word.quot (v - offset) scale = .ok q
    case neg =>
      refine iff_of_false ?_ fun h => hquot ((Word.exists_quot_iff hfits).2 ⟨h.1, h.2.2.1⟩)
      rintro ⟨p, hp⟩
      obtain ⟨r, hr, -⟩ := Yields.exists_of_bind hp
      obtain ⟨d, hd, hr⟩ := Yields.exists_of_bind hr
      obtain ⟨q, hq, -⟩ := Yields.exists_of_bind hr
      cases hd
      exact hquot ⟨q, hq⟩
    obtain ⟨hscale, hne⟩ := (Word.exists_quot_iff hfits).1 hquot
    obtain ⟨q, hq⟩ := hquot
    simp only [bind, Except.bind, hq]
    exact (ih _).trans ⟨fun h => ⟨hscale, hfits, hne, h⟩, fun h => h.2.2.2⟩

/-- A bound that the variable computes can be carried back. -/
theorem carries_eval (h : x.Proper) (hu : x.Computes u) (side : Side) :
    x.Carries side (x.eval u) := by
  obtain ⟨p, hp, -⟩ := canPull_eval h hu side.relation
  exact (exists_pull_iff side).1 ⟨p, hp⟩

theorem Readable.carries_edge (h : x.Readable s) (hx : x.Proper) (side side' : Side) :
    x.Carries side (x.edge s.box side') :=
  carries_eval hx (h side') side

/-- A bound between two bounds that can be carried back. -/
theorem Carries.of_between (hu : x.Carries side u) (hw : x.Carries side w) (huv : u ≤ v)
    (hvw : v ≤ w) : x.Carries side v := by
  induction x generalizing side u v w with
  | root i => trivial
  | bool inner ih => exact ih hu hw huv hvw
  | affine inner scale offset ih =>
    obtain ⟨hscale, hfits, hne, hu⟩ := hu
    obtain ⟨-, hfits', -, hw⟩ := hw
    refine ⟨hscale, ?_, fun h => ?_, ?_⟩
    · unfold Word.Fits at *
      omega
    · have := hne h
      have := hfits.1
      omega
    · have huv : u - offset ≤ v - offset := by omega
      have hvw : v - offset ≤ w - offset := by omega
      -- A negative factor turns the order round.
      rcases lt_or_gt_of_ne hscale with hneg | hpos
      · exact ih hw hu (Side.quotient_antitone hneg hvw _) (Side.quotient_antitone hneg huv _)
      · exact ih hu hw (Side.quotient_mono hpos huv _) (Side.quotient_mono hpos hvw _)

end IntVar

namespace Propagation

variable {s : State} {x : IntVar} {v : Int}

theorem finishes_setUpper_iff (hs : s.Ready) (hx : x.index < s.store.ints.size) :
    (setUpper x v).Finishes s ↔ x.Carries .upper v :=
  (finishes_restrict_iff hs.alive hx).trans (IntVar.exists_pull_iff .upper)

theorem finishes_setLower_iff (hs : s.Ready) (hx : x.index < s.store.ints.size) :
    (setLower x v).Finishes s ↔ x.Carries .lower v :=
  (finishes_restrict_iff hs.alive hx).trans (IntVar.exists_pull_iff .lower)

end Propagation

end ConstraintSearch
