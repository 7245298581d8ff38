import Mathlib.Tactic.Linarith
import ConstraintSearch.Variable
import ConstraintSearch.Proofs.Store

/-!
# The theory of views

A view computes its value from the value of a store variable by multiplications and additions.

* `IntVar.eval` is that value, `IntVar.edge` a bound of it in a box; `edge_le_eval` and
  `eval_le_edge` say that the edges bound the values, and `exists_eval_eq_edge` that they are
  values;
* `IntVar.Computes x v`: no intermediate result overflows; the values with this property are
  convex (`Computes.of_between`);
* `yields_bound`, `yields_value?`, `yields_isFixed`, `yields_contains`: reading is exact;
* `yields_pull`: a restriction is carried back to an equivalent one;
* `yields_restrict`: narrowing a view keeps exactly the values whose image is kept.
-/

namespace ConstraintSearch

/-- A bound of a domain. -/
def IntDomain.extreme (d : IntDomain) : Side → Int
  | .lower => d.min
  | .upper => d.max

/-- A relation that bounds the value from one side. -/
def Relation.IsBound (r : Relation) : Prop := r = .atMost ∨ r = .atLeast

theorem Relation.not_isBound_equal : ¬Relation.equal.IsBound := by
  rintro (h | h) <;> cases h

theorem Relation.not_isBound_notEqual : ¬Relation.notEqual.IsBound := by
  rintro (h | h) <;> cases h

namespace IntVar

/-- The value of a variable where the store variable behind it has the value `v`. -/
def eval : IntVar → Int → Int
  | root _, v => v
  | affine inner scale offset, v => scale * inner.eval v + offset
  | bool inner, v => inner.eval v

/-- No view multiplies by zero. -/
def Proper : IntVar → Prop
  | root _ => True
  | affine inner scale _ => scale ≠ 0 ∧ inner.Proper
  | bool inner => inner.Proper

/-- No intermediate result of `eval` overflows. -/
def Computes : IntVar → Int → Prop
  | root _, v => Word.Fits v
  | affine inner scale offset, v =>
      inner.Computes v ∧ Word.Fits (scale * inner.eval v) ∧
        Word.Fits (scale * inner.eval v + offset)
  | bool inner, v => inner.Computes v

/-- The bound of the store variable from which a bound of the variable is computed. -/
def turn : IntVar → Side → Side
  | root _, side => side
  | affine inner scale _, side => inner.turn (if scale < 0 then side.flip else side)
  | bool inner, side => inner.turn side

/-- A bound of a variable in a box. -/
def edge (x : IntVar) (F : Box) (side : Side) : Int :=
  x.eval ((F.ints x.index).extreme (x.turn side))

/-- Every value that the box leaves to `x` stands in the relation to `v`. -/
def Restricted (x : IntVar) (relation : Relation) (v : Int) (F : Box) : Prop :=
  ∀ u ∈ F.ints x.index, relation.Holds (x.eval u) v

variable {x : IntVar} {F G : Box} {side : Side} {s s' : Store} {δ : Prop}

/-- The variable exists, and is proper unless divisions by zero are admitted. -/
structure Admissible (δ : Prop) (x : IntVar) (s : Store) : Prop where
  exists_var : x.index < s.ints.size
  proper : x.Proper ∨ δ

theorem Admissible.of_size_le (h : x.Admissible δ s) (hsize : s.ints.size ≤ s'.ints.size) :
    x.Admissible δ s' :=
  ⟨h.exists_var.trans_le hsize, h.proper⟩

/-! ### Edges -/

theorem turn_flip (x : IntVar) (side : Side) : x.turn side.flip = (x.turn side).flip := by
  induction x generalizing side with
  | root i => rfl
  | affine inner scale offset ih =>
    unfold turn
    split
    · exact ih side.flip
    · exact ih side
  | bool inner ih => exact ih side

/-- A variable whose upper bound comes from an upper bound grows with the store variable, the
others fall. -/
theorem eval_monotone (x : IntVar) {u v : Int} (h : u ≤ v) :
    x.turn .upper = .upper ∧ x.eval u ≤ x.eval v ∨
      x.turn .upper = .lower ∧ x.eval v ≤ x.eval u := by
  induction x with
  | root i => exact .inl ⟨rfl, h⟩
  | bool inner ih => exact ih
  | affine inner scale offset ih =>
    simp only [turn, eval]
    by_cases hs : scale < 0
    · rw [if_pos hs, turn_flip]
      rcases ih with ⟨ht, hle⟩ | ⟨ht, hle⟩
      · have := mul_le_mul_of_nonpos_left hle hs.le
        exact .inr ⟨by rw [ht]; rfl, by omega⟩
      · have := mul_le_mul_of_nonpos_left hle hs.le
        exact .inl ⟨by rw [ht]; rfl, by omega⟩
    · rw [if_neg hs]
      rcases ih with ⟨ht, hle⟩ | ⟨ht, hle⟩
      · have := mul_le_mul_of_nonneg_left hle (not_lt.1 hs)
        exact .inl ⟨ht, by omega⟩
      · have := mul_le_mul_of_nonneg_left hle (not_lt.1 hs)
        exact .inr ⟨ht, by omega⟩

theorem extreme_mem {d : IntDomain} (h : d.Canonical) (side : Side) : d.extreme side ∈ d := by
  cases side with
  | lower => exact h.min_mem
  | upper => exact h.max_mem

theorem exists_eval_eq_edge (h : (F.ints x.index).Canonical) (side : Side) :
    ∃ v ∈ F.ints x.index, x.eval v = x.edge F side :=
  ⟨_, extreme_mem h _, rfl⟩

theorem eval_le_edge (h : (F.ints x.index).Canonical) {v : Int} (hv : v ∈ F.ints x.index) :
    x.eval v ≤ x.edge F .upper := by
  unfold edge
  rcases x.eval_monotone (h.le_max hv) with ⟨ht, hle⟩ | ⟨ht, -⟩
  · rw [ht]
    exact hle
  · rcases x.eval_monotone (h.min_le hv) with ⟨ht', -⟩ | ⟨-, hle⟩
    · rw [ht] at ht'
      cases ht'
    · rw [ht]
      exact hle

theorem edge_le_eval (h : (F.ints x.index).Canonical) {v : Int} (hv : v ∈ F.ints x.index) :
    x.edge F .lower ≤ x.eval v := by
  have hflip : x.turn .lower = (x.turn .upper).flip := x.turn_flip .upper
  unfold edge
  rw [hflip]
  rcases x.eval_monotone (h.min_le hv) with ⟨ht, hle⟩ | ⟨ht, -⟩
  · rw [ht]
    exact hle
  · rcases x.eval_monotone (h.le_max hv) with ⟨ht', -⟩ | ⟨-, hle⟩
    · rw [ht] at ht'
      cases ht'
    · rw [ht]
      exact hle

theorem edge_lower_le_upper (h : (F.ints x.index).Canonical) :
    x.edge F .lower ≤ x.edge F .upper := by
  obtain ⟨v, hv, heq⟩ := exists_eval_eq_edge h .upper
  rw [← heq]
  exact edge_le_eval h hv

/-- A smaller domain has a greater lower edge. -/
theorem edge_lower_mono (hF : (F.ints x.index).Canonical) (hG : (G.ints x.index).Canonical)
    (h : F.ints x.index ≤ G.ints x.index) : x.edge G .lower ≤ x.edge F .lower := by
  obtain ⟨v, hv, heq⟩ := exists_eval_eq_edge hF .lower
  rw [← heq]
  exact edge_le_eval hG (h v hv)

/-- A smaller domain has a smaller upper edge. -/
theorem edge_upper_mono (hF : (F.ints x.index).Canonical) (hG : (G.ints x.index).Canonical)
    (h : F.ints x.index ≤ G.ints x.index) : x.edge F .upper ≤ x.edge G .upper := by
  obtain ⟨v, hv, heq⟩ := exists_eval_eq_edge hF .upper
  rw [← heq]
  exact eval_le_edge hG (h v hv)

theorem restricted_atMost (h : (F.ints x.index).Canonical) {v : Int} :
    x.Restricted .atMost v F ↔ x.edge F .upper ≤ v := by
  constructor
  · intro hall
    obtain ⟨u, hu, heq⟩ := exists_eval_eq_edge h .upper
    exact heq ▸ hall u hu
  · exact fun hle u hu => (eval_le_edge h hu).trans hle

theorem restricted_atLeast (h : (F.ints x.index).Canonical) {v : Int} :
    x.Restricted .atLeast v F ↔ v ≤ x.edge F .lower := by
  constructor
  · intro hall
    obtain ⟨u, hu, heq⟩ := exists_eval_eq_edge h .lower
    exact heq ▸ hall u hu
  · exact fun hle u hu => hle.trans (edge_le_eval h hu)

/-- A value between two values of the store variable that a variable can compute. -/
theorem Computes.of_between {u v w : Int} (hu : x.Computes u) (hw : x.Computes w) (huv : u ≤ v)
    (hvw : v ≤ w) : x.Computes v := by
  have between {a b c : Int} (ha : Word.Fits a) (hc : Word.Fits c)
      (h : a ≤ b ∧ b ≤ c ∨ c ≤ b ∧ b ≤ a) : Word.Fits b := by
    unfold Word.Fits at *
    omega
  induction x with
  | root i => exact between hu hw (.inl ⟨huv, hvw⟩)
  | bool inner ih => exact ih hu hw
  | affine inner scale offset ih =>
    obtain ⟨hu, hu₁, hu₂⟩ := hu
    obtain ⟨hw, hw₁, hw₂⟩ := hw
    have hproduct : scale * inner.eval u ≤ scale * inner.eval v ∧
        scale * inner.eval v ≤ scale * inner.eval w ∨
        scale * inner.eval w ≤ scale * inner.eval v ∧
        scale * inner.eval v ≤ scale * inner.eval u := by
      have hl := (affine inner scale 0).eval_monotone huv
      have hr := (affine inner scale 0).eval_monotone hvw
      simp only [eval, Int.add_zero] at hl hr
      rcases hl with ⟨ht, hl⟩ | ⟨ht, hl⟩
      · rcases hr with ⟨-, hr⟩ | ⟨ht', -⟩
        · exact .inl ⟨hl, hr⟩
        · rw [ht] at ht'
          cases ht'
      · rcases hr with ⟨ht', -⟩ | ⟨-, hr⟩
        · rw [ht] at ht'
          cases ht'
        · exact .inr ⟨hr, hl⟩
    exact ⟨ih hu hw, between hu₁ hw₁ hproduct, between hu₂ hw₂ (by omega)⟩

/-! ### Reading -/

theorem Computes.fits {v : Int} (h : x.Computes v) : Word.Fits (x.eval v) := by
  induction x with
  | root i => exact h
  | affine inner scale offset ih => exact h.2.2
  | bool inner ih => exact ih h

theorem yields_bound (hs : s.Sound) (hx : x.index < s.ints.size) (side : Side) :
    Yields δ (x.bound s side) fun v =>
      v = x.edge s.box side ∧ x.Computes ((s.box.ints x.index).extreme (x.turn side)) := by
  induction x generalizing side with
  | root i =>
    cases side with
    | lower =>
      refine (Store.yields_int hx).bind fun d hd => ?_
      subst hd
      exact ⟨rfl, hs.fits _ _ (hs.box.canonical _).min_mem⟩
    | upper =>
      refine (Store.yields_int hx).bind fun d hd => ?_
      subst hd
      exact ⟨rfl, hs.fits _ _ (hs.box.canonical _).max_mem⟩
  | affine inner scale offset ih =>
    refine (ih hx _).bind fun v hv => ?_
    refine (Word.yields_checked _ _).bind fun product hproduct => ?_
    refine (Word.yields_checked _ _).mono fun w hw => ?_
    obtain ⟨rfl, hv⟩ := hv
    obtain ⟨rfl, hproduct⟩ := hproduct
    exact ⟨hw.1, hv, hproduct, hw.2⟩
  | bool inner ih => exact ih hx side

theorem bound_of_computes (hx : x.index < s.ints.size) {side : Side}
    (h : x.Computes ((s.box.ints x.index).extreme (x.turn side))) :
    x.bound s side = .ok (x.edge s.box side) := by
  induction x generalizing side with
  | root i =>
    have hint : s.int i = .ok (s.box.ints i) := Store.int_of_lt hx
    cases side <;> simp only [bound, hint] <;> rfl
  | affine inner scale offset ih =>
    have hproduct : Word.mul scale (inner.edge s.box (if scale < 0 then side.flip else side)) =
        .ok _ := Word.checked_of_fits h.2.1
    simp only [bound]
    rw [ih hx h.1]
    show image scale offset _ = _
    unfold image
    rw [hproduct]
    exact Word.checked_of_fits h.2.2
  | bool inner ih => exact ih hx h

/-- Both bounds can be read. -/
def Readable (x : IntVar) (s : Store) : Prop :=
  ∀ side, x.Computes ((s.box.ints x.index).extreme (x.turn side))

theorem Readable.bound (h : x.Readable s) (hx : x.index < s.ints.size) (side : Side) :
    x.bound s side = .ok (x.edge s.box side) :=
  bound_of_computes hx (h side)

/-- A variable computes every value of a domain whose bounds it computes. -/
theorem Readable.computes (h : x.Readable s) (hc : (s.box.ints x.index).Canonical) {v : Int}
    (hv : v ∈ s.box.ints x.index) : x.Computes v := by
  have hflip : x.turn .upper = (x.turn .lower).flip := x.turn_flip .lower
  have hl := h .lower
  have hu := h .upper
  rw [hflip] at hu
  cases ht : x.turn .lower with
  | lower =>
    rw [ht] at hl hu
    exact hl.of_between hu (hc.min_le hv) (hc.le_max hv)
  | upper =>
    rw [ht] at hl hu
    exact hu.of_between hl (hc.min_le hv) (hc.le_max hv)

theorem Readable.of_evolves (h : x.Readable s) (hs : s.Sound) (hs' : s'.Sound)
    (hn : s.Evolves s') (hx : x.index < s.ints.size) : x.Readable s' := fun side =>
  h.computes (hs.box.canonical _)
    (hn.within.ints _ hx _ (extreme_mem (hs'.box.canonical _) (x.turn side)))

/-- The value of a variable that has the same value throughout its domain. -/
def fixedAt (x : IntVar) (F : Box) : Option Int :=
  if x.edge F .lower = x.edge F .upper then some (x.edge F .lower) else none

theorem fixedAt_eq_some {v : Int} :
    x.fixedAt F = some v ↔ x.edge F .lower = v ∧ x.edge F .upper = v := by
  unfold fixedAt
  split
  · rename_i h
    simp [← h]
  · rename_i h
    simp only [reduceCtorEq, false_iff, not_and]
    rintro rfl hu
    exact h hu.symm

theorem yields_value? (hs : s.Sound) (hx : x.index < s.ints.size) :
    Yields δ (x.value? s) fun v => v = x.fixedAt s.box ∧ x.Readable s := by
  refine (yields_bound hs hx .lower).bind fun l hl => ?_
  refine (yields_bound hs hx .upper).bind fun u hu => ?_
  obtain ⟨rfl, hl⟩ := hl
  obtain ⟨rfl, hu⟩ := hu
  exact ⟨rfl, fun side => by cases side <;> assumption⟩

theorem yields_isFixed (hs : s.Sound) (hx : x.index < s.ints.size) :
    Yields δ (x.isFixed s) fun b => b = (x.fixedAt s.box).isSome ∧ x.Readable s := by
  refine (yields_bound hs hx .lower).bind fun l hl => ?_
  refine (yields_bound hs hx .upper).bind fun u hu => ?_
  obtain ⟨rfl, hl⟩ := hl
  obtain ⟨rfl, hu⟩ := hu
  refine ⟨?_, fun side => by cases side <;> assumption⟩
  unfold fixedAt
  split <;> simp [*]

theorem Readable.value? (h : x.Readable s) (hx : x.index < s.ints.size) :
    x.value? s = .ok (x.fixedAt s.box) := by
  unfold IntVar.value? lower upper
  rw [h.bound hx, h.bound hx]
  rfl

theorem Readable.isFixed (h : x.Readable s) (hx : x.index < s.ints.size) :
    x.isFixed s = .ok (x.fixedAt s.box).isSome := by
  unfold IntVar.isFixed lower upper
  rw [h.bound hx, h.bound hx]
  unfold fixedAt
  show Except.ok _ = _
  split <;> simp [*]

/-! ### Narrowing -/

theorem le_fdiv_iff {a u v : Int} (ha : 0 < a) : u ≤ v.fdiv a ↔ u * a ≤ v := by
  rw [Int.fdiv_eq_ediv_of_nonneg v ha.le]
  exact Int.le_ediv_iff_mul_le ha

theorem le_fdiv_iff_of_neg {a u v : Int} (ha : a < 0) : u ≤ v.fdiv a ↔ v ≤ u * a := by
  rw [← Int.neg_fdiv_neg, le_fdiv_iff (by omega), Int.mul_neg]
  omega

/-- What a restriction that was carried back says about the store variable. -/
def Means (x : IntVar) (relation : Relation) (v : Int) : Pulled → Prop
  | .root i relation' w => i = x.index ∧ ∀ u, relation'.Holds u w ↔ relation.Holds (x.eval u) v
  | .never => ∀ u, ¬relation.Holds (x.eval u) v
  | .always => ∀ u, relation.Holds (x.eval u) v

theorem yields_preimage {scale : Int} (h : scale ≠ 0 ∨ δ) (offset v : Int) :
    Yields δ (preimage scale offset v) fun
      | some w => ∀ u, u = w ↔ scale * u + offset = v
      | none => ∀ u, scale * u + offset ≠ v := by
  refine (Word.yields_checked _ _).bind fun d hd => ?_
  obtain ⟨rfl, -⟩ := hd
  refine (Word.yields_rem h).bind fun r hr => ?_
  obtain ⟨rfl, hscale⟩ := hr
  split
  · rename_i hr
    refine (Word.yields_quot h).bind fun q hq => ?_
    obtain ⟨rfl, -⟩ := hq
    have hmul := Int.mul_tdiv_cancel_of_tmod_eq_zero hr
    intro u
    constructor
    · rintro rfl
      omega
    · intro heq
      exact Int.eq_of_mul_eq_mul_left hscale (by omega)
  · rename_i hr
    rintro u rfl
    apply hr
    simp

/-- Whether a value is among those of the variable. -/
theorem yields_contains (hx : x.Admissible δ s) (v : Int) :
    Yields δ (x.contains s v) fun b => b = true ↔ ∃ u ∈ s.box.ints x.index, x.eval u = v := by
  induction x generalizing v with
  | root i =>
    refine (Store.yields_int hx.exists_var).bind fun d hd => Yields.pure ?_
    subst hd
    rw [IntDomain.contains_iff_mem]
    exact ⟨fun hv => ⟨v, hv, rfl⟩, fun ⟨u, hu, heq⟩ => heq ▸ hu⟩
  | affine inner scale offset ih =>
    refine (yields_preimage (hx.proper.imp_left And.left) offset v).bind fun w hw => ?_
    cases w with
    | none => exact Yields.pure ⟨nofun, fun ⟨u, _, heq⟩ => absurd heq (hw _)⟩
    | some w =>
      refine (ih ⟨hx.exists_var, hx.proper.imp_left And.right⟩ w).mono fun b hb => ?_
      exact hb.trans (exists_congr fun u => and_congr_right fun _ => hw _)
  | bool inner ih => exact ih ⟨hx.exists_var, hx.proper⟩ v

/-- What a restriction of a view is carried back to. -/
def MeansOnce (scale offset : Int) (relation : Relation) (v : Int) :
    Option (Relation × Int) → Prop
  | some (relation', w) =>
      (∀ u, relation'.Holds u w ↔ relation.Holds (scale * u + offset) v) ∧
        (relation.IsBound → scale ≠ 0 ∧ relation'.IsBound)
  | none => ¬relation.IsBound ∧ ∀ u, scale * u + offset ≠ v

theorem yields_pullOnce {scale : Int} (h : scale ≠ 0 ∨ δ) (offset : Int) (relation : Relation)
    (v : Int) :
    Yields δ (pullOnce scale offset relation v) (MeansOnce scale offset relation v) := by
  cases relation with
  | equal =>
    refine (yields_preimage h offset v).bind fun w hw => ?_
    cases w with
    | none => exact ⟨Relation.not_isBound_equal, hw⟩
    | some w => exact ⟨hw, fun h => absurd h Relation.not_isBound_equal⟩
  | notEqual =>
    refine (yields_preimage h offset v).bind fun w hw => ?_
    cases w with
    | none => exact ⟨Relation.not_isBound_notEqual, hw⟩
    | some w => exact ⟨fun u => not_congr (hw u), fun h => absurd h Relation.not_isBound_notEqual⟩
  | atMost =>
    refine (Word.yields_checked _ _).bind fun d hd => ?_
    obtain ⟨rfl, -⟩ := hd
    split
    · rename_i hscale
      refine (Word.yields_ceilDiv h).bind fun w hw => ⟨fun u => ?_, fun _ => ⟨hw.2, .inr rfl⟩⟩
      obtain ⟨rfl, -⟩ := hw
      have := le_fdiv_iff_of_neg (u := -u) (v := -(v - offset)) hscale
      have := Int.mul_comm scale u
      have := Int.neg_mul u scale
      simp only [Relation.Holds]
      omega
    · refine (Word.yields_floorDiv h).bind fun w hw => ⟨fun u => ?_, fun _ => ⟨hw.2, .inl rfl⟩⟩
      obtain ⟨rfl, hne⟩ := hw
      have := le_fdiv_iff (u := u) (v := v - offset) (a := scale) (by omega)
      have := Int.mul_comm scale u
      simp only [Relation.Holds]
      omega
  | atLeast =>
    refine (Word.yields_checked _ _).bind fun d hd => ?_
    obtain ⟨rfl, -⟩ := hd
    split
    · rename_i hscale
      refine (Word.yields_floorDiv h).bind fun w hw => ⟨fun u => ?_, fun _ => ⟨hw.2, .inl rfl⟩⟩
      obtain ⟨rfl, -⟩ := hw
      have := le_fdiv_iff_of_neg (u := u) (v := v - offset) hscale
      have := Int.mul_comm scale u
      simp only [Relation.Holds]
      omega
    · refine (Word.yields_ceilDiv h).bind fun w hw => ⟨fun u => ?_, fun _ => ⟨hw.2, .inr rfl⟩⟩
      obtain ⟨rfl, hne⟩ := hw
      have := le_fdiv_iff (u := -u) (v := -(v - offset)) (a := scale) (by omega)
      have := Int.mul_comm scale u
      have := Int.neg_mul u scale
      simp only [Relation.Holds]
      omega

theorem yields_pull (h : x.Proper ∨ δ) (relation : Relation) (v : Int) :
    Yields δ (x.pull relation v) fun p =>
      x.Means relation v p ∧ (relation.IsBound → x.Proper) := by
  induction x generalizing relation v with
  | root i => exact ⟨⟨rfl, fun u => Iff.rfl⟩, fun _ => trivial⟩
  | bool inner ih => exact ih h relation v
  | affine inner scale offset ih =>
    refine (yields_pullOnce (h.imp_left And.left) offset relation v).bind fun r hr => ?_
    rcases r with _ | ⟨relation', w⟩
    · obtain ⟨hbound, hr⟩ := hr
      cases relation with
      | equal => exact ⟨fun u => hr _, fun h => absurd h hbound⟩
      | notEqual => exact ⟨fun u => hr _, fun h => absurd h hbound⟩
      | atMost => exact absurd (.inl rfl) hbound
      | atLeast => exact absurd (.inr rfl) hbound
    · obtain ⟨hiff, hbound⟩ := hr
      refine (ih (h.imp_left And.right) relation' w).mono fun p hp => ?_
      obtain ⟨hmeans, hproper⟩ := hp
      refine ⟨?_, fun h => ⟨(hbound h).1, hproper (hbound h).2⟩⟩
      cases p with
      | root i relation'' w' => exact ⟨hmeans.1, fun u => (hmeans.2 u).trans (hiff _)⟩
      | never => exact fun u hu => hmeans u ((hiff _).2 hu)
      | always => exact fun u => (hiff _).1 (hmeans u)

/-- A restriction can be carried back. -/
def CanPull (x : IntVar) (relation : Relation) (v : Int) : Prop :=
  ∃ p, x.pull relation v = .ok p ∧ x.Means relation v p

/-- A bound cannot be carried back through a view that multiplies by zero. -/
theorem CanPull.proper {relation : Relation} {v : Int} (h : x.CanPull relation v)
    (hbound : relation.IsBound) : x.Proper := by
  obtain ⟨p, hp, -⟩ := h
  exact ((yields_pull (.inr trivial) relation v : Yields True _ _).of_ok hp).2 hbound

theorem yields_restrict (hs : s.Sound) (hx : x.index < s.ints.size) (h : x.Proper ∨ δ)
    (relation : Relation) (v : Int) :
    Yields δ (x.restrict relation v s) fun r =>
      s.NarrowingLaw x.ref (x.Restricted relation v) r.1 r.2 ∧ x.CanPull relation v := by
  unfold restrict
  have hpull := yields_pull h relation v
  cases hp : x.pull relation v with
  | error fault =>
    rw [hp] at hpull
    exact hpull
  | ok p =>
    rw [hp] at hpull
    replace hpull := hpull.1
    have hcan : x.CanPull relation v := ⟨p, hp, hpull⟩
    cases p with
    | root i relation' w =>
      obtain ⟨rfl, hiff⟩ := hpull
      have hnarrowed := (hs.box.canonical x.index).restrict relation' w
      refine (Store.yields_narrowInt hs hx hnarrowed).mono fun r hr => ⟨?_, hcan⟩
      have hcondition : x.Restricted relation v =
          fun F => ∀ u ∈ F.ints x.index, relation'.Holds u w := by
        funext F
        simp only [Restricted, hiff]
      rw [hcondition]
      exact hr
    | never =>
      refine ⟨fun F hF _ hall => ?_, hcan⟩
      exact hpull _ (hall _ (hF.canonical _).min_mem)
    | always =>
      exact ⟨Store.narrowingLaw_unchanged hs fun u _ => hpull u, hcan⟩

/-- A narrowing of a view keeps exactly the values whose image is kept. -/
theorem mem_of_narrowedTo (hs : s.Sound) {relation : Relation} {v : Int} {event : Event}
    (h : s.NarrowedTo x.ref (x.Restricted relation v) event s') (hx : x.index < s.ints.size)
    (u : Int) : u ∈ s'.box.ints x.index ↔
      u ∈ s.box.ints x.index ∧ relation.Holds (x.eval u) v := by
  refine ⟨fun hu => ⟨h.narrows.within.ints _ hx u hu, h.holds u hu⟩, ?_⟩
  rintro ⟨hu, hholds⟩
  -- The box that differs from the store in leaving `x` the value `u` only.
  let F : Box := ⟨fun i => if i = x.index then .singleton u else s.box.ints i, s.box.sets⟩
  have hF : F.ints x.index = .singleton u := if_pos rfl
  have hsound : F.Sound := by
    refine ⟨fun i => ?_, hs.box.normal⟩
    show (if i = x.index then _ else _ : IntDomain).Canonical
    split
    · exact IntDomain.canonical_singleton u
    · exact hs.box.canonical i
  have hwithin : F.Within s := by
    refine ⟨fun i _ => ?_, fun i _ => SetDomain.le_refl _⟩
    show (if i = x.index then _ else _ : IntDomain) ≤ _
    split
    · rename_i hi
      intro w hw
      rw [IntDomain.mem_singleton] at hw
      rw [hw, hi]
      exact hu
    · exact IntDomain.le_refl _
  have hrestricted : x.Restricted relation v F := by
    intro w hw
    rw [hF, IntDomain.mem_singleton] at hw
    rw [hw]
    exact hholds
  refine (h.greatest F hsound hwithin hrestricted).ints x.index (h.narrows.size_ints ▸ hx) u ?_
  rw [hF, IntDomain.mem_singleton]

theorem extreme_eq_of_mem {d e : IntDomain} (hd : d.Canonical) (he : e.Canonical) (hle : e ≤ d)
    {side : Side} (hmem : d.extreme side ∈ e) : e.extreme side = d.extreme side := by
  cases side with
  | lower => exact le_antisymm (he.min_le hmem) (hd.min_le (hle _ he.min_mem))
  | upper => exact le_antisymm (hd.le_max (hle _ he.max_mem)) (he.le_max hmem)

/-- Narrowing the upper edge of `x` does not move the bound of a store variable from which the lower
edge of `x` comes. -/
theorem extreme_of_setUpper (hs : s.Sound) {v : Int} {event : Event}
    (h : s.NarrowedTo x.ref (x.Restricted .atMost v) event s') (hx : x.index < s.ints.size)
    (y : IntVar) (side : Side) (hy : y.index = x.index → y.turn side = x.turn .lower) :
    (s'.box.ints y.index).extreme (y.turn side) = (s.box.ints y.index).extreme (y.turn side) := by
  by_cases hi : y.index = x.index
  · rw [hi, hy hi]
    refine extreme_eq_of_mem (hs.box.canonical _) (h.sound.box.canonical _)
      (h.narrows.within.ints _ hx) ?_
    refine (mem_of_narrowedTo hs h hx _).2 ⟨extreme_mem (hs.box.canonical _) _, ?_⟩
    have hmin := (h.sound.box.canonical x.index).min_mem
    have hle : x.eval _ ≤ v := h.holds _ hmin
    exact (edge_le_eval (hs.box.canonical _) (h.narrows.within.ints _ hx _ hmin)).trans hle
  · rw [h.other_ints _ fun hr => hi (VarRef.int.inj hr)]

/-- Narrowing the lower edge of `x` does not move the bound of a store variable from which the upper
edge of `x` comes. -/
theorem extreme_of_setLower (hs : s.Sound) {v : Int} {event : Event}
    (h : s.NarrowedTo x.ref (x.Restricted .atLeast v) event s') (hx : x.index < s.ints.size)
    (y : IntVar) (side : Side) (hy : y.index = x.index → y.turn side = x.turn .upper) :
    (s'.box.ints y.index).extreme (y.turn side) = (s.box.ints y.index).extreme (y.turn side) := by
  by_cases hi : y.index = x.index
  · rw [hi, hy hi]
    refine extreme_eq_of_mem (hs.box.canonical _) (h.sound.box.canonical _)
      (h.narrows.within.ints _ hx) ?_
    refine (mem_of_narrowedTo hs h hx _).2 ⟨extreme_mem (hs.box.canonical _) _, ?_⟩
    have hmin := (h.sound.box.canonical x.index).min_mem
    have hle : v ≤ x.eval _ := h.holds _ hmin
    exact hle.trans (eval_le_edge (hs.box.canonical _) (h.narrows.within.ints _ hx _ hmin))
  · rw [h.other_ints _ fun hr => hi (VarRef.int.inj hr)]

/-- Nothing is narrowed where every value is kept. -/
theorem restrict_of_restricted (hs : s.Sound) (hx : x.index < s.ints.size) {relation : Relation}
    {v : Int} (h : x.CanPull relation v) (hv : x.Restricted relation v s.box) :
    x.restrict relation v s = .ok (.none, s) := by
  obtain ⟨p, hp, hmeans⟩ := h
  unfold restrict
  rw [hp]
  have hc := hs.box.canonical x.index
  cases p with
  | root i relation' w =>
    obtain ⟨rfl, hiff⟩ := hmeans
    have hsat : (s.box.ints x.index).satisfies relation' w = true :=
      hc.satisfies_iff.2 fun u hu => (hiff u).2 (hv u hu)
    have hunchanged : (s.box.ints x.index).restrict relation' w = .unchanged := if_pos hsat
    show s.narrowInt x.index _ = _
    unfold Store.narrowInt
    rw [Store.int_of_lt hx]
    simp only [bind, Except.bind, hunchanged]
    rfl
  | never => exact absurd (hv _ hc.min_mem) (hmeans _)
  | always => rfl

theorem pullOnce_eval {scale u : Int} (h : scale ≠ 0) (offset : Int) (relation : Relation)
    (hu : Word.Fits u) (hproduct : Word.Fits (scale * u)) :
    ∃ relation', pullOnce scale offset relation (scale * u + offset) =
      .ok (some (relation', u)) := by
  have hsub : Word.sub (scale * u + offset) offset = .ok (scale * u) := by
    unfold Word.sub
    rw [Int.add_sub_cancel]
    exact Word.checked_of_fits hproduct
  have htdiv : (scale * u).tdiv scale = u := Int.mul_tdiv_cancel_left u h
  have hquot : Word.quot (scale * u) scale = .ok u := by
    unfold Word.quot
    rw [if_neg h, htdiv]
    exact Word.checked_of_fits hu
  have hrem : Word.rem (scale * u) scale = .ok 0 := by
    unfold Word.rem
    rw [if_neg h, htdiv, if_pos hu, Int.mul_tmod_right]
  have hfloor : Word.floorDiv (scale * u) scale = .ok u := by
    unfold Word.floorDiv
    rw [hquot, Int.mul_fdiv_cancel_left u h]
    rfl
  have hceil : Word.ceilDiv (scale * u) scale = .ok u := by
    unfold Word.ceilDiv
    rw [hquot, ← Int.mul_neg, Int.mul_fdiv_cancel_left _ h, Int.neg_neg]
    rfl
  cases relation with
  | equal =>
    refine ⟨.equal, ?_⟩
    simp only [pullOnce, preimage, hsub, hrem, hquot, bind, Except.bind, if_true]
    rfl
  | notEqual =>
    refine ⟨.notEqual, ?_⟩
    simp only [pullOnce, preimage, hsub, hrem, hquot, bind, Except.bind, if_true]
    rfl
  | atMost =>
    simp only [pullOnce, hsub, hfloor, hceil, bind, Except.bind]
    split
    · exact ⟨.atLeast, rfl⟩
    · exact ⟨.atMost, rfl⟩
  | atLeast =>
    simp only [pullOnce, hsub, hfloor, hceil, bind, Except.bind]
    split
    · exact ⟨.atMost, rfl⟩
    · exact ⟨.atLeast, rfl⟩

/-- A restriction to a value that the variable computes can be carried back. -/
theorem canPull_eval (h : x.Proper) {u : Int} (hu : x.Computes u) (relation : Relation) :
    x.CanPull relation (x.eval u) := by
  have hok : ∃ p, x.pull relation (x.eval u) = .ok p := by
    induction x generalizing relation with
    | root i => exact ⟨_, rfl⟩
    | bool inner ih => exact ih h hu relation
    | affine inner scale offset ih =>
      obtain ⟨relation', honce⟩ :=
        pullOnce_eval h.1 offset relation hu.1.fits hu.2.1
      obtain ⟨p, hp⟩ := ih h.2 hu.1 relation'
      refine ⟨p, ?_⟩
      simp only [pull, eval, honce]
      exact hp
  obtain ⟨p, hp⟩ := hok
  have hmeans := yields_pull (δ := False) (.inl h) relation (x.eval u)
  exact ⟨p, hp, (hmeans.of_ok hp).1⟩

end IntVar

end ConstraintSearch
