import Mathlib.Tactic.Ring
import ConstraintSearch.Propagator.Execution
import ConstraintSearch.Proofs.Propagator.Literal

/-!
# What propagators leave behind

Each propagator is described by the boxes on which it has nothing to do.

* `Propagator.Stable p F`: the box `F` is closed under the reasoning of `p`. A run never loses a
  stable box, and the greatest of them is what propagation computes;
* `Propagator.Rests p s`: on the store `s` a run of `p` would change nothing, would compute without
  overflow, and would answer that it has to stay. It is what a run that answers so has established,
  and it does not depend on changes that do not wake `p` (`rests_of_keeps`);
* `Propagator.Oriented p`: where `p` mentions a store variable more than once, narrowing one
  mention does not move the bound that is read from another. Without it, a run of an inequation may
  answer too early that it is at a fixpoint;
* `Propagator.WellFormed p s`: the handles of `p` are good, and its marks tell the truth.
-/

namespace ConstraintSearch

namespace IntVar

variable {x y : IntVar} {F G : Box} {s s' : Store} {δ : Prop}

/-- A variable is a linear function of the store variable. -/
theorem exists_slope (x : IntVar) : ∃ a b : Int, ∀ v, x.eval v = a * v + b := by
  induction x with
  | root i => exact ⟨1, 0, fun v => by simp [eval]⟩
  | affine inner scale offset ih =>
    obtain ⟨a, b, h⟩ := ih
    refine ⟨scale * a, scale * b + offset, fun v => ?_⟩
    simp only [eval, h]
    ring
  | bool inner ih => exact ih

/-- A variable that has one value at two places has it everywhere. -/
theorem eval_eq_of_eval_eq {u v : Int} (hne : u ≠ v) (h : x.eval u = x.eval v) (w : Int) :
    x.eval w = x.eval u := by
  obtain ⟨a, b, hab⟩ := x.exists_slope
  rw [hab, hab] at h
  have ha : a = 0 := by
    by_contra ha
    exact hne (Int.eq_of_mul_eq_mul_left ha (by omega))
  rw [hab, hab, ha]
  simp

/-- A variable is fixed if all its values are the same. -/
theorem fixedAt_eq_some_iff (h : (F.ints x.index).Canonical) {v : Int} :
    x.fixedAt F = some v ↔ ∀ u ∈ F.ints x.index, x.eval u = v := by
  rw [fixedAt_eq_some]
  constructor
  · rintro ⟨hl, hu⟩ u hmem
    have := edge_le_eval h hmem
    have := eval_le_edge h hmem
    omega
  · intro hall
    exact ⟨hall _ (extreme_mem h _), hall _ (extreme_mem h _)⟩

/-- A fixed variable stays fixed in a smaller domain. -/
theorem fixedAt_of_le (hF : (F.ints x.index).Canonical) (hG : (G.ints x.index).Canonical)
    (h : F.ints x.index ≤ G.ints x.index) {v : Int} (hv : x.fixedAt G = some v) :
    x.fixedAt F = some v := by
  rw [fixedAt_eq_some_iff hG] at hv
  exact (fixedAt_eq_some_iff hF).2 fun u hu => hv u (h u hu)

theorem isNone_fixedAt_of_le (hF : (F.ints x.index).Canonical) (hG : (G.ints x.index).Canonical)
    (h : F.ints x.index ≤ G.ints x.index) (hnone : (x.fixedAt F).isNone = true) :
    (x.fixedAt G).isNone = true := by
  cases hv : x.fixedAt G with
  | none => rfl
  | some v =>
    rw [fixedAt_of_le hF hG h hv] at hnone
    cases hnone

/-- Where no assignment was reported, a variable is as fixed as before. -/
theorem fixedAt_eq_of_keeps (hs : s.Sound) (hs' : s'.Sound) (hn : s.Evolves s')
    (hx : x.index < s.ints.size) (h : s.Keeps s' x.ref .value) :
    x.fixedAt s'.box = x.fixedAt s.box := by
  have hc := hs.box.canonical x.index
  have hc' := hs'.box.canonical x.index
  have hle := hn.within.ints _ hx
  cases hv : x.fixedAt s.box with
  | some v => exact fixedAt_of_le hc' hc hle hv
  | none =>
    cases hv' : x.fixedAt s'.box with
    | none => rfl
    | some v =>
      exfalso
      have hall := (fixedAt_eq_some_iff hc').1 hv'
      by_cases hassigned : (s'.box.ints x.index).isAssigned = true
      · have heq : s'.box.ints x.index = s.box.ints x.index := h hassigned
        have : x.fixedAt s.box = some v :=
          (fixedAt_eq_some_iff hc).2 fun u hu => hall u (heq ▸ hu)
        rw [hv] at this
        cases this
      · -- Two values are left, and so the view is constant.
        rw [hc'.isAssigned_iff] at hassigned
        have hmin := hall _ hc'.min_mem
        have hmax := hall _ hc'.max_mem
        have hconst := eval_eq_of_eval_eq hassigned (hmin.trans hmax.symm)
        have : x.fixedAt s.box = some v :=
          (fixedAt_eq_some_iff hc).2 fun u _ => (hconst u).trans hmin
        rw [hv] at this
        cases this

/-- Where no bound has moved, a variable has the bounds it had. -/
theorem edge_eq_of_keeps (h : s.Keeps s' x.ref .bounds) (side : Side) :
    x.edge s'.box side = x.edge s.box side := by
  obtain ⟨hmin, hmax⟩ := h
  unfold edge IntDomain.extreme
  cases x.turn side with
  | lower => simp only [hmin]
  | upper => simp only [hmax]

/-- The sum of the bounds of several variables. -/
def edges (F : Box) (side : Side) (terms : List IntVar) : Int :=
  (terms.map fun x => x.edge F side).sum

@[simp]
theorem edges_nil (F : Box) (side : Side) : edges F side [] = 0 := rfl

@[simp]
theorem edges_cons (F : Box) (side : Side) (x : IntVar) (xs : List IntVar) :
    edges F side (x :: xs) = x.edge F side + edges F side xs := by
  simp [edges]

/-- Whether several values are left. -/
def isOpen (F : Box) (x : IntVar) : Bool := (x.fixedAt F).isNone

/-- Once `x` has a value, the value of `y` is not `offset` above it. -/
def Excludes (x y : IntVar) (offset : Int) (F : Box) : Prop :=
  ∀ v, x.fixedAt F = some v → ∀ u ∈ F.ints y.index, y.eval u ≠ v + offset

theorem edges_congr {side : Side} {terms : List IntVar}
    (h : ∀ x ∈ terms, x.edge G side = x.edge F side) :
    edges G side terms = edges F side terms := by
  induction terms with
  | nil => rfl
  | cons x xs ih =>
    rw [edges_cons, edges_cons, h x (by simp), ih fun y hy => h y (by simp [hy])]

/-- A value that is removed from the values of a variable is removed from fewer values. -/
theorem Excludes.of_removed {offset v : Int} (hx : x.fixedAt F = some v)
    (hy : F.ints y.index ≤ G.ints y.index) (h : ∀ u ∈ G.ints y.index, y.eval u ≠ v + offset) :
    x.Excludes y offset F := by
  intro w hw u hu
  rw [hx] at hw
  cases hw
  exact h u (hy u hu)

end IntVar

namespace Propagator

/-- The box is closed under the reasoning of the propagator. -/
def Stable : Propagator → Box → Prop
  | notEquals a b offset, F => a.Excludes b (-offset) F ∧ b.Excludes a offset F
  | lessOrEqual a b offset, F =>
      a.edge F .upper + offset ≤ b.edge F .upper ∧ a.edge F .lower + offset ≤ b.edge F .lower
  | linearAtMost terms bound, F =>
      IntVar.edges F .lower terms ≤ bound ∧
        ∀ x ∈ terms, x.edge F .upper ≤ Word.greatest ∧
          x.edge F .upper + (IntVar.edges F .lower terms - x.edge F .lower) ≤ bound
  | linearEqual terms total, F =>
      IntVar.edges F .lower terms ≤ total ∧ total ≤ IntVar.edges F .upper terms ∧
        ∀ x ∈ terms,
          x.edge F .upper + (IntVar.edges F .lower terms - x.edge F .lower) ≤ total ∧
          total ≤ x.edge F .lower + (IntVar.edges F .upper terms - x.edge F .upper)
  | allDifferent vars, F =>
      (vars.map (·.1)).Pairwise fun x y => x.Excludes y 0 F ∧ y.Excludes x 0 F
  | clause literals, F =>
      (∃ x ∈ literals, x.fixedAt F = some 1) ∨ 2 ≤ literals.countP (IntVar.isOpen F)
  | setCardinality set x, F =>
      x.edge F .lower = (F.sets set).cardMin ∧ x.edge F .upper = (F.sets set).cardMax
  | noGoods levels _, F => NoGoods.Permits levels F
  | _, _ => True

theorem stable_allDifferent {vars : List (IntVar × Bool)} {F : Box} :
    (allDifferent vars).Stable F ↔
      (vars.map (·.1)).Pairwise fun x y => x.Excludes y 0 F ∧ y.Excludes x 0 F := Iff.rfl

/-- The marks have no influence on what is stable. -/
theorem stable_allDifferent_congr {vars vars' : List (IntVar × Bool)}
    (h : vars'.map (·.1) = vars.map (·.1)) :
    (allDifferent vars').Stable = (allDifferent vars).Stable := by
  funext F
  rw [eq_iff_iff, stable_allDifferent, stable_allDifferent, h]

/-- Narrowing one mention of a store variable does not move the bound read from another. -/
def Oriented : Propagator → Prop
  | lessOrEqual a b _ => a.index = b.index → a.turn .lower = b.turn .upper
  | linearAtMost terms _ =>
      ∀ x ∈ terms, ∀ y ∈ terms, x.index = y.index → x.turn .lower = y.turn .lower
  | _ => True

/-- The marks tell the truth: a marked variable has a value, which has been removed from the
others. -/
def Coherent (vars : List (IntVar × Bool)) (s : Store) : Prop :=
  ∀ (i : Nat) (x : IntVar), vars[i]? = some (x, true) → x.Readable s ∧
    ∃ v, x.fixedAt s.box = some v ∧ ∀ (j : Nat) (y : IntVar × Bool), j ≠ i →
      vars[j]? = some y → ∀ u ∈ s.box.ints y.1.index, y.1.eval u ≠ v

/-- The handles of the propagator are good, and its marks tell the truth. Only no-goods and the
propagators of the constraints on integers and sets are considered. -/
def WellFormed (δ : Prop) : Propagator → Store → Prop
  | notEquals a b _, s | lessOrEqual a b _, s => a.Admissible δ s ∧ b.Admissible δ s
  | linearAtMost terms _, s | linearEqual terms _, s => ∀ x ∈ terms, x.Admissible δ s
  | allDifferent vars, s => (∀ x ∈ vars, x.1.Admissible δ s) ∧ Coherent vars s
  | clause literals, s => ∀ x ∈ literals, x.Admissible δ s
  | setCardinality set x, s => set < s.sets.size ∧ x.Admissible δ s
  | noGoods levels start, s =>
      (∀ level ∈ levels, level.Admissible δ s) ∧ ∀ level ∈ levels.take start, level.Settled s.box
  | _, _ => False

/-- A run would change nothing, would have no overflow, and would answer that it has to stay. For
the cardinality of a set only this much is promised: the set is open, and its cardinality is not
bounded more closely than the variable. For no-goods only this much: at the first level that is not
settled, the explored branches are refuted, and the taken one need not hold. -/
def Rests : Propagator → Store → Prop
  | notEquals a b _, s =>
      a.Readable s ∧ b.Readable s ∧ a.fixedAt s.box = none ∧ b.fixedAt s.box = none
  | lessOrEqual a b offset, s =>
      a.Readable s ∧ b.Readable s ∧
        (Word.Fits (b.edge s.box .upper - offset) ∧
          a.CanPull .atMost (b.edge s.box .upper - offset) ∧
          a.edge s.box .upper ≤ b.edge s.box .upper - offset) ∧
        (Word.Fits (a.edge s.box .lower + offset) ∧
          b.CanPull .atLeast (a.edge s.box .lower + offset) ∧
          a.edge s.box .lower + offset ≤ b.edge s.box .lower) ∧
        Word.Fits (a.edge s.box .upper + offset) ∧
        b.edge s.box .lower < a.edge s.box .upper + offset
  | linearAtMost terms bound, s =>
      (∀ x ∈ terms, x.Readable s) ∧ IntVar.edges s.box .lower terms ≤ bound ∧
        (∀ x ∈ terms,
          x.CanPull .atMost
            (Word.clamp (x.edge s.box .lower + (bound - IntVar.edges s.box .lower terms))) ∧
          x.edge s.box .upper ≤
            Word.clamp (x.edge s.box .lower + (bound - IntVar.edges s.box .lower terms))) ∧
        bound < IntVar.edges s.box .upper terms
  | linearEqual terms total, s =>
      (∀ x ∈ terms, x.Readable s) ∧
        (IntVar.edges s.box .lower terms ≤ total ∧ total ≤ IntVar.edges s.box .upper terms) ∧
        (∀ x ∈ terms,
          (x.CanPull .atMost
            (Word.clamp (total - (IntVar.edges s.box .lower terms - x.edge s.box .lower))) ∧
          x.edge s.box .upper ≤
            Word.clamp (total - (IntVar.edges s.box .lower terms - x.edge s.box .lower))) ∧
          x.CanPull .atLeast
            (Word.clamp (total - (IntVar.edges s.box .upper terms - x.edge s.box .upper))) ∧
          Word.clamp (total - (IntVar.edges s.box .upper terms - x.edge s.box .upper)) ≤
            x.edge s.box .lower) ∧
        ∃ x ∈ terms, x.isOpen s.box = true
  | allDifferent vars, s =>
      (∀ x ∈ vars, x.1.Readable s) ∧ (∀ x ∈ vars, x.2 = false → x.1.fixedAt s.box = none) ∧
        ((vars.map (·.1)).countP (IntVar.isOpen s.box) = 1 ∨
          3 ≤ (vars.map (·.1)).countP (IntVar.isOpen s.box))
  | clause literals, s =>
      (∀ x ∈ literals, x.Readable s) ∧ (∀ x ∈ literals, x.fixedAt s.box ≠ some 1) ∧
        2 ≤ literals.countP (IntVar.isOpen s.box)
  | setCardinality set x, s =>
      x.Readable s ∧ x.Proper ∧ (s.box.sets set).isAssigned = false ∧
        ((s.box.sets set).cardMin : Int) ≤ x.edge s.box .lower ∧
        x.edge s.box .upper ≤ (s.box.sets set).cardMax
  | noGoods levels start, s =>
      ∃ level l, levels[start]? = some level ∧ (∀ l ∈ level.explored, l.Refuted s.box) ∧
        level.taken = some l ∧ ¬l.Holds s.box
  | _, _ => False

variable {p : Propagator} {s s' : Store} {F : Box} {δ : Prop}

theorem Coherent.of_evolves {vars : List (IntVar × Bool)} (h : Coherent vars s) (hs : s.Sound)
    (hs' : s'.Sound) (hn : s.Evolves s') (hvars : ∀ x ∈ vars, x.1.index < s.ints.size) :
    Coherent vars s' := by
  intro i x hi
  obtain ⟨hread, v, hv, hothers⟩ := h i x hi
  have hx := hvars _ (List.mem_of_getElem? hi)
  refine ⟨hread.of_evolves hs hs' hn hx, v, IntVar.fixedAt_of_le (hs'.box.canonical _)
    (hs.box.canonical _) (hn.within.ints _ hx) hv, ?_⟩
  intro j y hj hy u hu
  have hy' := hvars _ (List.mem_of_getElem? hy)
  exact hothers j y hj hy u (hn.within.ints _ hy' u hu)

/-- If all fixed variables are marked, then the variables exclude each other's values in a smaller
box as soon as the open ones do. -/
theorem pairwise_excludes_iff {vars : List (IntVar × Bool)} (h : Coherent vars s) (hs : s.Sound)
    (hF : F.Sound) (hmarked : ∀ x ∈ vars, x.1.isOpen s.box = false → x.2 = true)
    (hle : ∀ x ∈ vars, F.ints x.1.index ≤ s.box.ints x.1.index) :
    (vars.map (·.1)).Pairwise (fun x y => x.Excludes y 0 F ∧ y.Excludes x 0 F) ↔
      ((vars.map (·.1)).filter (IntVar.isOpen s.box)).Pairwise
        fun x y => x.Excludes y 0 F ∧ y.Excludes x 0 F := by
  rw [List.pairwise_filter]
  refine ⟨fun hall => hall.imp fun hxy _ _ => hxy, fun hopen => ?_⟩
  -- A pair with a fixed member is settled by the mark of that member.
  have settled {i j : Nat} {x y : IntVar × Bool} (hij : j ≠ i) (hx : vars[i]? = some x)
      (hy : vars[j]? = some y) (hfixed : x.1.isOpen s.box = false) :
      x.1.Excludes y.1 0 F ∧ y.1.Excludes x.1 0 F := by
    obtain ⟨x, mark⟩ := x
    obtain rfl : mark = true := hmarked _ (List.mem_of_getElem? hx) hfixed
    obtain ⟨-, v, hv, hothers⟩ := h i x hx
    have hlex := hle _ (List.mem_of_getElem? hx)
    have hley := hle _ (List.mem_of_getElem? hy)
    have hvF := IntVar.fixedAt_of_le (hF.canonical _) (hs.box.canonical _) hlex hv
    have hremoved := hothers j y hij hy
    refine ⟨IntVar.Excludes.of_removed hvF hley (by simpa using hremoved), ?_⟩
    intro w hw u hu
    have hxv := (IntVar.fixedAt_eq_some_iff (hF.canonical _)).1 hvF u hu
    have hmin := (hF.canonical y.1.index).min_mem
    have hyw := (IntVar.fixedAt_eq_some_iff (hF.canonical _)).1 hw _ hmin
    have := hremoved _ (hley _ hmin)
    omega
  rw [List.pairwise_map, List.pairwise_iff_getElem] at hopen ⊢
  intro i j hi hj hij
  have hxi : vars[i]? = some vars[i] := List.getElem?_eq_getElem hi
  have hyj : vars[j]? = some vars[j] := List.getElem?_eq_getElem hj
  cases hx : vars[i].1.isOpen s.box with
  | false => exact settled (by omega) hxi hyj hx
  | true =>
    cases hy : vars[j].1.isOpen s.box with
    | false => exact (settled (by omega) hyj hxi hy).symm
    | true => exact hopen i j hi hj hij hx hy

/-- The variables that a propagator with good handles watches exist. -/
theorem WellFormed.exists_interests (h : p.WellFormed δ s) : ∀ i ∈ p.interests, s.Has i.1 := by
  cases p with
  | notEquals a b offset | lessOrEqual a b offset =>
    simp only [interests, List.forall_mem_cons]
    exact ⟨h.1.exists_var, h.2.exists_var, by simp⟩
  | linearAtMost terms bound | linearEqual terms total | clause literals =>
    simp only [interests, List.forall_mem_map]
    exact fun x hx => (h x hx).exists_var
  | allDifferent vars =>
    simp only [interests, List.forall_mem_map]
    exact fun x hx => (h.1 x hx).exists_var
  | setCardinality set x =>
    simp only [interests, List.forall_mem_cons]
    exact ⟨h.1, h.2.exists_var, by simp⟩
  | noGoods levels start =>
    simp only [interests, List.forall_mem_map]
    intro l hl
    obtain ⟨level, hlevel, htaken⟩ := List.mem_filterMap.1 hl
    exact ((h.1 level hlevel).taken l htaken).exists_var
  | floatAtMost a b => exact h.elim
  | scripted script executions => exact h.elim

/-- Good handles stay good in a narrower store. -/
theorem WellFormed.of_evolves (h : p.WellFormed δ s) (hs : s.Sound) (hs' : s'.Sound)
    (hn : s.Evolves s') : p.WellFormed δ s' := by
  have hsize : s.ints.size ≤ s'.ints.size := hn.size_ints
  cases p with
  | notEquals a b offset => exact ⟨h.1.of_size_le hsize, h.2.of_size_le hsize⟩
  | lessOrEqual a b offset => exact ⟨h.1.of_size_le hsize, h.2.of_size_le hsize⟩
  | linearAtMost terms bound => exact fun x hx => (h x hx).of_size_le hsize
  | linearEqual terms total => exact fun x hx => (h x hx).of_size_le hsize
  | allDifferent vars =>
    exact ⟨fun x hx => (h.1 x hx).of_size_le hsize,
      h.2.of_evolves hs hs' hn fun x hx => (h.1 x hx).exists_var⟩
  | clause literals => exact fun x hx => (h x hx).of_size_le hsize
  | setCardinality set x => exact ⟨h.1.trans_le hn.size_sets, h.2.of_size_le hsize⟩
  | noGoods levels start =>
    refine ⟨fun level hlevel => (h.1 level hlevel).of_evolves hn, fun level hlevel => ?_⟩
    exact (h.2 level hlevel).of_within (h.1 level (List.mem_of_mem_take hlevel)) hn.within
  | floatAtMost a b => exact h
  | scripted script executions => exact h

/-- A propagator that rests keeps resting while nothing wakes it. -/
theorem rests_of_keeps (hw : p.WellFormed δ s) (h : p.Rests s) (hs : s.Sound) (hs' : s'.Sound)
    (hn : s.Evolves s') (hk : ∀ i ∈ p.interests, s.Keeps s' i.1 i.2) : p.Rests s' := by
  cases p with
  | notEquals a b offset =>
    obtain ⟨ha, hb, hfa, hfb⟩ := h
    have hka := IntVar.fixedAt_eq_of_keeps hs hs' hn hw.1.exists_var (hk (a.ref, .value) (by
      simp [interests]))
    have hkb := IntVar.fixedAt_eq_of_keeps hs hs' hn hw.2.exists_var (hk (b.ref, .value) (by
      simp [interests]))
    exact ⟨ha.of_evolves hs hs' hn hw.1.exists_var, hb.of_evolves hs hs' hn hw.2.exists_var,
      hka.trans hfa, hkb.trans hfb⟩
  | lessOrEqual a b offset =>
    obtain ⟨ha, hb, hrest⟩ := h
    have hka := IntVar.edge_eq_of_keeps (hk (a.ref, .bounds) (by simp [interests]))
    have hkb := IntVar.edge_eq_of_keeps (hk (b.ref, .bounds) (by simp [interests]))
    refine ⟨ha.of_evolves hs hs' hn hw.1.exists_var,
      hb.of_evolves hs hs' hn hw.2.exists_var, ?_⟩
    simp only [hka, hkb]
    exact hrest
  | linearAtMost terms bound =>
    obtain ⟨hread, hrest⟩ := h
    have hkept (side : Side) : ∀ x ∈ terms, x.edge s'.box side = x.edge s.box side :=
      fun x hx => IntVar.edge_eq_of_keeps (hk (x.ref, .bounds) (List.mem_map_of_mem hx)) side
    refine ⟨fun x hx => (hread x hx).of_evolves hs hs' hn (hw x hx).exists_var, ?_⟩
    simp only [IntVar.edges_congr (hkept .lower), IntVar.edges_congr (hkept .upper)]
    refine ⟨hrest.1, fun x hx => ?_, hrest.2.2⟩
    rw [hkept .lower x hx, hkept .upper x hx]
    exact hrest.2.1 x hx
  | linearEqual terms total =>
    obtain ⟨hread, hconflict, hrest, x, hx, hopen⟩ := h
    have hkept (side : Side) : ∀ x ∈ terms, x.edge s'.box side = x.edge s.box side :=
      fun x hx => IntVar.edge_eq_of_keeps (hk (x.ref, .bounds) (List.mem_map_of_mem hx)) side
    refine ⟨fun x hx => (hread x hx).of_evolves hs hs' hn (hw x hx).exists_var, ?_⟩
    simp only [IntVar.edges_congr (hkept .lower), IntVar.edges_congr (hkept .upper)]
    refine ⟨hconflict, fun y hy => ?_, x, hx, ?_⟩
    · rw [hkept .lower y hy, hkept .upper y hy]
      exact hrest y hy
    · simp only [IntVar.isOpen, IntVar.fixedAt, hkept _ x hx] at hopen ⊢
      exact hopen
  | allDifferent vars =>
    obtain ⟨hread, hunmarked, hopen⟩ := h
    have hkept : ∀ x ∈ vars, x.1.fixedAt s'.box = x.1.fixedAt s.box := fun x hx =>
      IntVar.fixedAt_eq_of_keeps hs hs' hn (hw.1 x hx).exists_var
        (hk (x.1.ref, .value) (List.mem_map_of_mem hx))
    refine ⟨fun x hx => (hread x hx).of_evolves hs hs' hn (hw.1 x hx).exists_var,
      fun x hx hmark => (hkept x hx).trans (hunmarked x hx hmark), ?_⟩
    have hcount : (vars.map (·.1)).countP (IntVar.isOpen s'.box) =
        (vars.map (·.1)).countP (IntVar.isOpen s.box) := by
      refine List.countP_congr fun x hx => ?_
      obtain ⟨y, hy, rfl⟩ := List.mem_map.1 hx
      simp only [IntVar.isOpen, hkept y hy]
    rw [hcount]
    exact hopen
  | clause literals =>
    obtain ⟨hread, hfalse, hopen⟩ := h
    have hkept : ∀ x ∈ literals, x.fixedAt s'.box = x.fixedAt s.box := fun x hx =>
      IntVar.fixedAt_eq_of_keeps hs hs' hn (hw x hx).exists_var
        (hk (x.ref, .value) (List.mem_map_of_mem hx))
    refine ⟨fun x hx => (hread x hx).of_evolves hs hs' hn (hw x hx).exists_var,
      fun x hx => (hkept x hx).symm ▸ hfalse x hx, ?_⟩
    have hcount : literals.countP (IntVar.isOpen s'.box) =
        literals.countP (IntVar.isOpen s.box) :=
      List.countP_congr fun x hx => by simp only [IntVar.isOpen, hkept x hx]
    rw [hcount]
    exact hopen
  | setCardinality set x =>
    obtain ⟨hread, hproper, hopen, hbounds⟩ := h
    have hset : s'.box.sets set = s.box.sets set := hk (.set set, .domain) (by simp [interests])
    have hkept := IntVar.edge_eq_of_keeps (hk (x.ref, .bounds) (by simp [interests]))
    refine ⟨hread.of_evolves hs hs' hn hw.2.exists_var, hproper, ?_, ?_⟩
    · rw [hset]
      exact hopen
    · rw [hset, hkept, hkept]
      exact hbounds
  | noGoods levels start =>
    obtain ⟨level, l, hget, hexplored, htaken, hopen⟩ := h
    have hlevel := List.mem_of_getElem? hget
    have hadmissible := hw.1 level hlevel
    refine ⟨level, l, hget, fun l hl => ?_, htaken, ?_⟩
    · exact (hexplored l hl).of_within (hadmissible.explored l hl) hn.within
    · have hwatched : (l.ref, .domain) ∈ (noGoods levels start).interests := by
        simp only [interests, List.mem_map]
        exact ⟨l, List.mem_filterMap.2 ⟨level, hlevel, htaken⟩, rfl⟩
      rwa [Literal.holds_iff_of_keeps (hk _ hwatched)]
  | floatAtMost a b => exact h
  | scripted script executions => exact h

/-- The box of a store on which a propagator rests is stable. -/
theorem stable_of_rests (hs : s.Sound) (hw : p.WellFormed δ s) (h : p.Rests s)
    (hset : ∀ set x, p ≠ setCardinality set x) : p.Stable s.box := by
  cases p with
  | notEquals a b offset =>
    obtain ⟨-, -, ha, hb⟩ := h
    refine ⟨?_, ?_⟩ <;> intro v hv
    · rw [ha] at hv
      cases hv
    · rw [hb] at hv
      cases hv
  | lessOrEqual a b offset =>
    obtain ⟨-, -, ⟨-, -, hupper⟩, ⟨-, -, hlower⟩, -⟩ := h
    exact ⟨by omega, by omega⟩
  | linearAtMost terms bound =>
    obtain ⟨hread, hslack, hcut, -⟩ := h
    refine ⟨hslack, fun x hx => ?_⟩
    have hfits := ((hread x hx) .lower).fits
    have hcut := (hcut x hx).2
    change Word.Fits (x.edge s.box .lower) at hfits
    unfold Word.clamp Word.Fits Word.least Word.greatest at *
    omega
  | linearEqual terms total =>
    obtain ⟨hread, hconflict, hcut, -⟩ := h
    refine ⟨hconflict.1, hconflict.2, fun x hx => ?_⟩
    have hlower := ((hread x hx) .lower).fits
    have hupper := ((hread x hx) .upper).fits
    obtain ⟨⟨-, hcut⟩, -, hcut'⟩ := hcut x hx
    change Word.Fits (x.edge s.box .lower) at hlower
    change Word.Fits (x.edge s.box .upper) at hupper
    have := IntVar.edge_lower_le_upper (hs.box.canonical x.index)
    unfold Word.clamp Word.Fits Word.least Word.greatest at *
    omega
  | allDifferent vars =>
    have hmarked : ∀ x ∈ vars, x.1.isOpen s.box = false → x.2 = true := fun x hx hfixed => by
      by_contra hmark
      have := h.2.1 x hx (by simpa using hmark)
      rw [IntVar.isOpen, this] at hfixed
      cases hfixed
    refine (pairwise_excludes_iff hw.2 hs hs.box hmarked fun x _ => IntDomain.le_refl _).2 ?_
    rw [List.pairwise_filter]
    refine List.pairwise_of_forall fun x y hx hy => ⟨?_, ?_⟩ <;> intro v hv
    · rw [IntVar.isOpen, hv] at hx
      cases hx
    · rw [IntVar.isOpen, hv] at hy
      cases hy
  | clause literals => exact .inr h.2.2
  | setCardinality set x => exact absurd rfl (hset set x)
  | noGoods levels start =>
    obtain ⟨level, l, hget, hexplored, htaken, hopen⟩ := h
    obtain ⟨hlt, rfl⟩ := List.getElem?_eq_some_iff.1 hget
    show NoGoods.Permits levels s.box
    rw [← List.take_append_drop start levels, NoGoods.permits_append hw.2,
      List.drop_eq_getElem_cons hlt]
    refine ⟨hexplored, fun l' hl' hholds => ?_⟩
    rw [htaken, Option.mem_some_iff] at hl'
    exact absurd (hl' ▸ hholds) hopen
  | floatAtMost a b => trivial
  | scripted script executions => trivial

end Propagator

end ConstraintSearch
