import ConstraintSearch.Constraint
import ConstraintSearch.Proofs.Propagator.Stable

/-!
# The meaning of constraints

A `Posting` is a constraint with its arguments, and says what its posting means to somebody who
does not know of propagators: a relation between the values of variables.

* `Assignment`: a value for each variable, and `Assignment.value` of a view;
* `Posting.post`, `Posting.Holds`: how a constraint is posted, and what it says;
* `Posting.Representable`: an inequation computes with its terms as 32-bit integers, and does not
  know of assignments with greater terms;
* `Posting.Oriented`, `Posting.Distinct`: conditions on constraints that name a variable twice;
* `Posting.propagator` is the propagator that is posted; `stable_iff` says that where all variables
  have a value, it is stable if and only if the constraint holds.
-/

namespace ConstraintSearch

/-- A value for each integer variable, and the elements in increasing order for each set
variable. -/
structure Assignment where
  ints : Nat → Int
  sets : Nat → List Int

/-- The value of a variable or view. -/
def Assignment.value (a : Assignment) (x : IntVar) : Int := x.eval (a.ints x.index)

/-- The constraints on integers and sets. -/
inductive Posting
  | notEquals (a b : IntVar) (offset : Int)
  | lessOrEqual (a b : IntVar) (offset : Int)
  | lessThan (a b : IntVar)
  | linearAtMost (terms : List IntVar) (bound : Int)
  | linearEqual (terms : List IntVar) (total : Int)
  | weightedAtMost (weights : List Int) (vars : List IntVar) (bound : Int)
  | weightedEqual (weights : List Int) (vars : List IntVar) (total : Int)
  | allDifferent (vars : List IntVar)
  | clause (literals : List IntVar)
  | setCardinality (set : Nat) (cardinality : IntVar)
  deriving DecidableEq, Repr

namespace Posting

/-- Post the constraint. -/
def post (s : Space) : Posting → Request (Nat × Space)
  | notEquals a b offset => Constraint.notEquals s a b offset
  | lessOrEqual a b offset => Constraint.lessOrEqual s a b offset
  | lessThan a b => Constraint.lessThan s a b
  | linearAtMost terms bound => Constraint.linearAtMost s terms bound
  | linearEqual terms total => Constraint.linearEqual s terms total
  | weightedAtMost weights vars bound => Constraint.weightedAtMost s weights vars bound
  | weightedEqual weights vars total => Constraint.weightedEqual s weights vars total
  | allDifferent vars => Constraint.allDifferent s vars
  | clause literals => Constraint.clause s literals
  | setCardinality set x => Constraint.setCardinality s set x

/-- The integer variables that the constraint names. -/
def vars : Posting → List IntVar
  | notEquals a b _ | lessOrEqual a b _ | lessThan a b => [a, b]
  | linearAtMost xs _ | linearEqual xs _ | weightedAtMost _ xs _ | weightedEqual _ xs _
  | allDifferent xs | clause xs => xs
  | setCardinality _ x => [x]

/-- The set variables that the constraint names. -/
def sets : Posting → List Nat
  | setCardinality set _ => [set]
  | _ => []

/-- What the constraint says. -/
def Holds (a : Assignment) : Posting → Prop
  | notEquals x y offset => a.value x ≠ a.value y + offset
  | lessOrEqual x y offset => a.value x + offset ≤ a.value y
  | lessThan x y => a.value x < a.value y
  | linearAtMost terms bound => (terms.map a.value).sum ≤ bound
  | linearEqual terms total => (terms.map a.value).sum = total
  | weightedAtMost weights vars bound => (List.zipWith (· * a.value ·) weights vars).sum ≤ bound
  | weightedEqual weights vars total => (List.zipWith (· * a.value ·) weights vars).sum = total
  | allDifferent vars => (vars.map a.value).Nodup
  | clause literals => ∃ x ∈ literals, a.value x = 1
  | setCardinality set x => a.value x = (a.sets set).length

instance (a : Assignment) : (c : Posting) → Decidable (c.Holds a)
  | notEquals _ _ _ => inferInstanceAs (Decidable (_ ≠ _))
  | lessOrEqual _ _ _ | linearAtMost _ _ | weightedAtMost _ _ _ =>
      inferInstanceAs (Decidable (_ ≤ _))
  | lessThan _ _ => inferInstanceAs (Decidable (_ < _))
  | linearEqual _ _ | weightedEqual _ _ _ | setCardinality _ _ =>
      inferInstanceAs (Decidable (_ = _))
  | allDifferent _ => inferInstanceAs (Decidable (List.Nodup _))
  | clause literals => inferInstanceAs (Decidable (∃ x ∈ literals, a.value x = 1))

/-- An inequation computes with its terms as 32-bit integers. -/
def Representable (a : Assignment) : Posting → Prop
  | linearAtMost terms _ => ∀ v ∈ terms.map a.value, v ≤ Word.greatest
  | weightedAtMost weights vars _ =>
      ∀ v ∈ List.zipWith (· * a.value ·) weights vars, v ≤ Word.greatest
  | _ => True

instance (a : Assignment) : (c : Posting) → Decidable (c.Representable a)
  | linearAtMost terms _ => inferInstanceAs (Decidable (∀ v ∈ terms.map a.value, v ≤ _))
  | weightedAtMost weights vars _ =>
      inferInstanceAs (Decidable (∀ v ∈ List.zipWith (· * a.value ·) weights vars, v ≤ _))
  | notEquals _ _ _ | lessOrEqual _ _ _ | lessThan _ _ | linearEqual _ _ | weightedEqual _ _ _
  | allDifferent _ | clause _ | setCardinality _ _ => inferInstanceAs (Decidable True)

/-- No variable is named twice, not even through different views. -/
def Distinct (c : Posting) : Prop := (c.vars.map IntVar.index).Nodup

/-- Where terms name a variable twice, narrowing one mention does not move the bound that is read
from another. -/
def OrientedTerms (terms : List IntVar) : Prop :=
  ∀ x ∈ terms, ∀ y ∈ terms, x.index = y.index → x.turn .lower = y.turn .lower

/-- The inequation names no variable twice with views that would narrow it from both sides. -/
def Oriented : Posting → Prop
  | lessOrEqual a b _ | lessThan a b => a.index = b.index → a.turn .lower = b.turn .upper
  | linearAtMost terms _ => OrientedTerms terms
  | weightedAtMost weights vars _ =>
      ∀ terms, Constraint.weighted weights vars = .ok (.ok terms) → OrientedTerms terms
  | _ => True

/-- The propagator that is posted. -/
def propagator : Posting → Request Propagator
  | notEquals a b offset => return .notEquals a b offset
  | lessOrEqual a b offset => return .lessOrEqual a b offset
  | lessThan a b => return .lessOrEqual a b 1
  | linearAtMost terms bound => return .linearAtMost terms bound
  | linearEqual terms total => return .linearEqual terms total
  | weightedAtMost weights vars bound => do
      return .linearAtMost (← Constraint.weighted weights vars) bound
  | weightedEqual weights vars total => do
      return .linearEqual (← Constraint.weighted weights vars) total
  | allDifferent vars =>
      if Constraint.hasDuplicates vars then Request.refuse .duplicateVariable
      else return .distinct vars
  | clause literals => return .clause literals
  | setCardinality set x => return .setCardinality set x

theorem post_eq_bind (c : Posting) (s : Space) : c.post s = (do s.post (← c.propagator)) := by
  cases c with
  | allDifferent vars =>
    show Constraint.allDifferent s vars = _
    by_cases h : Constraint.hasDuplicates vars = true
    · simp only [Constraint.allDifferent, propagator, if_pos h]
      rfl
    · simp only [Constraint.allDifferent, propagator, if_neg h]
      rfl
  | weightedAtMost weights vars bound =>
    show Constraint.weightedAtMost s weights vars bound = _
    unfold Constraint.weightedAtMost propagator
    rw [bind_assoc]
    rfl
  | weightedEqual weights vars total =>
    show Constraint.weightedEqual s weights vars total = _
    unfold Constraint.weightedEqual propagator
    rw [bind_assoc]
    rfl
  | _ => rfl

/-! ### Weighted sums -/

/-- What a term of a weighted sum is. -/
structure Weighs (k : Int) (x term : IntVar) : Prop where
  index : term.index = x.index
  eval : ∀ v, term.eval v = k * x.eval v
  proper : x.Proper → term.Proper

theorem weighs_of_scaled {x term : IntVar} {k : Int} (hk : k ≠ 0) (h : x.scaled k = .ok term) :
    Weighs k x term := by
  have scaled_once (x : IntVar) (h : IntVar.view x k 0 = .ok term) : Weighs k x term := by
    unfold IntVar.view at h
    rw [if_neg hk] at h
    cases h
    exact ⟨rfl, fun v => Int.add_zero _, fun hx => ⟨hk, hx⟩⟩
  cases x with
  | root i => exact scaled_once _ h
  | bool inner => exact scaled_once _ h
  | affine inner scale offset =>
    have hyields : Yields True (IntVar.scaled (.affine inner scale offset) k)
        fun term => Weighs k (.affine inner scale offset) term := by
      refine (Word.yields_checked _ _).bind fun scale' hscale => ?_
      refine (Word.yields_checked _ _).bind fun offset' hoffset => Yields.pure ?_
      obtain ⟨rfl, -⟩ := hscale
      obtain ⟨rfl, -⟩ := hoffset
      refine ⟨rfl, fun v => ?_, fun hx => ⟨Int.mul_ne_zero hx.1 hk, hx.2⟩⟩
      simp only [IntVar.eval]
      ring
    exact hyields.of_ok h

/-- The terms of a weighted sum, if it can be built. -/
theorem weighs_of_weighted {weights : List Int} {vars terms : List IntVar}
    (h : Constraint.weighted weights vars = .ok (.ok terms)) :
    weights.length = vars.length ∧
      List.Forall₂ (fun p term => Weighs p.1 p.2 term) (weights.zip vars) terms := by
  unfold Constraint.weighted at h
  split at h
  · cases h
  split at h
  · cases h
  rename_i hlength hzero
  refine ⟨not_not.1 hlength, ?_⟩
  have hnonzero : ∀ p ∈ weights.zip vars, p.1 ≠ 0 := by
    rintro ⟨k, x⟩ hp rfl
    exact hzero (List.contains_iff_mem.2 (List.of_mem_zip hp).1)
  clear hzero
  generalize weights.zip vars = pairs at h hnonzero
  induction pairs generalizing terms with
  | nil =>
    cases h
    exact List.Forall₂.nil
  | cons p pairs ih =>
    rw [List.mapM_cons] at h
    obtain ⟨term, hterm, h⟩ := Request.exists_of_bind h
    obtain ⟨rest, hrest, h⟩ := Request.exists_of_bind h
    cases h
    exact List.Forall₂.cons
      (weighs_of_scaled (hnonzero p (by simp)) (Request.of_lift hterm))
      (ih hrest fun q hq => hnonzero q (by simp [hq]))

/-- Each term comes from a variable. -/
theorem exists_weighs {weights : List Int} {vars terms : List IntVar}
    (h : Constraint.weighted weights vars = .ok (.ok terms)) {term : IntVar}
    (hterm : term ∈ terms) :
    ∃ k, ∃ x ∈ vars, Weighs k x term := by
  obtain ⟨-, hweighs⟩ := weighs_of_weighted h
  have hmem : ∀ p ∈ weights.zip vars, p.2 ∈ vars := fun p hp => (List.of_mem_zip hp).2
  generalize weights.zip vars = pairs at hweighs hmem
  clear h
  induction hweighs with
  | nil => cases hterm
  | @cons p term' pairs terms hweigh _ ih =>
    rcases List.mem_cons.1 hterm with rfl | hterm
    · exact ⟨p.1, p.2, hmem p (by simp), hweigh⟩
    · exact ih hterm fun q hq => hmem q (by simp [hq])

/-- The terms name the variables in their order. -/
theorem map_index_of_weighted {weights : List Int} {vars terms : List IntVar}
    (h : Constraint.weighted weights vars = .ok (.ok terms)) :
    terms.map IntVar.index = vars.map IntVar.index := by
  obtain ⟨hlength, hweighs⟩ := weighs_of_weighted h
  rw [← List.map_snd_zip hlength.ge]
  generalize weights.zip vars = pairs at hweighs
  clear h
  induction hweighs with
  | nil => rfl
  | cons hterm _ ih => rw [List.map_cons, List.map_cons, List.map_cons, ih, hterm.index]

/-! ### Boxes in which all variables have a value -/

end Posting

namespace IntVar

variable {a : Assignment} {F : Box} {x y : IntVar}

/-- In the box, the variable has its value in the assignment. -/
def Takes (a : Assignment) (F : Box) (x : IntVar) : Prop :=
  F.ints x.index = IntDomain.singleton (a.ints x.index)

theorem Takes.edge (h : x.Takes a F) (side : Side) : x.edge F side = a.value x := by
  unfold IntVar.edge
  rw [h]
  cases x.turn side <;> rfl

theorem Takes.fixedAt (h : x.Takes a F) : x.fixedAt F = some (a.value x) := by
  rw [fixedAt_eq_some]
  exact ⟨h.edge .lower, h.edge .upper⟩

theorem Takes.excludes (hx : x.Takes a F) (hy : y.Takes a F) (offset : Int) :
    x.Excludes y offset F ↔ a.value y ≠ a.value x + offset := by
  unfold Excludes
  rw [hx.fixedAt, hy]
  simp only [Option.some.injEq, forall_eq', IntDomain.mem_singleton, forall_eq]
  rfl

theorem Takes.edges {terms : List IntVar} (h : ∀ x ∈ terms, x.Takes a F) (side : Side) :
    IntVar.edges F side terms = (terms.map a.value).sum := by
  induction terms with
  | nil => rfl
  | cons x terms ih =>
    rw [edges_cons, (h x (by simp)).edge, ih fun y hy => h y (by simp [hy])]
    simp

theorem Takes.countP_isOpen {xs : List IntVar} (h : ∀ x ∈ xs, x.Takes a F) :
    xs.countP (IntVar.isOpen F) = 0 := by
  rw [List.countP_eq_zero]
  intro x hx
  simp [isOpen, (h x hx).fixedAt]

end IntVar

namespace Propagator

variable {a : Assignment} {F : Box}

theorem stable_linearAtMost_iff {terms : List IntVar} (h : ∀ x ∈ terms, x.Takes a F)
    (bound : Int) : (linearAtMost terms bound).Stable F ↔
      (terms.map a.value).sum ≤ bound ∧ ∀ v ∈ terms.map a.value, v ≤ Word.greatest := by
  simp only [Stable]
  rw [IntVar.Takes.edges h, List.forall_mem_map]
  refine and_congr_right fun hsum => forall₂_congr fun x hx => ?_
  rw [(h x hx).edge, (h x hx).edge]
  constructor
  · exact fun h => h.1
  · exact fun h => ⟨h, by omega⟩

theorem stable_linearEqual_iff {terms : List IntVar} (h : ∀ x ∈ terms, x.Takes a F)
    (total : Int) : (linearEqual terms total).Stable F ↔ (terms.map a.value).sum = total := by
  simp only [Stable]
  rw [IntVar.Takes.edges h, IntVar.Takes.edges h]
  constructor
  · rintro ⟨hle, hge, -⟩
    omega
  · intro hsum
    refine ⟨by omega, by omega, fun x hx => ?_⟩
    rw [(h x hx).edge, (h x hx).edge]
    exact ⟨by omega, by omega⟩

theorem stable_distinct_iff {xs : List IntVar} (h : ∀ x ∈ xs, x.Takes a F) :
    (distinct xs).Stable F ↔ (xs.map a.value).Nodup := by
  have hmap : (xs.map fun x => (x, false)).map (·.1) = xs := by simp [Function.comp_def]
  unfold distinct
  rw [stable_allDifferent, hmap, List.Nodup, List.pairwise_map]
  refine List.Pairwise.iff_of_mem fun hx hy => ?_
  rw [(h _ hx).excludes (h _ hy), (h _ hy).excludes (h _ hx)]
  omega

theorem stable_clause_iff {literals : List IntVar} (h : ∀ x ∈ literals, x.Takes a F) :
    (clause literals).Stable F ↔ ∃ x ∈ literals, a.value x = 1 := by
  simp only [Stable]
  rw [IntVar.Takes.countP_isOpen h]
  constructor
  · rintro (⟨x, hx, hone⟩ | hle)
    · rw [(h x hx).fixedAt] at hone
      exact ⟨x, hx, Option.some.inj hone⟩
    · omega
  · rintro ⟨x, hx, hone⟩
    exact .inl ⟨x, hx, by rw [(h x hx).fixedAt, hone]⟩

end Propagator

namespace Posting

variable {a : Assignment} {F : Box} {c : Posting} {q : Propagator}

theorem eq_distinct {xs : List IntVar} (hq : (allDifferent xs).propagator = .ok (.ok q)) :
    q = .distinct xs := by
  by_cases hdup : Constraint.hasDuplicates xs = true
  · simp only [propagator, if_pos hdup] at hq
    cases hq
  · simp only [propagator, if_neg hdup] at hq
    cases hq
    rfl

/-- In the box, all variables of the constraint have their value in the assignment. -/
structure Takes (a : Assignment) (F : Box) (c : Posting) : Prop where
  ints : ∀ x ∈ c.vars, x.Takes a F
  sets : ∀ i ∈ c.sets, F.sets i = SetDomain.exactly (a.sets i)

/-- The terms of a weighted sum have the values that their weights give them. -/
theorem map_value_of_weighted {weights : List Int} {vars terms : List IntVar}
    (h : Constraint.weighted weights vars = .ok (.ok terms)) (a : Assignment) :
    terms.map a.value = List.zipWith (· * a.value ·) weights vars := by
  obtain ⟨-, hweighs⟩ := weighs_of_weighted h
  rw [← List.map_uncurry_zip_eq_zipWith]
  generalize weights.zip vars = pairs at hweighs
  clear h
  induction hweighs with
  | nil => rfl
  | @cons p term pairs terms hterm _ ih =>
    rw [List.map_cons, List.map_cons, ih]
    congr 1
    unfold Assignment.value
    rw [hterm.index, hterm.eval]
    rfl

/-- The terms of a weighted sum take what its variables take. -/
theorem takes_of_weighted {weights : List Int} {vars terms : List IntVar}
    (h : Constraint.weighted weights vars = .ok (.ok terms)) (hvars : ∀ x ∈ vars, x.Takes a F) :
    ∀ x ∈ terms, x.Takes a F := by
  intro term hterm
  obtain ⟨k, x, hx, hweighs⟩ := exists_weighs h hterm
  unfold IntVar.Takes
  rw [hweighs.index]
  exact hvars x hx

/-- Where all variables have a value, the propagator is stable if and only if the constraint holds
and is representable. -/
theorem stable_iff (hq : c.propagator = .ok (.ok q)) (h : c.Takes a F) :
    q.Stable F ↔ c.Holds a ∧ c.Representable a := by
  cases c with
  | notEquals x y offset =>
    cases hq
    have hx := h.ints x (by simp [vars])
    have hy := h.ints y (by simp [vars])
    simp only [Propagator.Stable, Holds, Representable, and_true]
    rw [hx.excludes hy, hy.excludes hx]
    omega
  | lessOrEqual x y offset =>
    cases hq
    have hx := h.ints x (by simp [vars])
    have hy := h.ints y (by simp [vars])
    simp only [Propagator.Stable, Holds, Representable, and_true]
    rw [hx.edge, hx.edge, hy.edge, hy.edge]
    simp
  | lessThan x y =>
    cases hq
    have hx := h.ints x (by simp [vars])
    have hy := h.ints y (by simp [vars])
    simp only [Propagator.Stable, Holds, Representable, and_true]
    rw [hx.edge, hx.edge, hy.edge, hy.edge]
    constructor
    · rintro ⟨hle, -⟩
      exact Int.add_one_le_iff.1 hle
    · intro hlt
      exact ⟨Int.add_one_le_iff.2 hlt, Int.add_one_le_iff.2 hlt⟩
  | linearAtMost terms bound =>
    cases hq
    exact Propagator.stable_linearAtMost_iff h.ints bound
  | linearEqual terms total =>
    cases hq
    exact (Propagator.stable_linearEqual_iff h.ints total).trans (and_iff_left trivial).symm
  | weightedAtMost weights xs bound =>
    obtain ⟨terms, hterms, hq⟩ := Request.exists_of_bind hq
    cases hq
    refine (Propagator.stable_linearAtMost_iff (takes_of_weighted hterms h.ints) bound).trans ?_
    rw [map_value_of_weighted hterms]
    rfl
  | weightedEqual weights xs total =>
    obtain ⟨terms, hterms, hq⟩ := Request.exists_of_bind hq
    cases hq
    refine (Propagator.stable_linearEqual_iff (takes_of_weighted hterms h.ints) total).trans ?_
    rw [map_value_of_weighted hterms]
    exact (and_iff_left trivial).symm
  | allDifferent xs =>
    obtain rfl := eq_distinct hq
    exact (Propagator.stable_distinct_iff h.ints).trans (and_iff_left trivial).symm
  | clause literals =>
    cases hq
    exact (Propagator.stable_clause_iff h.ints).trans (and_iff_left trivial).symm
  | setCardinality set x =>
    cases hq
    have hx := h.ints x (by simp [vars])
    have hset := h.sets set (by simp [sets])
    simp only [Propagator.Stable, Holds, Representable, and_true]
    rw [hx.edge, hx.edge, hset]
    simp [SetDomain.exactly]

/-! ### The propagator of a constraint -/

variable {s : Store} {δ : Prop}

/-- The variables of the constraint exist in the store. -/
structure ExistsIn (s : Store) (c : Posting) : Prop where
  ints : ∀ x ∈ c.vars, x.index < s.ints.size
  sets : ∀ i ∈ c.sets, i < s.sets.size

/-- The propagator of a constraint on variables that exist has good handles. Only views by zero are
not proper. -/
theorem wellFormed (hq : c.propagator = .ok (.ok q)) (h : c.ExistsIn s)
    (hproper : ∀ x ∈ c.vars, x.Proper ∨ δ) : q.WellFormed δ s := by
  have hvars : ∀ x ∈ c.vars, x.Admissible δ s := fun x hx => ⟨h.ints x hx, hproper x hx⟩
  have hweighted {weights : List Int} {xs terms : List IntVar}
      (hterms : Constraint.weighted weights xs = .ok (.ok terms))
      (hxs : ∀ x ∈ xs, x.Admissible δ s) : ∀ x ∈ terms, x.Admissible δ s := by
    intro term hterm
    obtain ⟨k, x, hx, hweighs⟩ := exists_weighs hterms hterm
    exact ⟨hweighs.index ▸ (hxs x hx).exists_var, (hxs x hx).proper.imp hweighs.proper id⟩
  cases c with
  | notEquals x y offset =>
    cases hq
    exact ⟨hvars x (by simp [vars]), hvars y (by simp [vars])⟩
  | lessOrEqual x y offset =>
    cases hq
    exact ⟨hvars x (by simp [vars]), hvars y (by simp [vars])⟩
  | lessThan x y =>
    cases hq
    exact ⟨hvars x (by simp [vars]), hvars y (by simp [vars])⟩
  | linearAtMost terms bound =>
    cases hq
    exact hvars
  | linearEqual terms total =>
    cases hq
    exact hvars
  | weightedAtMost weights xs bound =>
    obtain ⟨terms, hterms, hq⟩ := Request.exists_of_bind hq
    cases hq
    exact hweighted hterms hvars
  | weightedEqual weights xs total =>
    obtain ⟨terms, hterms, hq⟩ := Request.exists_of_bind hq
    cases hq
    exact hweighted hterms hvars
  | allDifferent xs =>
    obtain rfl := eq_distinct hq
    refine ⟨fun p hp => ?_, fun i x hi => ?_⟩
    · obtain ⟨x, hx, rfl⟩ := List.mem_map.1 hp
      exact hvars x hx
    · -- No variable is marked yet.
      obtain ⟨y, -, hy⟩ := List.mem_map.1 (List.mem_of_getElem? hi)
      cases hy
  | clause literals =>
    cases hq
    exact hvars
  | setCardinality set x =>
    cases hq
    exact ⟨h.sets set (by simp [sets]), hvars x (by simp [vars])⟩

theorem oriented (hq : c.propagator = .ok (.ok q)) (h : c.Oriented) : q.Oriented := by
  cases c with
  | weightedAtMost weights xs bound =>
    obtain ⟨terms, hterms, hq⟩ := Request.exists_of_bind hq
    cases hq
    exact h terms hterms
  | weightedEqual weights xs total =>
    obtain ⟨terms, hterms, hq⟩ := Request.exists_of_bind hq
    cases hq
    trivial
  | allDifferent xs =>
    obtain rfl := eq_distinct hq
    trivial
  | _ =>
    cases hq
    exact h

/-- A constraint that names no variable twice is oriented. -/
theorem Distinct.oriented (h : c.Distinct) : c.Oriented := by
  have pair {x y : IntVar} (hxy : [x, y].map IntVar.index |>.Nodup) (heq : x.index = y.index) :
      False := by
    simp [heq] at hxy
  have terms {xs : List IntVar} (hxs : (xs.map IntVar.index).Nodup) : OrientedTerms xs := by
    intro x hx y hy heq
    rw [List.inj_on_of_nodup_map hxs hx hy heq]
  cases c with
  | lessOrEqual x y offset => exact fun heq => (pair h heq).elim
  | lessThan x y => exact fun heq => (pair h heq).elim
  | linearAtMost xs bound => exact terms h
  | weightedAtMost weights xs bound =>
    intro ts hts
    refine terms ?_
    rw [map_index_of_weighted hts]
    exact h
  | _ => trivial

/-- No constraint is posted as no-goods. -/
theorem ne_noGoods (hq : c.propagator = .ok (.ok q)) (levels : List NoGoodLevel) (start : Nat) :
    q ≠ .noGoods levels start := by
  rintro rfl
  cases c with
  | weightedAtMost weights xs bound | weightedEqual weights xs total =>
    obtain ⟨terms, -, hq⟩ := Request.exists_of_bind hq
    cases hq
  | allDifferent xs => cases eq_distinct hq
  | _ => cases hq

theorem ne_setCardinality (hq : c.propagator = .ok (.ok q)) (h : c.sets = []) (set : Nat)
    (x : IntVar) : q ≠ .setCardinality set x := by
  rintro rfl
  cases c with
  | allDifferent xs =>
    cases eq_distinct hq
  | weightedAtMost weights xs bound =>
    obtain ⟨terms, hterms, hq⟩ := Request.exists_of_bind hq
    cases hq
  | weightedEqual weights xs total =>
    obtain ⟨terms, hterms, hq⟩ := Request.exists_of_bind hq
    cases hq
  | setCardinality set x => cases h
  | _ => cases hq

end Posting

end ConstraintSearch
