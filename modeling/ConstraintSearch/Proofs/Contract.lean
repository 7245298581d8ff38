import ConstraintSearch.Proofs.Assignments
import ConstraintSearch.Proofs.Termination

/-!
# The contract of propagators

What an execution of a propagator does to the assignments of a store. The propagator may have been
executed before, and other propagators may have narrowed the store since; handles may be repeated.

* `Propagator.SatisfiedBy a`: what a propagator demands of an assignment;
* `Propagator.RepresentableBy a`: an inequation does not know of terms beyond the 32-bit integers;
* `Propagator.InUse δ p s`: posting, executions and narrowings have led to the propagator `p` and
  the state `s`;
* `Propagator.Honours`: an execution keeps what satisfies the propagator, and its verdict is right;
* `Propagator.InUse.execute_honours`: every execution does so, and an inconsistency is reported only
  if no assignment satisfies the propagator.
-/

namespace ConstraintSearch

variable {a : Assignment} {F : Box} {s s' : Store} {δ : Prop}

/-! ### What literals and no-goods say about an assignment -/

/-- The assignment satisfies the literal. -/
def Literal.SatisfiedBy (a : Assignment) : Literal → Prop
  | comparison x relation v => relation.Holds (a.value x) v
  | membership i v true => v ∈ a.sets i
  | membership i v false => v ∉ a.sets i

/-- Down to the first level whose taken branch is not taken, no explored branch is. -/
def NoGoods.AllowedBy (a : Assignment) : List NoGoodLevel → Prop
  | [] => True
  | level :: levels =>
      (∀ l ∈ level.explored, ¬l.SatisfiedBy a) ∧
        ∀ l ∈ level.taken, l.SatisfiedBy a → AllowedBy a levels

/-- In the box, the variable has its value in the assignment. The variables of floats are not
considered. -/
def VarRef.Takes (a : Assignment) (F : Box) : VarRef → Prop
  | int i => F.ints i = IntDomain.singleton (a.ints i)
  | set i => F.sets i = SetDomain.exactly (a.sets i)
  | float _ => True

theorem VarRef.takes_box (r : VarRef) : r.Takes a a.box := by
  cases r with
  | int | set => rfl
  | float => trivial

/-- The variable has a value. -/
def VarRef.AssignedIn (s : Store) : VarRef → Prop
  | int i => (s.box.ints i).isAssigned = true
  | set i => (s.box.sets i).isAssigned = true
  | float _ => True

/-- In a smaller store, a variable that had a value has it still. -/
theorem VarRef.AssignedIn.takes {r : VarRef} (h : r.AssignedIn s) (hs : s.Sound) (hs' : s'.Sound)
    (hn : s.Narrows s') (hr : s.Has r) (ha : a.Within s) : r.Takes a s'.box := by
  cases r with
  | int i =>
    have heq := (hs.box.canonical i).eq_singleton h
    have hvalue := ha.ints i
    rw [heq, IntDomain.mem_singleton] at hvalue
    refine IntDomain.le_antisymm (hs'.box.canonical i) (IntDomain.canonical_singleton _) ?_ ?_
    · rw [hvalue, ← heq]
      exact hn.within.ints i hr
    · intro v hv
      have hmin := hn.within.ints i hr _ (hs'.box.canonical i).min_mem
      rw [heq, IntDomain.mem_singleton] at hmin
      rw [IntDomain.mem_singleton.1 hv, hvalue, ← hmin]
      exact (hs'.box.canonical i).min_mem
  | set i =>
    have hnormal := hs.box.normal i
    have heq : s.box.sets i = SetDomain.exactly (a.sets i) := by
      rw [hnormal.eq_required_of_mem h (ha.sets i)]
      exact hnormal.eq_exactly h
    refine SetDomain.le_antisymm (hs'.box.normal i)
      (SetDomain.normal_exactly (ha.ordered i)) ?_ ?_
    · rw [← heq]
      exact hn.within.sets i hr
    · obtain ⟨l, hl⟩ := (hs'.box.normal i).exists_mem
      have hmem : l ∈ s.box.sets i := ⟨hl.1, SetDomain.le_trans hl.2 (hn.within.sets i hr)⟩
      rw [hnormal.eq_required_of_mem h (ha.sets i), ← hnormal.eq_required_of_mem h hmem]
      exact hl.2
  | float i => trivial

namespace Literal

variable {l : Literal}

theorem holds_iff (h : l.ref.Takes a F) : l.Holds F ↔ l.SatisfiedBy a := by
  cases l with
  | comparison x relation v =>
    have hx : F.ints x.index = IntDomain.singleton (a.ints x.index) := h
    simp only [Holds, SatisfiedBy, IntVar.Restricted, hx, IntDomain.mem_singleton, forall_eq]
    rfl
  | membership i v included =>
    have hi : F.sets i = SetDomain.exactly (a.sets i) := h
    cases included <;> simp [Holds, SatisfiedBy, hi, SetDomain.exactly]

theorem refuted_iff (h : l.ref.Takes a F) : l.Refuted F ↔ ¬l.SatisfiedBy a := by
  cases l with
  | comparison x relation v =>
    have hx : F.ints x.index = IntDomain.singleton (a.ints x.index) := h
    simp only [Refuted, SatisfiedBy, hx, IntDomain.mem_singleton, forall_eq]
    rfl
  | membership i v included =>
    have hi : F.sets i = SetDomain.exactly (a.sets i) := h
    cases included <;> simp [Refuted, SatisfiedBy, hi, SetDomain.exactly]

end Literal

/-- The literals of a level. -/
def NoGoodLevel.literals (level : NoGoodLevel) : List Literal :=
  level.explored ++ level.taken.toList

theorem NoGoods.permits_iff {levels : List NoGoodLevel}
    (h : ∀ l ∈ levels.flatMap NoGoodLevel.literals, l.ref.Takes a F) :
    Permits levels F ↔ AllowedBy a levels := by
  induction levels with
  | nil => exact Iff.rfl
  | cons level levels ih =>
    rw [List.flatMap_cons, List.forall_mem_append, NoGoodLevel.literals,
      List.forall_mem_append] at h
    obtain ⟨⟨hexplored, htaken⟩, hlevels⟩ := h
    replace hlevels := ih hlevels
    replace htaken : ∀ l ∈ level.taken, l.ref.Takes a F := fun l hl =>
      htaken l (Option.mem_toList.2 hl)
    refine and_congr (forall₂_congr fun l hl => Literal.refuted_iff (hexplored l hl))
      (forall₂_congr fun l hl => ?_)
    rw [Literal.holds_iff (htaken l hl), hlevels]

namespace Propagator

variable {p p' q : Propagator}

/-- The assignment satisfies the constraint that the propagator enforces. -/
def SatisfiedBy (a : Assignment) : Propagator → Prop
  | notEquals x y offset => a.value x ≠ a.value y + offset
  | lessOrEqual x y offset => a.value x + offset ≤ a.value y
  | linearAtMost terms bound => (terms.map a.value).sum ≤ bound
  | linearEqual terms total => (terms.map a.value).sum = total
  | allDifferent vars => (vars.map fun x => a.value x.1).Nodup
  | clause literals => ∃ x ∈ literals, a.value x = 1
  | setCardinality set x => a.value x = (a.sets set).length
  | noGoods levels _ => NoGoods.AllowedBy a levels
  | floatAtMost _ _ | scripted _ _ => True

/-- An inequation computes with its terms as 32-bit integers. -/
def RepresentableBy (a : Assignment) : Propagator → Prop
  | linearAtMost terms _ => ∀ v ∈ terms.map a.value, v ≤ Word.greatest
  | _ => True

/-- The variables of integers and sets that the propagator mentions. -/
def refs : Propagator → List VarRef
  | notEquals x y _ | lessOrEqual x y _ => [x.ref, y.ref]
  | linearAtMost xs _ | linearEqual xs _ | clause xs => xs.map IntVar.ref
  | allDifferent vars => vars.map fun x => x.1.ref
  | setCardinality set x => [.set set, x.ref]
  | noGoods levels _ => (levels.flatMap NoGoodLevel.literals).map Literal.ref
  | floatAtMost _ _ | scripted _ _ => []

/-- All variables of the propagator have a value. -/
def AssignedIn (s : Store) (p : Propagator) : Prop := ∀ r ∈ p.refs, r.AssignedIn s

/-- Where all variables have a value, the propagator is stable if and only if it is satisfied and
representable. -/
theorem stable_iff (h : ∀ r ∈ p.refs, r.Takes a F) :
    p.Stable F ↔ p.SatisfiedBy a ∧ p.RepresentableBy a := by
  cases p with
  | notEquals x y offset =>
    have hx : x.Takes a F := h x.ref (by simp [refs])
    have hy : y.Takes a F := h y.ref (by simp [refs])
    simp only [Stable, SatisfiedBy, RepresentableBy, and_true]
    rw [hx.excludes hy, hy.excludes hx]
    omega
  | lessOrEqual x y offset =>
    have hx : x.Takes a F := h x.ref (by simp [refs])
    have hy : y.Takes a F := h y.ref (by simp [refs])
    simp only [Stable, SatisfiedBy, RepresentableBy, and_true]
    rw [hx.edge, hx.edge, hy.edge, hy.edge]
    simp
  | linearAtMost terms bound =>
    have hterms : ∀ x ∈ terms, x.Takes a F := fun x hx => h x.ref (List.mem_map_of_mem hx)
    exact stable_linearAtMost_iff hterms bound
  | linearEqual terms total =>
    have hterms : ∀ x ∈ terms, x.Takes a F := fun x hx => h x.ref (List.mem_map_of_mem hx)
    exact (stable_linearEqual_iff hterms total).trans (and_iff_left trivial).symm
  | allDifferent vars =>
    have hmap : ((vars.map (·.1)).map fun x => (x, false)).map (·.1) = vars.map (·.1) := by
      simp [Function.comp_def]
    have hvars : ∀ x ∈ vars.map (·.1), x.Takes a F :=
      List.forall_mem_map.2 fun x hx => h x.1.ref (List.mem_map.2 ⟨x, hx, rfl⟩)
    rw [← stable_allDifferent_congr hmap]
    refine (stable_distinct_iff hvars).trans ?_
    rw [List.map_map]
    exact (and_iff_left trivial).symm
  | clause literals =>
    have hliterals : ∀ x ∈ literals, x.Takes a F := fun x hx => h x.ref (List.mem_map_of_mem hx)
    exact (stable_clause_iff hliterals).trans (and_iff_left trivial).symm
  | setCardinality set x =>
    have hx : x.Takes a F := h x.ref (by simp [refs])
    have hset : F.sets set = SetDomain.exactly (a.sets set) := h (.set set) (by simp [refs])
    simp only [Stable, SatisfiedBy, RepresentableBy, and_true]
    rw [hx.edge, hx.edge, hset]
    simp [SetDomain.exactly]
  | noGoods levels start =>
    exact (NoGoods.permits_iff (List.forall_mem_map.1 h)).trans (and_iff_left trivial).symm
  | floatAtMost | scripted => simp [Stable, SatisfiedBy, RepresentableBy]

/-- The propagator judges an assignment by its box. -/
theorem stable_box : p.Stable a.box ↔ p.SatisfiedBy a ∧ p.RepresentableBy a :=
  stable_iff fun r _ => r.takes_box

/-- The variables that a propagator with good handles mentions exist. -/
theorem WellFormed.has_refs (h : p.WellFormed δ s) : ∀ r ∈ p.refs, s.Has r := by
  cases p with
  | notEquals x y | lessOrEqual x y =>
    simp only [refs, List.forall_mem_cons]
    exact ⟨h.1.exists_var, h.2.exists_var, by simp⟩
  | linearAtMost xs | linearEqual xs | clause xs =>
    exact List.forall_mem_map.2 fun x hx => (h x hx).exists_var
  | allDifferent vars => exact List.forall_mem_map.2 fun x hx => (h.1 x hx).exists_var
  | setCardinality set x =>
    simp only [refs, List.forall_mem_cons]
    exact ⟨h.1, h.2.exists_var, by simp⟩
  | noGoods levels start =>
    refine List.forall_mem_map.2 fun l hl => ?_
    obtain ⟨level, hlevel, hl⟩ := List.mem_flatMap.1 hl
    have hadmissible : l.Admissible δ s := by
      rcases List.mem_append.1 hl with hl | hl
      · exact (h.1 level hlevel).explored l hl
      · exact (h.1 level hlevel).taken l (Option.mem_toList.1 hl)
    cases l with
    | comparison x relation v => exact hadmissible.exists_var
    | membership i v included => exact hadmissible
  | floatAtMost | scripted => exact h.elim

end Propagator

/-! ### Runs of inequations

An inequation that is not oriented may answer too early that it is at a fixpoint. It has still
compared the least value of its left side with its bound. -/

namespace Propagation

variable {α β : Type} {m : Propagation α} {f : α → Propagation β} {state state' : State}

/-- What the result of an action was computed from. -/
theorem exists_of_bind {b : β} (h : (m >>= f) state = .ok (.ok b, state')) :
    ∃ a state₁, m state = .ok (.ok a, state₁) ∧ f a state₁ = .ok (.ok b, state') := by
  rw [bind_apply] at h
  obtain ⟨⟨outcome, state₁⟩, hm, h⟩ := Yields.exists_of_bind h
  cases outcome with
  | error i => cases h
  | ok a => exact ⟨a, state₁, hm, h⟩

theorem error_of_bind_pure {g : α → β} {i : Inconsistency}
    (h : (do return g (← m)) state = .ok (.error i, state')) :
    m state = .ok (.error i, state') := by
  rw [bind_apply] at h
  obtain ⟨⟨outcome, state₁⟩, hm, h⟩ := Yields.exists_of_bind h
  cases outcome with
  | error i =>
    cases h
    exact hm
  | ok a => cases h

/-- Unless arithmetic faults, the action has a result with the property. -/
def Succeeds (δ : Prop) (m : Propagation α) (state : State) (P : α → State → Prop) : Prop :=
  Yields δ (m state) fun
    | (.ok a, state') => state.Advances state' ∧ P a state'
    | (.error _, _) => False

namespace Succeeds

variable {P : α → State → Prop} {Q : β → State → Prop}

theorem pure {a : α} (h : P a state) : Succeeds δ (Pure.pure a : Propagation α) state P :=
  ⟨.refl state, h⟩

theorem bind (hm : Succeeds δ m state P)
    (hf : ∀ a state', state.Advances state' → P a state' → Succeeds δ (f a) state' Q) :
    Succeeds δ (m >>= f) state Q := by
  unfold Succeeds
  rw [bind_apply]
  refine Yields.bind hm fun r hr => ?_
  obtain ⟨outcome, state₁⟩ := r
  cases outcome with
  | error i => exact hr.elim
  | ok a =>
    refine Yields.mono (hf a state₁ hr.1 hr.2) fun r hr' => ?_
    obtain ⟨outcome, state₂⟩ := r
    cases outcome with
    | error i => exact hr'
    | ok b => exact ⟨hr.1.trans hr'.1, hr'.2⟩

/-- An action that loses no box with a property succeeds if there is such a box. -/
theorem of_law {C : Box → Prop} (h : Law δ C m state P) (hF : F.Sound) (hC : C F)
    (hle : F.Within state.store) : Succeeds δ m state P := by
  refine Yields.mono h fun r hr => ?_
  obtain ⟨outcome, state'⟩ := r
  cases outcome with
  | error i => exact hr F hF hC hle
  | ok a => exact ⟨hr.1.advances, hr.2⟩

theorem reading (hs : state.Ready) {g : Store → Except Fault α} {post : α → Prop}
    (h : Yields δ (g state.store) post) :
    Succeeds δ (Propagation.reading g) state fun a state' => state' = state ∧ post a :=
  of_law (C := fun _ => True) (Law.reading h) hs.sound.box trivial (Store.box_within _)

end Succeeds

end Propagation

open Propagation

variable {state state' : State} {x y : IntVar} {terms : List IntVar}

/-- A run that has not failed has compared the least value of `x` with the greatest one of `y`. -/
theorem LessOrEqual.compares_of_run {offset : Int} {verdict : Verdict Propagator}
    (hs : state.Ready) (hx : x.Admissible δ state.store) (hy : y.Admissible δ state.store)
    (h : LessOrEqual.run x y offset state = .ok (.ok verdict, state')) :
    x.edge state.store.box .lower + offset ≤ y.edge state.store.box .upper := by
  obtain ⟨upper, state₁, hread, h⟩ := exists_of_bind h
  obtain ⟨bound, state₂, hbound, h⟩ := exists_of_bind h
  obtain ⟨event, state₃, hcut, -⟩ := exists_of_bind h
  obtain ⟨-, rfl, rfl, -⟩ := Yields.of_ok
    (Succeeds.reading hs (IntVar.yields_bound (δ := δ) hs.sound hy.exists_var .upper)) hread
  obtain ⟨-, rfl, rfl, -⟩ := Yields.of_ok (Law.lift (C := fun _ => True)
    (Word.yields_checked (δ := δ) _ _)) hbound
  obtain ⟨-, hnarrowed, -⟩ := Yields.of_ok
    (Law.restrict hs hx.exists_var hx.proper fun F _ hC _ => hC) hcut
  have hholds := (IntVar.restricted_atMost (hnarrowed.sound.box.canonical _)).1 hnarrowed.holds
  have hmono := IntVar.edge_lower_mono (hnarrowed.sound.box.canonical x.index)
    (hs.sound.box.canonical _) (hnarrowed.narrows.within.ints _ hx.exists_var)
  have hle := IntVar.edge_lower_le_upper (hnarrowed.sound.box.canonical x.index)
  omega

namespace Linear

theorem cutUpper_succeeds {slack : Int} (hs : state.Ready) (hx : x.Admissible δ state.store)
    (hslack : 0 ≤ slack) : Succeeds δ (cutUpper slack x) state fun _ _ => True := by
  unfold cutUpper
  refine (Succeeds.reading hs (IntVar.yields_bound hs.sound hx.exists_var .lower)).bind ?_
  rintro lower state₁ - ⟨rfl, rfl, hcomputes⟩
  have hfits := hcomputes.fits
  change Word.Fits (x.edge state₁.store.box .lower) at hfits
  -- The least value of the term is not cut off.
  obtain ⟨a, ha, hvalue⟩ := Store.exists_assignment_int hs.sound
    (IntVar.extreme_mem (hs.sound.box.canonical x.index) (x.turn .lower))
  have hleast : a.value x = x.edge state₁.store.box .lower := congrArg x.eval hvalue
  have hkeeps : x.Restricted .atMost (Word.clamp (x.edge state₁.store.box .lower + slack))
      a.box := by
    refine Assignment.restricted_box.2 ?_
    show a.value x ≤ _
    rw [hleast]
    unfold Word.clamp Word.Fits Word.least Word.greatest at *
    omega
  exact Succeeds.of_law ((Law.restrict hs hx.exists_var hx.proper fun F _ hC _ => hC).discard
    fun _ _ _ => trivial) ha.sound hkeeps ha.box

theorem forM_cutUpper_succeeds {slack : Int} (hs : state.Ready)
    (hterms : ∀ x ∈ terms, x.Admissible δ state.store) (hslack : 0 ≤ slack) :
    Succeeds δ (terms.forM (cutUpper slack)) state fun _ _ => True := by
  induction terms generalizing state with
  | nil => exact .pure trivial
  | cons x xs ih =>
    refine (cutUpper_succeeds hs (hterms x (by simp)) hslack).bind fun _ state₁ ha _ => ?_
    exact ih (ha.ready hs) fun y hy =>
      (hterms y (by simp [hy])).of_size_le ha.store.size_ints.ge

/-- A run that does not fault has read the least values of the terms, and fails exactly if their sum
is too large. -/
theorem runAtMost_compares {bound : Int} (hs : state.Ready)
    (hterms : ∀ x ∈ terms, x.Admissible δ state.store) :
    Yields δ (runAtMost terms bound state) fun r =>
      (∀ x ∈ terms, x.edge state.store.box .lower ≤ Word.greatest) ∧
        (r.1.isOk = true ↔ IntVar.edges state.store.box .lower terms ≤ bound) := by
  have hindex : ∀ x ∈ terms, x.index < state.store.ints.size := fun x hx =>
    (hterms x hx).exists_var
  unfold runAtMost
  rw [bind_apply]
  refine Yields.bind (Succeeds.reading hs (yields_sum hs.sound hindex .lower)) ?_
  rintro ⟨outcome, state₁⟩ h
  cases outcome with
  | error i => exact h.elim
  | ok lowers =>
    obtain ⟨-, rfl, rfl, hcomputes⟩ := h
    have hfits : ∀ x ∈ terms, x.edge state₁.store.box .lower ≤ Word.greatest :=
      fun x hx => (hcomputes x hx).fits.2
    dsimp only
    split
    · rename_i hslack
      exact ⟨hfits, fun hok => (by cases hok), fun hle => absurd hslack (by omega)⟩
    · rename_i hslack
      have hrest : Succeeds δ (do
          terms.forM (cutUpper (bound - IntVar.edges state₁.store.box .lower terms))
          let uppers ← Propagation.reading (sum .upper · terms)
          return if uppers ≤ bound then Verdict.subsumed (α := Propagator) else .fix) state₁
            fun _ _ => True := by
        refine (forM_cutUpper_succeeds hs hterms (by omega)).bind fun _ state₂ ha _ => ?_
        refine (Succeeds.reading (ha.ready hs) (yields_sum (ha.ready hs).sound (fun x hx =>
          ha.store.size_ints ▸ hindex x hx) .upper)).bind fun _ _ _ _ => .pure trivial
      refine Yields.mono hrest fun r hr => ⟨hfits, ?_⟩
      obtain ⟨outcome, state₂⟩ := r
      cases outcome with
      | error i => exact hr.elim
      | ok verdict => exact ⟨fun _ => by omega, fun _ => rfl⟩

end Linear

/-- A run replaces the constraint while variables are open. -/
theorem AllDifferent.exists_isOpen_of_run {vars : List (IntVar × Bool)} {p q : Propagator}
    (hs : state.Ready) (hw : (Propagator.allDifferent vars).WellFormed δ state.store)
    (h : AllDifferent.run vars state = .ok (.ok (p, .replace q), state')) :
    ∃ x ∈ vars.map (·.1), x.isOpen state'.store.box = true := by
  obtain ⟨vars', state₁, hprocess, h⟩ := exists_of_bind h
  obtain ⟨left, state₂, hleft, h⟩ := exists_of_bind h
  obtain ⟨hstep, hmap, hw', -⟩ := Yields.of_ok
    (AllDifferent.process_law hs hw (Nat.lt_succ_of_le (AllDifferent.unmarked_le vars))) hprocess
  obtain ⟨-, rfl, hfirst⟩ := Yields.of_ok (Succeeds.reading (hstep.advances.ready hs)
    (yields_firstOpen (δ := δ) (hstep.advances.ready hs).sound
      (List.forall_mem_map.2 fun x hx => (hw'.1 x hx).exists_var) 3)) hleft
  rcases left with _ | ⟨x, _ | ⟨y, _ | ⟨z, rest⟩⟩⟩
  · cases h
  · cases h
  · have hx := List.mem_of_mem_take (hfirst ▸ List.mem_cons_self : x ∈ List.take 3 _)
    cases h
    exact ⟨x, hmap ▸ (List.mem_filter.1 hx).1, (List.mem_filter.1 hx).2⟩
  · cases h

/-! ### The contract -/

namespace Propagator

variable {p p' q : Propagator} {verdict : Verdict Propagator}

/-- What an execution promises that was not inconsistent. -/
structure Honours (p : Propagator) (s s' : Store) (verdict : Verdict Propagator) : Prop where
  narrows : s.Narrows s'
  kept : ∀ a : Assignment, a.Within s → p.SatisfiedBy a → p.RepresentableBy a → a.Within s'
  subsumed : verdict = .subsumed → ∀ a : Assignment, a.Within s' → p.SatisfiedBy a
  replaced : ∀ q, verdict = .replace q →
    ∀ a : Assignment, a.Within s' → (q.SatisfiedBy a ↔ p.SatisfiedBy a)
  decided : p.AssignedIn s → ∀ a : Assignment, a.Within s → p.SatisfiedBy a

/-- If all variables have a value, then a run that has not failed has found that the constraint
holds. -/
theorem satisfiedBy_of_run (hs : state.Ready) (hw : p.WellFormed δ state.store)
    (hassigned : p.AssignedIn state.store) (ha : a.Within state.store)
    (h : p.run state = .ok (.ok (p', verdict), state')) : p.SatisfiedBy a := by
  obtain ⟨hstep, hanswers⟩ := Yields.of_ok (run_law hs hw) h
  have hs' := hstep.advances.ready hs
  have htakes : ∀ r ∈ p.refs, r.Takes a state'.store.box := fun r hr =>
    (hassigned r hr).takes hs.sound hs'.sound hstep.advances.store (hw.has_refs r hr) ha
  have hbefore : ∀ r ∈ p.refs, r.Takes a state.store.box := fun r hr =>
    (hassigned r hr).takes hs.sound hs.sound (Store.Narrows.refl _) (hw.has_refs r hr) ha
  cases verdict with
  | fix =>
    obtain ⟨hcontinues, hw', hrests⟩ := hanswers
    -- the inequations promise nothing about what they leave, but a run compares the bounds
    cases p with
    | lessOrEqual x y offset =>
      obtain ⟨verdict, state₁, hrun, -⟩ := exists_of_bind h
      have hx : x.Takes a state.store.box := hbefore x.ref (by simp [refs])
      have hy : y.Takes a state.store.box := hbefore y.ref (by simp [refs])
      have hle := LessOrEqual.compares_of_run hs hw.1 hw.2 hrun
      rwa [hx.edge, hy.edge] at hle
    | linearAtMost terms bound =>
      obtain ⟨verdict, state₁, hrun, -⟩ := exists_of_bind h
      have hterms : ∀ x ∈ terms, x.Takes a state.store.box := fun x hx =>
        hbefore x.ref (List.mem_map_of_mem hx)
      have hle := (Yields.of_ok (Linear.runAtMost_compares hs hw) hrun).2.1 rfl
      rwa [IntVar.Takes.edges hterms] at hle
    | setCardinality set x =>
      cases hcontinues
      have hset : state'.store.box.sets set = SetDomain.exactly (a.sets set) :=
        htakes (.set set) (by simp [refs])
      have hopen := (hrests trivial).2.2.1
      rw [hset] at hopen
      have hassigned : (SetDomain.exactly (a.sets set)).isAssigned = true :=
        (SetDomain.normal_exactly (ha.ordered set)).isAssigned_iff.2 rfl
      rw [hassigned] at hopen
      cases hopen
    | notEquals | linearEqual | allDifferent | clause | noGoods =>
      have hstable := stable_of_rests hs'.sound hw' (hrests trivial) (by
        rintro set x rfl
        cases hcontinues)
      rw [hcontinues.stable] at hstable
      exact ((stable_iff htakes).1 hstable).1
    | floatAtMost | scripted => exact hw.elim
  | noFix => exact hanswers.elim
  | subsumed => exact ((stable_iff htakes).1 (hanswers _ hs'.sound.box (Store.box_within _))).1
  | replace q =>
    obtain ⟨-, hreplacements, -, -⟩ := hanswers
    cases p with
    | allDifferent vars =>
      obtain ⟨x, hx, hopen⟩ := AllDifferent.exists_isOpen_of_run hs hw h
      have hxtakes : x.Takes a state'.store.box := by
        obtain ⟨y, hy, rfl⟩ := List.mem_map.1 hx
        exact htakes _ (List.mem_map.2 ⟨y, hy, rfl⟩)
      rw [IntVar.isOpen, hxtakes.fixedAt] at hopen
      cases hopen
    | floatAtMost | scripted => exact hw.elim
    | _ => exact absurd hreplacements (Nat.not_lt_zero _)

/-- A run is inconsistent only if no assignment satisfies the constraint, representable or not. -/
theorem not_satisfiedBy_of_run {i : Inconsistency} (hs : state.Ready)
    (hw : p.WellFormed δ state.store) (ha : a.Within state.store)
    (h : p.run state = .ok (.error i, state')) : ¬p.SatisfiedBy a := by
  intro hsatisfied
  have hlaw := Yields.of_ok (run_law hs hw) h
  -- Where a term leaves the range, the law says nothing, and the least sum decides.
  by_cases hrepresentable : p.RepresentableBy a
  · exact hlaw a.box ha.sound (stable_box.2 ⟨hsatisfied, hrepresentable⟩) ha.box
  · cases p with
    | linearAtMost terms bound =>
      have hsum : (terms.map a.value).sum ≤ bound := hsatisfied
      have hmono := Linear.edges_lower_mono ha.sound hs.sound ha.box fun x hx =>
        (hw x hx).exists_var
      rw [IntVar.Takes.edges fun x _ => Assignment.takes_box x] at hmono
      have hok := (Yields.of_ok (Linear.runAtMost_compares hs hw)
        (error_of_bind_pure h)).2.2 (hmono.trans hsum)
      cases hok
    | _ => exact hrepresentable trivial

theorem run_honours (hs : state.Ready) (hw : p.WellFormed δ state.store) :
    Yields δ (p.run state) fun
      | (.ok (_, verdict), state') => p.Honours state.store state'.store verdict
      | (.error _, _) => ∀ a : Assignment, a.Within state.store → ¬p.SatisfiedBy a := by
  refine Yields.mono (Yields.self (run_law hs hw)) ?_
  rintro ⟨outcome, state'⟩ ⟨hlaw, hrun⟩
  cases outcome with
  | error i => exact fun a ha => not_satisfiedBy_of_run hs hw ha hrun
  | ok r =>
    obtain ⟨p', verdict⟩ := r
    obtain ⟨hstep, hanswers⟩ := hlaw
    have hnarrows := hstep.advances.store
    refine ⟨hnarrows, fun a ha hsatisfied hrepresentable => ha.of_box hnarrows ?_, ?_, ?_,
      fun hassigned a ha => satisfiedBy_of_run hs hw hassigned ha hrun⟩
    · exact hstep.kept a.box ha.sound (stable_box.2 ⟨hsatisfied, hrepresentable⟩) ha.box
    · rintro rfl a ha
      exact (stable_box.1 (hanswers a.box ha.sound ha.box)).1
    · rintro q rfl a ha
      obtain ⟨⟨x, y, offset, rfl⟩, hreplacements, -, hiff⟩ := hanswers
      have hiff := hiff a.box ha.sound ha.box
      rw [stable_box, stable_box] at hiff
      cases p with
      | allDifferent vars => simpa [RepresentableBy] using hiff.symm
      | floatAtMost | scripted => exact hw.elim
      | _ => exact absurd hreplacements (Nat.not_lt_zero _)

/-! ### Propagators that were executed before -/

/-- Posting, executions and narrowings have led to the propagator and the state. -/
inductive InUse (δ : Prop) : Propagator → State → Prop
  | posted {p : Propagator} {state : State} (hs : state.Ready) (hp : p.Fresh δ state.store) :
      InUse δ p state
  /-- Variables were narrowed or added. -/
  | narrowed {p : Propagator} {state state' : State} (h : InUse δ p state) (hs : state'.Ready)
      (he : state.store.Evolves state'.store) : InUse δ p state'
  /-- The propagator was executed, and stays. -/
  | executed {p p' : Propagator} {state state' : State} (h : InUse δ p state)
      (hr : (p.execute state).Returns (.ok (p', .fix), state')) : InUse δ p' state'
  /-- The propagator was executed, and has been replaced. -/
  | replaced {p p' q : Propagator} {state state' : State} (h : InUse δ p state)
      (hr : (p.execute state).Returns (.ok (p', .replace q), state')) : InUse δ q state'

/-- The handles of the propagator are good, and its marks tell the truth. -/
theorem InUse.wellFormed (h : InUse δ p state) : state.Ready ∧ p.WellFormed δ state.store := by
  induction h with
  | posted hs hp => exact ⟨hs, hp.wellFormed⟩
  | narrowed h hs he ih => exact ⟨hs, ih.2.of_evolves ih.1.sound hs.sound he⟩
  | executed h hr ih =>
    obtain ⟨hstep, hanswers⟩ := (execute_law ih.1 ih.2).of_returns hr
    exact ⟨hstep.advances.ready ih.1, hanswers.2.1⟩
  | replaced h hr ih =>
    obtain ⟨hstep, hanswers⟩ := (execute_law ih.1 ih.2).of_returns hr
    exact ⟨hstep.advances.ready ih.1, hanswers.2.2.1⟩

/-- **Every execution keeps to its contract**, unless 32-bit arithmetic faults. -/
theorem InUse.execute_honours (h : InUse δ p state) :
    Journaled.Yields δ (p.execute state) fun
      | (.ok (_, verdict), state') => p.Honours state.store state'.store verdict
      | (.error _, _) => ∀ a : Assignment, a.Within state.store → ¬p.SatisfiedBy a := by
  obtain ⟨hs, hw⟩ := h.wellFormed
  rw [execute_eq_run hw]
  exact Journaled.Yields.lift (run_honours hs hw)

/-! ### Fixed executions -/

/-- Four variables, one of which has a value. -/
def fourVariables : List Space.Operation := [.newInt 1 1, .newInt 1 5, .newInt 1 5, .newInt 1 5]

/-- The constraint that the four variables differ. -/
def differing : Propagator := .distinct [.root 0, .root 1, .root 2, .root 3]

/-- Whether an execution replaces the propagator. -/
def isReplacing : Except Inconsistency (Propagator × Verdict Propagator) × State → Bool
  | (.ok (_, .replace _), _) => true
  | _ => false

/-- Whether a propagator stays when it is executed, and is replaced when it is executed again after
`x` got the value `v`. -/
def replacedAfter (x : IntVar) (v : Int) (p : Propagator) (state : State) : Bool :=
  (p.execute state).check fun
    | (.ok (p', .fix), state') => (state'.restrict x .equal v).toOption.any fun r =>
        r.2.failed = false && (p'.execute r.2).check isReplacing
    | _ => false

/-- A propagator with marks is replaced. -/
theorem InUse.execute_honours_replacing :
    ∃ (p : Propagator) (state : State), (p.InUse False state ∧ ∃ p' q state',
      (p.execute state).Returns (.ok (p', .replace q), state')) ∧
      Journaled.Yields False (p.execute state) fun
        | (.ok (_, verdict), state') => p.Honours state.store state'.store verdict
        | (.error _, _) => ∀ a : Assignment, a.Within state.store → ¬p.SatisfiedBy a := by
  have hrun : ((Space.ofPolicy .costOrdered).performAll? (fun _ _ => true) fourVariables).any
      (fun s => decide (s.isFailed = false ∧ differing.Fresh False s.store) &&
        replacedAfter (.root 1) 2 differing s.state) = true := by
    decide +kernel
  obtain ⟨s, hs, hrun⟩ := (Option.any_eq_true ..).1 hrun
  obtain ⟨hfresh, hrun⟩ := Bool.and_eq_true_iff.1 hrun
  obtain ⟨halive, hfresh⟩ := of_decide_eq_true hfresh
  have hreachable : s.Reachable fun _ _ => True :=
    (Space.Reachable.empty .costOrdered).performAll? (fun _ _ _ => trivial) hs
  obtain ⟨⟨outcome, state₁⟩, hfirst, hrun⟩ := Journaled.exists_of_check hrun
  split at hrun
  case h_2 => cases hrun
  rename_i p' _ heq
  cases heq
  have hused := (InUse.posted ⟨halive, hreachable.in_order.1⟩ hfresh).executed hfirst
  obtain ⟨⟨event, state₂⟩, hrestrict, hrun⟩ := (Option.any_eq_true ..).1 hrun
  obtain ⟨hready, hrun⟩ := Bool.and_eq_true_iff.1 hrun
  obtain ⟨hsound, hevolves⟩ :=
    (State.Step.restrict (Space.ok_of_toOption hrestrict)).descends.declines
    hused.wellFormed.1.sound
  have hused₂ := hused.narrowed ⟨of_decide_eq_true hready, hsound⟩ hevolves
  obtain ⟨⟨outcome, state₃⟩, hsecond, hreplacing⟩ := Journaled.exists_of_check hrun
  unfold isReplacing at hreplacing
  split at hreplacing
  case h_2 => cases hreplacing
  rename_i heq
  cases heq
  exact ⟨p', state₂, ⟨hused₂, _, _, _, hsecond⟩, hused₂.execute_honours⟩

/-- Two variables with values whose fourfold is no 32-bit integer. -/
def greatVariables : List Space.Operation :=
  [.newIntOfValues [0, 536870912], .newIntOfValues [0, 536870912]]

/-- The inequation `4 x ≤ 4 y`. -/
def fourfold : Propagator := .linearAtMost [.affine (.root 0) 4 0, .affine (.root 1) (-4) 0] 0

/-- An execution of `4 x ≤ 4 y` bounds `4 x` by the greatest 32-bit integer, and removes the
solution `x = y = 2 ^ 29`. -/
theorem exists_removed_saturating :
    ∃ (p : Propagator) (state : State), p.InUse False state ∧ ∃ p' verdict state',
      (p.execute state).Returns (.ok (p', verdict), state') ∧
      ∃ a : Assignment, a.Within state.store ∧ p.SatisfiedBy a ∧ ¬a.Within state'.store := by
  have hrun : ((Space.ofPolicy .costOrdered).performAll? (fun _ _ => true) greatVariables).any
      (fun s => decide (s.isFailed = false ∧ fourfold.Fresh False s.store) &&
        (s.store.admits [536870912, 536870912] && (fourfold.execute s.state).check fun r =>
          r.1.isOk && !(r.2.store.box.ints 0).contains 536870912)) = true := by
    decide +kernel
  obtain ⟨s, hs, hrun⟩ := (Option.any_eq_true ..).1 hrun
  obtain ⟨hfresh, hrun⟩ := Bool.and_eq_true_iff.1 hrun
  obtain ⟨halive, hfresh⟩ := of_decide_eq_true hfresh
  obtain ⟨hadmits, hrun⟩ := Bool.and_eq_true_iff.1 hrun
  obtain ⟨⟨outcome, state'⟩, hreturns, hrun⟩ := Journaled.exists_of_check hrun
  obtain ⟨hok, hremoved⟩ := Bool.and_eq_true_iff.1 hrun
  have hreachable : s.Reachable fun _ _ => True :=
    (Space.Reachable.empty .costOrdered).performAll? (fun _ _ _ => trivial) hs
  cases outcome with
  | error i => cases hok
  | ok r =>
    obtain ⟨p', verdict⟩ := r
    refine ⟨fourfold, s.state, .posted ⟨halive, hreachable.in_order.1⟩ hfresh, p', verdict, state',
      hreturns, .ofInts [536870912, 536870912], Store.within_of_admits hadmits, ?_, fun ha => ?_⟩
    · show List.sum [4 * 536870912 + 0, -4 * 536870912 + (0 : Int)] ≤ 0
      decide
    · have hkept : (state'.store.box.ints 0).contains 536870912 = true := ha.ints 0
      rw [hkept] at hremoved
      cases hremoved

end Propagator

end ConstraintSearch
