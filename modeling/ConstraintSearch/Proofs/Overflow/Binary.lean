import ConstraintSearch.Proofs.Contract
import ConstraintSearch.Proofs.Overflow.Finishing

/-!
# Two variables at the ends of the range

A disequation or inequation between two store variables computes sums and differences of a bound and
the offset, and each of them may leave the range of 32-bit values. It is said here for which domains
and offsets this happens, and that nothing else goes wrong: where no overflow is foreseen, the
status of a space with this one constraint is what the integers say.

* `LessOrEqual.Overflows`, `NotEquals.Overflows`: when the arithmetic of a run overflows;
* `LessOrEqual.finishes_run_iff`, `NotEquals.finishes_run_iff`: and that it does not otherwise;
* `Posting.Relates`: the constraints between two store variables, with `Posting.Overflows` and
  `Posting.Infeasible`;
* `Space.Decides`, `Space.Reachable.decides_of_relates`: the status after such a constraint was
  posted.
-/

namespace ConstraintSearch

open Propagation

variable {s : State} {i j : Nat} {offset : Int}

/-! ### Store variables -/

theorem IntVar.readable_root {s : Store} (hs : s.Sound) (i : Nat) : (root i).Readable s :=
  fun side => hs.fits i _ (extreme_mem (hs.box.canonical i) side)

theorem IntVar.bound_root {s : Store} (hs : s.Sound) (hi : i < s.ints.size) (side : Side) :
    (root i).bound s side = .ok ((s.box.ints i).extreme side) :=
  (readable_root hs i).bound hi side

/-- A store variable has a value if one value is left. -/
theorem IntVar.fixedAt_root {F : Box} (h : (F.ints i).Canonical) :
    (root i).fixedAt F = if (F.ints i).isAssigned = true then some (F.ints i).min else none := by
  simp only [h.isAssigned_iff]
  rfl

theorem Store.box_withInt_of_ne {s : Store} (hi : i < s.ints.size) (d : IntDomain) (h : i ≠ j) :
    (s.withInt i d).box.ints j = s.box.ints j := by
  rw [Store.withInt, box_set_int hi, if_neg h]

/-- The lower bound of a domain stays where it is if it is kept. -/
theorem IntDomain.Canonical.min_eq_of_mem {d e : IntDomain} (hd : d.Canonical) (he : e.Canonical)
    (hle : e ≤ d) (h : d.min ∈ e) : e.min = d.min :=
  IntVar.extreme_eq_of_mem hd he hle (show d.extreme .lower ∈ e from h)

/-! ### Runs -/

/-- The difference of the greatest value of the right side and the offset is no word, or else the
inequation can be satisfied and the sum of the least value of the left side and the offset is no
word. -/
def LessOrEqual.Overflows (d e : IntDomain) (offset : Int) : Prop :=
  ¬Word.Fits (e.max - offset) ∨ d.min + offset ≤ e.max ∧ d.min + offset < Word.least

/-- One side has a value, the left one if both have, and the partner of this value is no word. -/
def NotEquals.Overflows (d e : IntDomain) (offset : Int) : Prop :=
  d.isAssigned = true ∧ ¬Word.Fits (d.min - offset) ∨
    d.isAssigned = false ∧ e.isAssigned = true ∧ ¬Word.Fits (e.min + offset)

instance (d e : IntDomain) (offset : Int) : Decidable (LessOrEqual.Overflows d e offset) :=
  inferInstanceAs (Decidable (_ ∨ _))

instance (d e : IntDomain) (offset : Int) : Decidable (NotEquals.Overflows d e offset) :=
  inferInstanceAs (Decidable (_ ∨ _))

/-- A restriction of a store variable always finishes. -/
theorem finishes_restrict_root (hs : s.Ready) (hi : i < s.store.ints.size) (relation : Relation)
    (v : Int) : (restrict (.root i) relation v).Finishes s :=
  (finishes_restrict_iff (x := .root i) hs.alive hi).2 ⟨_, rfl⟩

/-- What a run does after the left side was cut: it raises the right side, and compares. -/
def LessOrEqual.raise (a b : IntVar) (offset : Int) : Propagation (Verdict Propagator) := do
  let lower ← Word.add (← reading a.lower) offset
  let _ ← setLower b lower
  let greatest ← Word.add (← reading a.upper) offset
  let least ← reading b.lower
  return if greatest ≤ least then .subsumed else .fix

theorem LessOrEqual.finishes_raise_iff (hs : s.Ready) (hi : i < s.store.ints.size)
    (hj : j < s.store.ints.size) (hij : i ≠ j)
    (hcut : (s.store.box.ints i).max + offset ≤ Word.greatest) :
    (LessOrEqual.raise (.root i) (.root j) offset).Finishes s ↔
      Word.least ≤ (s.store.box.ints i).min + offset := by
  have hd := hs.sound.box.canonical i
  have hle := hd.min_le_max
  have hlower : (IntVar.root i).lower s.store = .ok (s.store.box.ints i).min :=
    IntVar.bound_root hs.sound hi .lower
  unfold LessOrEqual.raise Word.add
  rw [finishes_reading_bind_of_ok hlower, finishes_checked_bind_iff]
  refine ⟨fun h => h.1.1, fun h => ⟨⟨h, by omega⟩, finishes_bind_iff.2 ⟨?_, ?_⟩⟩⟩
  · exact finishes_restrict_root hs hj _ _
  intro event s' hr
  -- The left side is as it was.
  obtain ⟨hs', e, -, -, hstore⟩ := of_restrict (x := .root j) hs hj hr
  have hi' : i < s'.store.ints.size := by rwa [hstore, Store.size_withInt]
  have hj' : j < s'.store.ints.size := by rwa [hstore, Store.size_withInt]
  have hsame : s'.store.box.ints i = s.store.box.ints i := by
    rw [hstore]
    exact Store.box_withInt_of_ne hj e hij.symm
  have hupper : (IntVar.root i).upper s'.store = .ok (s.store.box.ints i).max := by
    rw [← hsame]
    exact IntVar.bound_root hs'.sound hi' .upper
  have hleast : (IntVar.root j).lower s'.store = .ok (s'.store.box.ints j).min :=
    IntVar.bound_root hs'.sound hj' .lower
  refine (finishes_reading_bind_of_ok hupper).2 (finishes_checked_bind_iff.2 ⟨⟨by omega, hcut⟩, ?_⟩)
  exact (finishes_reading_bind_of_ok hleast).2 (finishes_pure _ _)

theorem LessOrEqual.finishes_run_iff (hs : s.Ready) (hi : i < s.store.ints.size)
    (hj : j < s.store.ints.size) (hij : i ≠ j) :
    (LessOrEqual.run (.root i) (.root j) offset).Finishes s ↔
      ¬LessOrEqual.Overflows (s.store.box.ints i) (s.store.box.ints j) offset := by
  have hd := hs.sound.box.canonical i
  have hmax := hs.sound.fits j _ (hs.sound.box.canonical j).max_mem
  have hupper : (IntVar.root j).upper s.store = .ok (s.store.box.ints j).max :=
    IntVar.bound_root hs.sound hj .upper
  -- After the left side was cut, its lower bound is where it was.
  have hrest {event : Event} {s' : State}
      (hr : setUpper (.root i) ((s.store.box.ints j).max - offset) s = .ok (.ok event, s')) :
      (s.store.box.ints i).min + offset ≤ (s.store.box.ints j).max ∧
        ((LessOrEqual.raise (.root i) (.root j) offset).Finishes s' ↔
          Word.least ≤ (s.store.box.ints i).min + offset) := by
    obtain ⟨hs', e, he, hmem, hstore⟩ := of_restrict (x := .root i) hs hi hr
    have hi' : i < s'.store.ints.size := by rwa [hstore, Store.size_withInt]
    have hj' : j < s'.store.ints.size := by rwa [hstore, Store.size_withInt]
    have hbox : s'.store.box.ints i = e := by
      rw [hstore]
      exact Store.box_withInt hi e
    have hmem (u : Int) : u ∈ e ↔ u ∈ s.store.box.ints i ∧ u ≤ (s.store.box.ints j).max - offset :=
      hmem u
    have hleast : e.min = (s.store.box.ints i).min := by
      refine hd.min_eq_of_mem he (fun u hu => ((hmem u).1 hu).1) ((hmem _).2 ⟨hd.min_mem, ?_⟩)
      exact (hd.min_le ((hmem _).1 he.min_mem).1).trans ((hmem _).1 he.min_mem).2
    have hcut := ((hmem _).1 he.max_mem).2
    have hkept := ((hmem _).1 he.min_mem).2
    refine ⟨by omega, ?_⟩
    rw [finishes_raise_iff hs' hi' hj' hij (by rw [hbox]; have := hmax.2; omega), hbox, hleast]
  unfold LessOrEqual.run Word.sub
  rw [finishes_reading_bind_of_ok hupper, finishes_checked_bind_iff]
  unfold LessOrEqual.Overflows
  constructor
  · rintro ⟨hfits, h⟩ (hover | ⟨hle, hlt⟩)
    · exact hover hfits
    · have hkept : Relation.atMost.Holds ((IntVar.root i).eval (s.store.box.ints i).min)
          ((s.store.box.ints j).max - offset) := by
        simp only [Relation.Holds, IntVar.eval]
        omega
      obtain ⟨event, s', hr⟩ :=
        exists_restrict_of_mem (x := .root i) hs hi ⟨_, rfl⟩ hd.min_mem hkept
      have := (hrest hr).2.1 ((finishes_bind_iff.1 h).2 event s' hr)
      omega
  · intro h
    have hfits : Word.Fits ((s.store.box.ints j).max - offset) := by
      by_contra hover
      exact h (.inl hover)
    refine ⟨hfits, finishes_bind_iff.2 ⟨finishes_restrict_root hs hi _ _, fun event s' hr => ?_⟩⟩
    obtain ⟨hle, hiff⟩ := hrest hr
    refine hiff.2 ?_
    by_contra hlt
    exact h (.inr ⟨hle, by omega⟩)

theorem NotEquals.finishes_run_iff (hs : s.Ready) (hi : i < s.store.ints.size)
    (hj : j < s.store.ints.size) :
    (NotEquals.run (.root i) (.root j) offset).Finishes s ↔
      ¬NotEquals.Overflows (s.store.box.ints i) (s.store.box.ints j) offset := by
  have hvalue {k : Nat} (hk : k < s.store.ints.size) : (IntVar.root k).value? s.store =
      .ok (if (s.store.box.ints k).isAssigned = true then some (s.store.box.ints k).min
        else none) := by
    rw [← IntVar.fixedAt_root (hs.sound.box.canonical k)]
    exact (IntVar.readable_root hs.sound k).value? hk
  -- Removing a value and answering that all is done finishes.
  have hremove {k : Nat} (hk : k < s.store.ints.size) (v : Int) : Finishes (do
      let _ ← remove (.root k) v
      return Verdict.subsumed (α := Propagator)) s :=
    finishes_bind_iff.2 ⟨finishes_restrict_root hs hk _ _, fun _ s' _ => finishes_pure _ s'⟩
  unfold NotEquals.run Word.sub Word.add
  rw [finishes_reading_bind_of_ok (hvalue hi)]
  unfold NotEquals.Overflows
  cases ha : (s.store.box.ints i).isAssigned with
  | true =>
    simp only [if_true, finishes_checked_bind_iff, hremove hj, and_true, true_and]
    simp
  | false =>
    simp only [Bool.false_eq_true, if_false]
    rw [finishes_reading_bind_of_ok (hvalue hj)]
    cases hb : (s.store.box.ints j).isAssigned with
    | true =>
      simp only [if_true, finishes_checked_bind_iff, hremove hi, and_true]
      simp
    | false =>
      simp only [Bool.false_eq_true, if_false]
      simp [finishes_pure]

/-! ### Constraints -/

namespace Posting

variable {s : Store} {c : Posting} {q : Propagator} {δ : Prop}

/-- The constraint is one between two store variables. -/
inductive Relates (i j : Nat) : Posting → Prop
  | notEquals (offset : Int) : Relates i j (notEquals (.root i) (.root j) offset)
  | lessOrEqual (offset : Int) : Relates i j (lessOrEqual (.root i) (.root j) offset)
  | lessThan : Relates i j (lessThan (.root i) (.root j))

/-- The arithmetic of the propagator overflows. -/
def Overflows (s : Store) : Posting → Prop
  | notEquals a b offset =>
      NotEquals.Overflows (s.box.ints a.index) (s.box.ints b.index) offset
  | lessOrEqual a b offset =>
      LessOrEqual.Overflows (s.box.ints a.index) (s.box.ints b.index) offset
  | lessThan a b => LessOrEqual.Overflows (s.box.ints a.index) (s.box.ints b.index) 1
  | _ => False

/-- Both sides have a value and contradict the disequation, or the bounds contradict the
inequation. -/
def Infeasible (s : Store) : Posting → Prop
  | notEquals a b offset =>
      (s.box.ints a.index).isAssigned = true ∧ (s.box.ints b.index).isAssigned = true ∧
        (s.box.ints a.index).min = (s.box.ints b.index).min + offset
  | lessOrEqual a b offset => (s.box.ints b.index).max < (s.box.ints a.index).min + offset
  | lessThan a b => (s.box.ints b.index).max ≤ (s.box.ints a.index).min
  | _ => False

/-- Some assignment takes two given values. -/
theorem exists_assignment_pair (hs : s.Sound) (hij : i ≠ j) {u v : Int} (hu : u ∈ s.box.ints i)
    (hv : v ∈ s.box.ints j) : ∃ a : Assignment, a.Within s ∧ a.ints i = u ∧ a.ints j = v := by
  obtain ⟨a, ha, hai⟩ := Store.exists_assignment_int hs hu
  refine ⟨⟨Function.update a.ints j v, a.sets⟩, ⟨fun k => ?_, ha.sets⟩, ?_, Function.update_self ..⟩
  · dsimp only
    by_cases hk : k = j
    · subst hk
      rw [Function.update_self]
      exact hv
    · rw [Function.update_of_ne hk]
      exact ha.ints k
  · exact (Function.update_of_ne hij ..).trans hai

/-- Unless both sides have a value and contradict the disequation, some pair of values satisfies
it. -/
theorem exists_ne_of_not_assigned {d e : IntDomain} (hd : d.Canonical) (he : e.Canonical)
    (h : ¬(d.isAssigned = true ∧ e.isAssigned = true ∧ d.min = e.min + offset)) :
    ∃ u ∈ d, ∃ v ∈ e, u ≠ v + offset := by
  by_contra hnone
  push Not at hnone
  have hmin := hnone _ hd.min_mem _ he.min_mem
  have hd' := hnone _ hd.max_mem _ he.min_mem
  have he' := hnone _ hd.min_mem _ he.max_mem
  exact h ⟨hd.isAssigned_iff.2 (by omega), he.isAssigned_iff.2 (by omega), hmin⟩

/-- Unless it is infeasible, some assignment satisfies the constraint. -/
theorem Relates.not_infeasible_iff (hc : c.Relates i j) (hs : s.Sound) (hij : i ≠ j) :
    ¬c.Infeasible s ↔ ∃ a : Assignment, a.Within s ∧ c.Holds a := by
  have hd := hs.box.canonical i
  have he := hs.box.canonical j
  constructor
  · intro h
    obtain ⟨u, hu, v, hv, huv⟩ : ∃ u ∈ s.box.ints i, ∃ v ∈ s.box.ints j,
        ∀ a : Assignment, a.ints i = u → a.ints j = v → c.Holds a := by
      cases hc with
      | notEquals offset =>
        obtain ⟨u, hu, v, hv, hne⟩ := exists_ne_of_not_assigned hd he h
        refine ⟨u, hu, v, hv, ?_⟩
        rintro a rfl rfl
        exact hne
      | lessOrEqual offset =>
        refine ⟨_, hd.min_mem, _, he.max_mem, fun a ha hb => ?_⟩
        show a.ints i + offset ≤ a.ints j
        rw [ha, hb]
        exact not_lt.1 h
      | lessThan =>
        refine ⟨_, hd.min_mem, _, he.max_mem, fun a ha hb => ?_⟩
        show a.ints i < a.ints j
        rw [ha, hb]
        exact not_le.1 h
    obtain ⟨a, ha, hau, hav⟩ := exists_assignment_pair hs hij hu hv
    exact ⟨a, ha, huv a hau hav⟩
  · rintro ⟨a, ha, hholds⟩ h
    cases hc with
    | notEquals offset =>
      obtain ⟨hassigned, hassigned', heq⟩ := h
      have hai := hd.eq_min_of_isAssigned hassigned (ha.ints i)
      have haj := he.eq_min_of_isAssigned hassigned' (ha.ints j)
      refine hholds ?_
      show a.ints i = a.ints j + offset
      rw [hai, haj]
      exact heq
    | lessOrEqual offset =>
      have hle : a.ints i + offset ≤ a.ints j := hholds
      have hmin := hd.min_le (ha.ints i)
      have hmax := he.le_max (ha.ints j)
      have hlt : (s.box.ints j).max < (s.box.ints i).min + offset := h
      omega
    | lessThan =>
      have hlt : a.ints i < a.ints j := hholds
      have hmin := hd.min_le (ha.ints i)
      have hmax := he.le_max (ha.ints j)
      have hle : (s.box.ints j).max ≤ (s.box.ints i).min := h
      omega

/-- The propagator of a constraint between two store variables. -/
structure Enforces (δ : Prop) (s : Store) (c : Posting) (q : Propagator) : Prop where
  propagator : c.propagator = .ok (.ok q)
  wellFormed : q.WellFormed δ s
  oriented : q.Oriented
  replacements : q.replacements = 0
  ne_setCardinality : ∀ set x, q ≠ .setCardinality set x
  stable : ∀ a : Assignment, c.Holds a → q.Stable a.box
  feasible : ∀ T : Store, T.Sound → q.Stable T.box → ¬c.Infeasible T
  finishes_iff : ∀ state : State, state.Ready → state.store = s →
    (q.run.Finishes state ↔ ¬c.Overflows s)

theorem Relates.exists_enforces (hc : c.Relates i j) (hi : i < s.ints.size) (hj : j < s.ints.size)
    (hij : i ≠ j) : ∃ q, Enforces δ s c q := by
  have hai : (IntVar.root i).Admissible δ s := ⟨hi, .inl trivial⟩
  have haj : (IntVar.root j).Admissible δ s := ⟨hj, .inl trivial⟩
  have hlessOrEqual (offset : Int) : Enforces δ s (.lessOrEqual (.root i) (.root j) offset)
      (.lessOrEqual (.root i) (.root j) offset) :=
    { propagator := rfl
      wellFormed := ⟨hai, haj⟩
      oriented := fun h => absurd h hij
      replacements := rfl
      ne_setCardinality := by simp
      stable := fun a ha => Propagator.stable_box.2 ⟨ha, trivial⟩
      feasible := fun T hT hstable => by
        have hle : (T.box.ints i).max + offset ≤ (T.box.ints j).max := hstable.1
        have hd := (hT.box.canonical i).min_le_max
        show ¬(T.box.ints j).max < (T.box.ints i).min + offset
        omega
      finishes_iff := by
        rintro state hs rfl
        exact finishes_return_iff.trans (LessOrEqual.finishes_run_iff hs hi hj hij) }
  cases hc with
  | lessOrEqual offset => exact ⟨_, hlessOrEqual offset⟩
  | lessThan =>
    have h := hlessOrEqual 1
    exact ⟨_, { h with
      propagator := rfl
      stable := fun a ha => h.stable a (Int.add_one_le_of_lt ha)
      feasible := fun T hT hstable hle => h.feasible T hT hstable (Int.lt_add_one_of_le hle) }⟩
  | notEquals offset =>
    exact ⟨_,
      { propagator := rfl
        wellFormed := ⟨hai, haj⟩
        oriented := trivial
        replacements := rfl
        ne_setCardinality := by simp
        stable := fun a ha => Propagator.stable_box.2 ⟨ha, trivial⟩
        feasible := fun T hT hstable => by
          rintro ⟨hassigned, -, heq⟩
          have hfixed : (IntVar.root i).fixedAt T.box = some (T.box.ints i).min :=
            (IntVar.fixedAt_root (hT.box.canonical i)).trans (if_pos hassigned)
          have hne : (T.box.ints j).min ≠ (T.box.ints i).min + -offset :=
            hstable.1 _ hfixed _ (hT.box.canonical j).min_mem
          change (T.box.ints i).min = (T.box.ints j).min + offset at heq
          omega
        finishes_iff := by
          rintro state hs rfl
          exact finishes_return_iff.trans (NotEquals.finishes_run_iff hs hi hj) }⟩

end Posting

namespace Space

variable {δ : Prop} {s s' : Space} {c : Posting} {q : Propagator}

/-- What the status says of a space in which the constraint is the only one, with the domains of
`s` before. -/
structure Decides (c : Posting) (s s₁ : Space) : Prop where
  faults : c.Overflows s.store → ∀ journal, ∃ fault, (s₁.status journal).1 = .error fault
  finishes : ¬c.Overflows s.store → s₁.status.Finishes
  failed_iff : ∀ status s', s₁.status.Returns (status, s') →
    (status = .failed ↔ c.Infeasible s.store)
  kept : ∀ status s', s₁.status.Returns (status, s') → status ≠ .failed →
    ∀ a : Assignment, a.Within s.store → c.Holds a → a.Within s'.store

theorem decides_posting (hs : s.Tracks δ [] none) (hlegible : s.Legible)
    (hq : c.Enforces δ s.store q) (hc : c.Relates i j) (hij : i ≠ j) :
    Decides c s (s.posting q) := by
  have hsole : (s.posting q).Sole δ q := sole_posting hs hq.wellFormed
  have hconsistent {a : Assignment} (ha : c.Holds a) : Consistent [q] a.box := fun p hp => by
    rw [List.mem_singleton.1 hp]
    exact hq.stable a ha
  refine ⟨fun hover journal => ?_, fun hnot => ?_, fun status s' hr => ?_,
    fun status s' hr hne a ha hholds => ?_⟩
  · cases hr : ((s.posting q).status journal).1 with
    | error fault => exact ⟨fault, rfl⟩
    | ok r =>
      obtain ⟨s₁, hs₁, -⟩ := exists_of_status ⟨journal, hr⟩
      obtain ⟨state, hready, hstore, hfinishes⟩ := hsole.finishes_run hs₁
      exact absurd hover ((hq.finishes_iff state hready hstore).1 hfinishes)
  · refine finishes_status hsole.tracks (hsole.finishes_propagate hq.replacements ?_) hlegible
    exact fun state hready hstore => (hq.finishes_iff state hready hstore).2 hnot
  · have hlaw := hsole.tracks.of_status hr
    constructor
    · rintro rfl
      rw [if_pos rfl] at hlaw
      by_contra hfeasible
      obtain ⟨a, ha, hholds⟩ := (hc.not_infeasible_iff hs.ready.sound hij).1 hfeasible
      exact hlaw a.box ha.sound (hconsistent hholds) ha.box
    · intro hinfeasible
      by_contra hne
      rw [if_neg hne] at hlaw
      obtain ⟨htracks, hnarrows, -, hidle⟩ := hlaw
      have hstable := htracks.stable_of_idle (hidle 0) rfl hq.oriented
        fun set x heq => absurd heq (hq.ne_setCardinality set x)
      obtain ⟨a, ha, hholds⟩ := (hc.not_infeasible_iff htracks.ready.sound hij).1
        (hq.feasible _ htracks.ready.sound hstable)
      exact (hc.not_infeasible_iff hs.ready.sound hij).2 ⟨a, ha.of_narrows hnarrows, hholds⟩
        hinfeasible
  · have hlaw := hsole.tracks.of_status hr
    rw [if_neg hne] at hlaw
    obtain ⟨-, hnarrows, hkept, -⟩ := hlaw
    exact ha.of_box hnarrows (hkept a.box ha.sound (hconsistent hholds) ha.box)

/-- **Two variables at the ends of the range.** Let a client reach a space in which nothing is
posted, and post one disequation or inequation between two distinct store variables. The status is a
fault if and only if an overflow is foreseen. Where it is returned, it is a failure exactly if the
integers say so, and no assignment that satisfies the constraint is lost otherwise. -/
theorem Reachable.decides_of_relates (h : s.Reachable (Operation.Admissible δ))
    (halive : s.isFailed = false) (hempty : s.propagators.size = 0) (hlegible : s.Legible)
    (hi : i < s.store.ints.size) (hj : j < s.store.ints.size) (hij : i ≠ j)
    (hc : c.Relates i j) : ∃ s₁, c.post s = .ok (.ok (0, s₁)) ∧ Decides c s s₁ := by
  obtain ⟨posted, hs⟩ := (h.inOrder.resolve_left (by simp [halive])).tracks
  obtain rfl : posted = [] := List.length_eq_zero_iff.1 (hs.size.symm.trans hempty)
  obtain ⟨q, hq⟩ := hc.exists_enforces (δ := δ) hi hj hij
  refine ⟨s.posting q, ?_, decides_posting hs hlegible hq hc hij⟩
  rw [Posting.post_eq_bind, hq.propagator]
  show s.post q = _
  rw [post_eq hs.ready.alive hq.wellFormed, hempty]

/-- The least of all values on one side and the greatest on the other: the sums that are computed
fit, and the status is returned. -/
theorem Reachable.decides_of_relates_lessThan :
    ∃ s s₁ : Space, s.Reachable (Operation.Admissible False) ∧
      (s.isFailed = false ∧ s.propagators.size = 0 ∧ s.Legible ∧ 0 < s.store.ints.size ∧
        1 < s.store.ints.size) ∧
      (s.store.int 0).toOption = IntDomain.ofInterval? Word.least 5 ∧
      (s.store.int 1).toOption = IntDomain.ofInterval? 0 Word.greatest ∧
      (Posting.lessThan (.root 0) (.root 1)).post s = .ok (.ok (0, s₁)) ∧
      Decides (.lessThan (.root 0) (.root 1)) s s₁ ∧ s₁.status.Finishes := by
  have hrun : ((ofPolicy .costOrdered).performAll?
      (fun s o => decide (o.Admissible False s))
      [.newInt Word.least 5, .newInt 0 Word.greatest]).any (fun s =>
        decide ((s.isFailed = false ∧ s.propagators.size = 0 ∧ s.branchers.size = 0 ∧
          0 < s.store.ints.size ∧ 1 < s.store.ints.size) ∧
          (s.store.int 0).toOption = IntDomain.ofInterval? Word.least 5 ∧
          (s.store.int 1).toOption = IntDomain.ofInterval? 0 Word.greatest ∧
          ¬LessOrEqual.Overflows (s.store.box.ints 0) (s.store.box.ints 1) 1)) = true := by
    decide +kernel
  obtain ⟨s, hs, hrun⟩ := (Option.any_eq_true ..).1 hrun
  obtain ⟨⟨halive, hempty, hbranchers, hi, hj⟩, hleft, hright, hnot⟩ := of_decide_eq_true hrun
  have hreachable : s.Reachable (Operation.Admissible False) :=
    (Reachable.empty .costOrdered).performAll? (fun s o => of_decide_eq_true) hs
  have hlegible : s.Legible := fun i b hb => by
    have hlt := (Array.getElem?_eq_some_iff.1 hb).1
    change i < s.branchers.size at hlt
    omega
  obtain ⟨s₁, hpost, hdecides⟩ := hreachable.decides_of_relates halive hempty hlegible hi hj
    (by decide) .lessThan
  exact ⟨s, s₁, hreachable, ⟨halive, hempty, hlegible, hi, hj⟩, hleft, hright, hpost, hdecides,
    hdecides.finishes hnot⟩

/-- Nothing is less than the least of all values. To say so of a variable faults instead of failing
the space. -/
theorem exists_fault_of_lessThan :
    ∃ s s₁ : Space, s.Reachable (fun _ _ => True) ∧ s.isFailed = false ∧ s.propagators.size = 0 ∧
      (s.store.int 0).toOption = IntDomain.ofInterval? 0 1 ∧
      s.store.int 1 = .ok (.singleton Word.least) ∧
      (Posting.lessThan (.root 0) (.root 1)).post s = .ok (.ok (0, s₁)) ∧
      (Posting.lessThan (.root 0) (.root 1)).Infeasible s.store ∧
      (s₁.status #[]).1 = .error (.overflow .subtract) := by
  have hrun : ((ofPolicy .costOrdered).performAll? (fun _ _ => true)
      [.newInt 0 1, .newInt Word.least Word.least]).any (fun s =>
        ((Posting.lessThan (.root 0) (.root 1)).post s).toOption.any fun r =>
          r.toOption.any fun p =>
          decide (s.isFailed = false ∧ s.propagators.size = 0 ∧
            (s.store.int 0).toOption = IntDomain.ofInterval? 0 1 ∧
            (s.store.int 1).toOption = some (.singleton Word.least) ∧
            (s.store.box.ints 1).max ≤ (s.store.box.ints 0).min ∧
            p.1 = 0 ∧ fault? (p.2.status #[]).1 = some (.overflow .subtract))) = true := by
    decide +kernel
  obtain ⟨s, hs, hrun⟩ := (Option.any_eq_true ..).1 hrun
  obtain ⟨r, hpost, hrun⟩ := (Option.any_eq_true ..).1 hrun
  obtain ⟨⟨n, s₁⟩, hgranted, hrun⟩ := (Option.any_eq_true ..).1 hrun
  obtain ⟨halive, hempty, hleft, hright, hinfeasible, rfl, hfault⟩ := of_decide_eq_true hrun
  have hreachable : s.Reachable fun _ _ => True :=
    (Reachable.empty .costOrdered).performAll? (fun _ _ _ => trivial) hs
  have hpost : (Posting.lessThan (.root 0) (.root 1)).post s = .ok (.ok (0, s₁)) :=
    (ok_of_toOption hpost).trans (congrArg Except.ok (ok_of_toOption hgranted))
  exact ⟨s, s₁, hreachable, halive, hempty, hleft, ok_of_toOption hright, hpost, hinfeasible,
    error_of_fault? hfault⟩

end Space

end ConstraintSearch
