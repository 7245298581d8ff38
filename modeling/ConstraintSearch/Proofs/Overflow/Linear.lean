import ConstraintSearch.Proofs.Contract
import ConstraintSearch.Proofs.Overflow.View
import ConstraintSearch.Proofs.Propagator.Rest

/-!
# Sums at the ends of the range

A linear constraint adds up the bounds of its terms without a bound on the sums, and clamps what it
sets to the 32-bit values. The clamped bound is then carried back through the view of a term, and
here 32-bit arithmetic may overflow after all, although every value of the term is a word.

* `Linear.share`: the bound that the other terms leave to one of them;
* `Linear.Carried`: both shares of a term can be carried back;
* `Linear.finishes_runAtMost`, `Linear.finishes_runEqual`: a run finishes if the widest shares of
  the terms can be carried back, whatever is mentioned how often;
* `Linear.finishes_runAtMost_iff`, `Linear.finishes_runEqual_iff`: exactly when a run finishes that
  moves no bound which it reads again;
* `Linear.finishes_runAtMost_of_nonneg`, `Linear.finishes_runEqual_of_multiples`: constraints on
  weighted variables that never overflow;
* `Linear.forecast`: all this of the propagators.
-/

namespace ConstraintSearch

namespace Linear

open Propagation

variable {s s' : State} {F G : Box} {terms xs : List IntVar} {x : IntVar} {total slack v w : Int}

/-! ### Shares -/

/-- The bound that the sum leaves to a term that is at `v`, with the other terms at their bounds on
one side. -/
def share (F : Box) (terms : List IntVar) (total : Int) (side : Side) (v : Int) : Int :=
  Word.clamp (v + (total - IntVar.edges F side terms))

theorem clamp_mono (h : v ≤ w) : Word.clamp v ≤ Word.clamp w := by
  unfold Word.clamp
  omega

theorem le_clamp (hv : Word.Fits v) (h : v ≤ w) : v ≤ Word.clamp w :=
  (Word.clamp_of_fits hv).ge.trans (clamp_mono h)

theorem clamp_le (hw : Word.Fits w) (h : v ≤ w) : Word.clamp v ≤ w :=
  (clamp_mono h).trans (Word.clamp_of_fits hw).le

theorem share_mono (side : Side) (h : v ≤ w) :
    share F terms total side v ≤ share F terms total side w :=
  clamp_mono (by omega)

theorem le_share {side : Side} (hv : Word.Fits v) (h : IntVar.edges F side terms ≤ total) :
    v ≤ share F terms total side v :=
  le_clamp hv (by omega)

theorem share_le {side : Side} (hv : Word.Fits v) (h : total ≤ IntVar.edges F side terms) :
    share F terms total side v ≤ v :=
  clamp_le hv (by omega)

theorem edge_congr (h : F.ints x.index = G.ints x.index) (side : Side) :
    x.edge F side = x.edge G side := by
  unfold IntVar.edge
  rw [h]

/-- The bounds that are set on a term which has the bounds `l` and `u` can be carried back. -/
def Carried (F : Box) (terms : List IntVar) (total : Int) (x : IntVar) (l u : Int) : Prop :=
  x.Carries .upper (share F terms total .lower l) ∧ x.Carries .lower (share F terms total .upper u)

/-- Some value of the term lies between the bounds that are set on it. -/
def Kept (F : Box) (terms : List IntVar) (total : Int) (x : IntVar) : Prop :=
  ∃ v ∈ F.ints x.index, share F terms total .upper (x.edge F .upper) ≤ x.eval v ∧
    x.eval v ≤ share F terms total .lower (x.edge F .lower)

/-- Some term of a pass cannot be cut, and the terms before it keep a value. -/
inductive Blocked (F : Box) (terms : List IntVar) (total : Int) : List IntVar → Prop
  | here {x : IntVar} {xs : List IntVar}
      (h : ¬Carried F terms total x (x.edge F .lower) (x.edge F .upper)) :
      Blocked F terms total (x :: xs)
  | later {x : IntVar} {xs : List IntVar} (h : Kept F terms total x)
      (hxs : Blocked F terms total xs) : Blocked F terms total (x :: xs)

theorem blocked_cons_iff : Blocked F terms total (x :: xs) ↔
    ¬Carried F terms total x (x.edge F .lower) (x.edge F .upper) ∨
      Kept F terms total x ∧ Blocked F terms total xs := by
  constructor
  · rintro (h | ⟨h, hxs⟩)
    · exact .inl h
    · exact .inr ⟨h, hxs⟩
  · rintro (h | ⟨h, hxs⟩)
    · exact .here h
    · exact .later h hxs

theorem not_blocked (h : ∀ x ∈ xs, Carried F terms total x (x.edge F .lower) (x.edge F .upper)) :
    ¬Blocked F terms total xs := by
  intro hblocked
  induction hblocked with
  | here hx => exact hx (h _ (by simp))
  | later _ _ ih => exact ih fun y hy => h y (by simp [hy])

/-! ### States that can be read -/

/-- The terms exist, and their bounds can be read. -/
structure Legible (terms : List IntVar) (s : State) : Prop where
  ready : s.Ready
  exist : ∀ x ∈ terms, x.index < s.store.ints.size
  readable : ∀ x ∈ terms, x.Readable s.store

namespace Legible

theorem of_advances (h : Legible terms s) (ha : s.Advances s') : Legible terms s' where
  ready := ha.ready h.ready
  exist x hx := ha.store.size_ints ▸ h.exist x hx
  readable x hx :=
    (h.readable x hx).of_evolves h.ready.sound (ha.ready h.ready).sound ha.store.evolves
      (h.exist x hx)

theorem fits (h : Legible terms s) (hx : x ∈ terms) (side : Side) :
    Word.Fits (x.edge s.store.box side) :=
  (h.readable x hx side).fits

theorem read (h : Legible terms s) (hx : x ∈ terms) (side : Side) :
    x.bound s.store side = .ok (x.edge s.store.box side) :=
  (h.readable x hx).bound (h.exist x hx) side

theorem lower_le_upper (h : Legible terms s) (x : IntVar) :
    x.edge s.store.box .lower ≤ x.edge s.store.box .upper :=
  IntVar.edge_lower_le_upper (h.ready.sound.box.canonical x.index)

/-- The bounds of a term move towards each other. -/
theorem edges_mono (h : Legible terms s) (h' : Legible terms s')
    (hn : s.store.Narrows s'.store) (hx : x ∈ terms) :
    x.edge s.store.box .lower ≤ x.edge s'.store.box .lower ∧
      x.edge s'.store.box .upper ≤ x.edge s.store.box .upper := by
  have hc := h.ready.sound.box.canonical x.index
  have hc' := h'.ready.sound.box.canonical x.index
  have hle := hn.within.ints _ (h.exist x hx)
  exact ⟨IntVar.edge_lower_mono hc' hc hle, IntVar.edge_upper_mono hc' hc hle⟩

/-- A bound between one that the term has and one above it that can be carried back. -/
theorem carries_of_le (h : Legible terms s) (hx : x ∈ terms) {side side' : Side}
    (hw : x.Carries side w) (hedge : x.edge s.store.box side' ≤ v) (hle : v ≤ w) :
    x.Carries side v :=
  ((h.readable x hx).carries_edge hw.proper side side').of_between hw hedge hle

/-- A bound between one that the term has and one below it that can be carried back. -/
theorem carries_of_ge (h : Legible terms s) (hx : x ∈ terms) {side side' : Side}
    (hw : x.Carries side w) (hle : w ≤ v) (hedge : v ≤ x.edge s.store.box side') :
    x.Carries side v :=
  hw.of_between ((h.readable x hx).carries_edge hw.proper side side') hle hedge

/-- What a restriction of a term leaves. -/
theorem of_restrict (h : Legible terms s) (hx : x ∈ terms) {relation : Relation} {event : Event}
    (hr : restrict x relation v s = .ok (.ok event, s')) :
    Legible terms s' ∧ s.Advances s' ∧
      s.store.NarrowedTo x.ref (x.Restricted relation v) event s'.store := by
  obtain ⟨hstep, hcut, -⟩ := Yields.of_ok (Law.restrict (C := fun _ => False) h.ready
    (h.exist x hx) (.inr trivial) fun _ _ hC => hC.elim) hr
  exact ⟨h.of_advances hstep.advances, hstep.advances, hcut⟩

/-- To cut the upper bound of a term to its lower bound or above is consistent. -/
theorem exists_setUpper (h : Legible terms s) (hx : x ∈ terms) (hcarries : x.Carries .upper v)
    (hle : x.edge s.store.box .lower ≤ v) : ∃ event s', setUpper x v s = .ok (.ok event, s') := by
  obtain ⟨u, hu, heval⟩ := IntVar.exists_eval_eq_edge (h.ready.sound.box.canonical x.index) .lower
  exact exists_restrict_of_mem h.ready (h.exist x hx) ((IntVar.exists_pull_iff .upper).2 hcarries)
    hu (heval.trans_le hle)

end Legible

/-! ### Inequations -/

theorem finishes_cutUpper_iff (h : Legible terms s) (hx : x ∈ terms) :
    (cutUpper slack x).Finishes s ↔
      x.Carries .upper (Word.clamp (x.edge s.store.box .lower + slack)) := by
  have hlower : x.lower s.store = .ok _ := h.read hx .lower
  unfold cutUpper
  rw [finishes_reading_bind_of_ok hlower, discard_eq_bind]
  exact finishes_return_iff.trans (finishes_setUpper_iff h.ready (h.exist x hx))

theorem setUpper_of_cutUpper (h : Legible terms s) (hx : x ∈ terms)
    (hr : cutUpper slack x s = .ok (.ok ⟨⟩, s')) : ∃ event,
      setUpper x (Word.clamp (x.edge s.store.box .lower + slack)) s = .ok (.ok event, s') := by
  unfold cutUpper at hr
  rw [bind_of_ok (reading_of_ok (h.read hx .lower)), discard_eq_bind] at hr
  obtain ⟨event, s₁, hset, hr⟩ := exists_of_bind hr
  cases hr
  exact ⟨event, hset⟩

/-- Since the slack is not negative, the lower bound is kept. -/
theorem exists_cutUpper (h : Legible terms s) (hx : x ∈ terms) (hslack : 0 ≤ slack)
    (hcarries : x.Carries .upper (Word.clamp (x.edge s.store.box .lower + slack))) :
    ∃ s', cutUpper slack x s = .ok (.ok ⟨⟩, s') := by
  obtain ⟨event, s', hset⟩ :=
    h.exists_setUpper hx hcarries (le_clamp (h.fits hx .lower) (by omega))
  refine ⟨s', ?_⟩
  unfold cutUpper
  rw [bind_of_ok (reading_of_ok (h.read hx .lower)), discard_eq_bind]
  exact bind_of_ok hset

/-- A pass over some terms finishes if the bounds that it could set can be carried back, however far
the lower bounds move meanwhile. -/
theorem finishes_cutAll (h : Legible terms s) (hslack : 0 ≤ slack) (hxs : ∀ x ∈ xs, x ∈ terms)
    (hcarries : ∀ x ∈ xs, x.Carries .upper (Word.clamp (x.edge s.store.box .upper + slack))) :
    (xs.forM (cutUpper slack)).Finishes s := by
  induction xs generalizing s with
  | nil => exact finishes_pure _ _
  | cons x xs ih =>
    have hx := hxs x (by simp)
    refine finishes_bind_iff.2 ⟨?_, fun _ s₁ hr => ?_⟩
    · refine (finishes_cutUpper_iff h hx).2 ?_
      refine h.carries_of_le hx (hcarries x (by simp)) (le_clamp (h.fits hx .lower) (by omega)) ?_
      have := h.lower_le_upper x
      exact clamp_mono (by omega)
    · obtain ⟨event, hset⟩ := setUpper_of_cutUpper h hx hr
      obtain ⟨h₁, ha, -⟩ := h.of_restrict hx hset
      refine ih h₁ (fun y hy => hxs y (by simp [hy])) fun y hy => ?_
      have hy' := hxs y (by simp [hy])
      refine h₁.carries_of_le hy' (hcarries y (by simp [hy]))
        (le_clamp (h₁.fits hy' .upper) (by omega)) ?_
      have := (h.edges_mono h₁ ha.store hy').2
      exact clamp_mono (by omega)

/-- Without a store variable in both directions no lower bound moves, and a pass finishes only if
the bounds that it sets can be carried back. -/
theorem finishes_cutAll_iff (h : Legible terms s)
    (horiented : (Propagator.linearAtMost terms total).Oriented) (hslack : 0 ≤ slack)
    (hxs : ∀ x ∈ xs, x ∈ terms) : (xs.forM (cutUpper slack)).Finishes s ↔
      ∀ x ∈ xs, x.Carries .upper (Word.clamp (x.edge s.store.box .lower + slack)) := by
  induction xs generalizing s with
  | nil => exact iff_of_true (finishes_pure _ _) (by simp)
  | cons x xs ih =>
    have hx := hxs x (by simp)
    have hrest {s₁ : State} (hr : cutUpper slack x s = .ok (.ok ⟨⟩, s₁)) :
        (xs.forM (cutUpper slack)).Finishes s₁ ↔
          ∀ y ∈ xs, y.Carries .upper (Word.clamp (y.edge s.store.box .lower + slack)) := by
      obtain ⟨event, hset⟩ := setUpper_of_cutUpper h hx hr
      obtain ⟨h₁, -, hcut⟩ := h.of_restrict hx hset
      refine (ih h₁ fun y hy => hxs y (by simp [hy])).trans (forall₂_congr fun y hy => ?_)
      have hy' := hxs y (by simp [hy])
      have hedge : y.edge s₁.store.box .lower = y.edge s.store.box .lower :=
        congrArg y.eval (IntVar.extreme_of_setUpper h.ready.sound hcut (h.exist x hx) y .lower
          fun hi => horiented y hy' x hx hi)
      rw [hedge]
    rw [List.forall_mem_cons, ← finishes_cutUpper_iff h hx]
    refine finishes_bind_iff.trans (and_congr_right fun hfinishes => ?_)
    obtain ⟨s₁, hr⟩ := exists_cutUpper h hx hslack ((finishes_cutUpper_iff h hx).1 hfinishes)
    exact ⟨fun hall => (hrest hr).1 (hall _ s₁ hr), fun hall _ s₂ hr' => (hrest hr').2 hall⟩

/-- The sum of the lower bounds is read, and a run that goes on is the pass over the terms. -/
theorem finishes_runAtMost_iff_cutAll (h : Legible terms s) :
    (runAtMost terms total).Finishes s ↔ (IntVar.edges s.store.box .lower terms ≤ total →
      (terms.forM (cutUpper (total - IntVar.edges s.store.box .lower terms))).Finishes s) := by
  have hsum : sum .lower s.store terms = .ok _ :=
    sum_of_readable (fun x hx => ⟨h.readable x hx, h.exist x hx⟩) .lower
  unfold runAtMost
  rw [finishes_reading_bind_of_ok hsum]
  by_cases hslack : total - IntVar.edges s.store.box .lower terms < 0
  · rw [if_pos hslack]
    exact iff_of_true (finishes_bind_iff.2 ⟨finishes_throw _ _, fun _ _ hr => by cases hr⟩)
      fun hle => by omega
  · rw [if_neg hslack, forall_prop_of_true (by omega)]
    refine finishes_bind_iff.trans (and_iff_left fun _ s₁ hr => ?_)
    obtain ⟨hstep, -⟩ := Yields.of_ok (cutAll_law (δ := True) h.ready
      (fun x hx => ⟨h.exist x hx, .inr trivial⟩) (by omega) (fun _ hx => hx) (Step.refl _ s)) hr
    have h₁ := h.of_advances hstep.advances
    have hsum₁ : sum .upper s₁.store terms = .ok _ :=
      sum_of_readable (fun x hx => ⟨h₁.readable x hx, h₁.exist x hx⟩) .upper
    exact (finishes_reading_bind_of_ok hsum₁).2 (finishes_pure _ _)

/-- A run finishes if the widest shares of the terms can be carried back. -/
theorem finishes_runAtMost (h : Legible terms s)
    (hcarries : IntVar.edges s.store.box .lower terms ≤ total → ∀ x ∈ terms,
      x.Carries .upper (share s.store.box terms total .lower (x.edge s.store.box .upper))) :
    (runAtMost terms total).Finishes s :=
  (finishes_runAtMost_iff_cutAll h).2 fun hlowers =>
    finishes_cutAll h (by omega) (fun _ hx => hx) (hcarries hlowers)

/-- A run of an inequation that does not mention a store variable in both directions finishes if and
only if the shares of the terms can be carried back. -/
theorem finishes_runAtMost_iff (h : Legible terms s)
    (horiented : (Propagator.linearAtMost terms total).Oriented) :
    (runAtMost terms total).Finishes s ↔ (IntVar.edges s.store.box .lower terms ≤ total →
      ∀ x ∈ terms,
        x.Carries .upper (share s.store.box terms total .lower (x.edge s.store.box .lower))) :=
  (finishes_runAtMost_iff_cutAll h).trans <| forall_congr' fun _ =>
    finishes_cutAll_iff h horiented (by omega) fun _ hx => hx

/-! ### Equations -/

theorem tightenTerm_eq (F : Box) (terms : List IntVar) (total : Int) (x : IntVar) :
    tightenTerm total (IntVar.edges F .lower terms) (IntVar.edges F .upper terms) x = (do
      let lower ← reading x.lower
      let upper ← reading x.upper
      let cutUpper ← setUpper x (share F terms total .lower lower)
      let cutLower ← setLower x (share F terms total .upper upper)
      return cutUpper.isModified || cutLower.isModified) := by
  have hshare (e v : Int) : total - (e - v) = v + (total - e) := by omega
  simp only [tightenTerm, share, hshare]

theorem finishes_tightenTerm_iff (h : Legible terms s) (hx : x ∈ terms)
    (hlowers : IntVar.edges F .lower terms ≤ total) :
    (tightenTerm total (IntVar.edges F .lower terms) (IntVar.edges F .upper terms) x).Finishes s ↔
      Carried F terms total x (x.edge s.store.box .lower) (x.edge s.store.box .upper) := by
  have hlower : x.lower s.store = .ok _ := h.read hx .lower
  have hupper : x.upper s.store = .ok _ := h.read hx .upper
  rw [tightenTerm_eq, finishes_reading_bind_of_ok hlower, finishes_reading_bind_of_ok hupper,
    finishes_bind_iff, finishes_setUpper_iff h.ready (h.exist x hx)]
  refine and_congr_right fun hcarries => ?_
  have hlast {event : Event} {s₁ : State} {a b : Int}
      (hset : setUpper x a s = .ok (.ok event, s₁)) :
      (setLower x b).Finishes s₁ ↔ x.Carries .lower b :=
    have h₁ := (h.of_restrict hx hset).1
    finishes_setLower_iff h₁.ready (h₁.exist x hx)
  obtain ⟨event, s₁, hset⟩ :=
    h.exists_setUpper hx hcarries (le_share (h.fits hx .lower) hlowers)
  refine ⟨fun hall => (hlast hset).1 (finishes_return_iff.1 (hall event s₁ hset)), ?_⟩
  exact fun hlower _ _ hset' => finishes_return_iff.2 ((hlast hset').2 hlower)

/-- Both cuts of a term. -/
theorem cuts_of_tightenTerm (h : Legible terms s) (hx : x ∈ terms) {changed : Bool}
    (hr : tightenTerm total (IntVar.edges F .lower terms) (IntVar.edges F .upper terms) x s =
      .ok (.ok changed, s')) : ∃ event event' s₁,
      setUpper x (share F terms total .lower (x.edge s.store.box .lower)) s =
        .ok (.ok event, s₁) ∧
      setLower x (share F terms total .upper (x.edge s.store.box .upper)) s₁ =
        .ok (.ok event', s') := by
  rw [tightenTerm_eq, bind_of_ok (reading_of_ok (h.read hx .lower)),
    bind_of_ok (reading_of_ok (h.read hx .upper))] at hr
  obtain ⟨event, s₁, hset, hr⟩ := exists_of_bind hr
  obtain ⟨event', s₂, hset', hr⟩ := exists_of_bind hr
  cases hr
  exact ⟨event, event', s₁, hset, hset'⟩

/-- What cutting a term leaves. -/
theorem Legible.of_tightenTerm (h : Legible terms s) (hx : x ∈ terms) {changed : Bool}
    (hr : tightenTerm total (IntVar.edges F .lower terms) (IntVar.edges F .upper terms) x s =
      .ok (.ok changed, s')) : Legible terms s' ∧ s.Advances s' ∧
      ∀ i, i ≠ x.index → s'.store.box.ints i = s.store.box.ints i := by
  obtain ⟨event, event', s₁, hset, hset'⟩ := cuts_of_tightenTerm h hx hr
  obtain ⟨h₁, ha, hcut⟩ := h.of_restrict hx hset
  obtain ⟨h', ha', hcut'⟩ := h₁.of_restrict hx hset'
  refine ⟨h', ha.trans ha', fun i hi => ?_⟩
  have hne : VarRef.int i ≠ x.ref := fun heq => hi (VarRef.int.inj heq)
  exact (hcut'.other_ints i hne).trans (hcut.other_ints i hne)

/-- Of distinct store variables, cutting one leaves the others as they were. -/
theorem Legible.same_of_tightenTerm (h : Legible terms s) (hx : x ∈ terms) {changed : Bool}
    (hr : tightenTerm total (IntVar.edges F .lower terms) (IntVar.edges F .upper terms) x s =
      .ok (.ok changed, s')) (hnew : x.index ∉ xs.map IntVar.index)
    (hsame : ∀ y ∈ xs, s.store.box.ints y.index = F.ints y.index) :
    ∀ y ∈ xs, s'.store.box.ints y.index = F.ints y.index := by
  intro y hy
  have hne : y.index ≠ x.index := fun heq => hnew (heq ▸ List.mem_map_of_mem hy)
  exact ((h.of_tightenTerm hx hr).2.2 _ hne).trans (hsame y hy)

/-- Cutting a term that was not cut before is consistent if and only if the term keeps a value. -/
theorem exists_tightenTerm_iff (h : Legible terms s) (hx : x ∈ terms)
    (hsame : s.store.box.ints x.index = F.ints x.index)
    (hcarried : Carried F terms total x (x.edge F .lower) (x.edge F .upper)) :
    (∃ changed s', tightenTerm total (IntVar.edges F .lower terms) (IntVar.edges F .upper terms) x
      s = .ok (.ok changed, s')) ↔ Kept F terms total x := by
  have hedge := edge_congr hsame
  rw [← hedge .lower, ← hedge .upper] at hcarried
  unfold Kept
  simp only [← hedge, ← hsame]
  constructor
  · rintro ⟨changed, s', hr⟩
    obtain ⟨event, event', s₁, hset, hset'⟩ := cuts_of_tightenTerm h hx hr
    obtain ⟨h₁, -, hcut⟩ := h.of_restrict hx hset
    obtain ⟨h', -, hcut'⟩ := h₁.of_restrict hx hset'
    have hmem := (h'.ready.sound.box.canonical x.index).min_mem
    obtain ⟨hmem, hle'⟩ := (IntVar.mem_of_narrowedTo h₁.ready.sound hcut' (h₁.exist x hx) _).1 hmem
    obtain ⟨hmem, hle⟩ := (IntVar.mem_of_narrowedTo h.ready.sound hcut (h.exist x hx) _).1 hmem
    exact ⟨_, hmem, hle', hle⟩
  · rintro ⟨u, hu, hle', hle⟩
    obtain ⟨event, s₁, hset⟩ := exists_restrict_of_mem h.ready (h.exist x hx)
      ((IntVar.exists_pull_iff .upper).2 hcarried.1) hu hle
    obtain ⟨h₁, -, hcut⟩ := h.of_restrict hx hset
    have hu₁ := (IntVar.mem_of_narrowedTo h.ready.sound hcut (h.exist x hx) u).2 ⟨hu, hle⟩
    obtain ⟨event', s', hset'⟩ := exists_restrict_of_mem h₁.ready (h₁.exist x hx)
      ((IntVar.exists_pull_iff .lower).2 hcarried.2) hu₁ hle'
    refine ⟨event.isModified || event'.isModified, s', ?_⟩
    rw [tightenTerm_eq, bind_of_ok (reading_of_ok (h.read hx .lower)),
      bind_of_ok (reading_of_ok (h.read hx .upper))]
    exact (bind_of_ok hset).trans (bind_of_ok hset')

/-- One pass over some terms, with the sums of the bounds in the box. -/
def pass (F : Box) (terms : List IntVar) (total : Int) (xs : List IntVar) (before : Bool) :
    Propagation Bool :=
  xs.foldlM (fun changed x => return changed || (← tightenTerm total
    (IntVar.edges F .lower terms) (IntVar.edges F .upper terms) x)) before

theorem pass_cons (F : Box) (terms : List IntVar) (total : Int) (x : IntVar) (xs : List IntVar)
    (before : Bool) : pass F terms total (x :: xs) before = (do
      let changed ← tightenTerm total (IntVar.edges F .lower terms) (IntVar.edges F .upper terms) x
      pass F terms total xs (before || changed)) := by
  unfold pass
  rw [List.foldlM_cons, bind_assoc]
  simp only [pure_bind]

theorem finishes_tighten_iff_pass (h : Legible terms s) :
    (tighten terms total).Finishes s ↔ (IntVar.edges s.store.box .lower terms ≤ total →
      total ≤ IntVar.edges s.store.box .upper terms →
      (pass s.store.box terms total terms false).Finishes s) := by
  have hsums : sums s.store terms = .ok _ :=
    sums_of_readable fun x hx => ⟨h.readable x hx, h.exist x hx⟩
  unfold tighten
  rw [finishes_reading_bind_of_ok hsums]
  dsimp only
  split
  · rename_i hconflict
    exact iff_of_true (finishes_bind_iff.2 ⟨finishes_throw _ _, fun _ _ hr => by cases hr⟩)
      fun hlowers huppers => by omega
  · rename_i hconflict
    rw [forall_prop_of_true (by omega), forall_prop_of_true (by omega)]
    exact Iff.rfl

/-- A pass over terms with distinct store variables, which have the domains of the box, finishes if
and only if it is not blocked. -/
theorem finishes_pass_iff (h : Legible terms s)
    (hlowers : IntVar.edges F .lower terms ≤ total)
    (hxs : ∀ x ∈ xs, x ∈ terms) (hdistinct : (xs.map IntVar.index).Nodup)
    (hsame : ∀ x ∈ xs, s.store.box.ints x.index = F.ints x.index) (before : Bool) :
    (pass F terms total xs before).Finishes s ↔ ¬Blocked F terms total xs := by
  induction xs generalizing s before with
  | nil => exact iff_of_true (finishes_pure _ _) (not_blocked (by simp))
  | cons x xs ih =>
    have hx := hxs x (by simp)
    obtain ⟨hnew, hdistinct⟩ := List.nodup_cons.1 hdistinct
    have hedge := edge_congr (hsame x (by simp))
    have hrest {changed : Bool} {s₁ : State} (hr : tightenTerm total (IntVar.edges F .lower terms)
        (IntVar.edges F .upper terms) x s = .ok (.ok changed, s₁)) :
        (pass F terms total xs (before || changed)).Finishes s₁ ↔ ¬Blocked F terms total xs := by
      exact ih (h.of_tightenTerm hx hr).1 (fun y hy => hxs y (by simp [hy])) hdistinct
        (h.same_of_tightenTerm hx hr hnew fun y hy => hsame y (by simp [hy])) _
    rw [pass_cons, finishes_bind_iff, finishes_tightenTerm_iff h hx hlowers, hedge, hedge,
      blocked_cons_iff, not_or, not_not, not_and]
    refine and_congr_right fun hcarried => ?_
    rw [← exists_tightenTerm_iff h hx (hsame x (by simp)) hcarried]
    constructor
    · rintro hall ⟨changed, s₁, hr⟩
      exact (hrest hr).1 (hall changed s₁ hr)
    · exact fun hnot changed s₁ hr => (hrest hr).2 (hnot ⟨changed, s₁, hr⟩)

/-- If such a pass is consistent, the bounds that it set could be carried back. -/
theorem carried_of_pass (h : Legible terms s) (hlowers : IntVar.edges F .lower terms ≤ total)
    (hxs : ∀ x ∈ xs, x ∈ terms) (hdistinct : (xs.map IntVar.index).Nodup)
    (hsame : ∀ x ∈ xs, s.store.box.ints x.index = F.ints x.index) {before after : Bool}
    (hr : pass F terms total xs before s = .ok (.ok after, s')) :
    ∀ x ∈ xs, Carried F terms total x (x.edge F .lower) (x.edge F .upper) := by
  induction xs generalizing s before with
  | nil => simp
  | cons x xs ih =>
    have hx := hxs x (by simp)
    obtain ⟨hnew, hdistinct⟩ := List.nodup_cons.1 hdistinct
    have hedge := edge_congr (hsame x (by simp))
    rw [pass_cons] at hr
    obtain ⟨changed, s₁, hfirst, hr⟩ := exists_of_bind hr
    have hcarried := (finishes_tightenTerm_iff h hx hlowers).1 ⟨_, hfirst⟩
    rw [hedge, hedge] at hcarried
    refine List.forall_mem_cons.2 ⟨hcarried, ?_⟩
    exact ih (h.of_tightenTerm hx hfirst).1 (fun y hy => hxs y (by simp [hy])) hdistinct
      (h.same_of_tightenTerm hx hfirst hnew fun y hy => hsame y (by simp [hy])) hr

/-! ### Passes over any variables -/

/-- Bounds that are set between those of the term and bounds that can be carried back. -/
theorem Carried.narrow {l u l' u' : Int} (h : Legible terms s) (hx : x ∈ terms)
    (hc : Carried F terms total x l u)
    (hl : share G terms total .lower l' ≤ share F terms total .lower l)
    (hu : share F terms total .upper u ≤ share G terms total .upper u')
    (hl' : x.edge s.store.box .lower ≤ share G terms total .lower l')
    (hu' : share G terms total .upper u' ≤ x.edge s.store.box .upper) :
    Carried G terms total x l' u' :=
  ⟨h.carries_of_le hx hc.1 hl' hl, h.carries_of_ge hx hc.2 hu hu'⟩

theorem finishes_pass (h : Legible terms s) (hlowers : IntVar.edges F .lower terms ≤ total)
    (huppers : total ≤ IntVar.edges F .upper terms) (hxs : ∀ x ∈ xs, x ∈ terms)
    (hcarried : ∀ x ∈ xs, Carried F terms total x (x.edge s.store.box .upper)
      (x.edge s.store.box .lower)) (before : Bool) :
    (pass F terms total xs before).Finishes s := by
  induction xs generalizing s before with
  | nil => exact finishes_pure _ _
  | cons x xs ih =>
    have hx := hxs x (by simp)
    have hle := h.lower_le_upper x
    rw [pass_cons]
    refine finishes_bind_iff.2 ⟨?_, fun changed s₁ hr => ?_⟩
    · refine (finishes_tightenTerm_iff h hx hlowers).2 ?_
      refine (hcarried x (by simp)).narrow h hx ?_ ?_ ?_ ?_
      · exact share_mono .lower hle
      · exact share_mono .upper hle
      · exact le_share (h.fits hx .lower) hlowers
      · exact share_le (h.fits hx .upper) huppers
    · obtain ⟨h₁, ha, -⟩ := h.of_tightenTerm hx hr
      refine ih h₁ (fun y hy => hxs y (by simp [hy])) (fun y hy => ?_) _
      have hy' := hxs y (by simp [hy])
      obtain ⟨hlower, hupper⟩ := h.edges_mono h₁ ha.store hy'
      have hle₁ := h₁.lower_le_upper y
      refine (hcarried y (by simp [hy])).narrow h₁ hy' (share_mono .lower hupper)
        (share_mono .upper hlower) ?_ ?_
      · exact hle₁.trans (le_share (h₁.fits hy' .upper) hlowers)
      · exact (share_le (h₁.fits hy' .lower) huppers).trans hle₁

/-! ### The loop -/

/-- The total lies between the sums of the bounds. -/
def Between (F : Box) (terms : List IntVar) (total : Int) : Prop :=
  IntVar.edges F .lower terms ≤ total ∧ total ≤ IntVar.edges F .upper terms

/-- If the total lies between the sums, the bounds that are set on the terms can be carried back: on
the lower side those that a pass sets on terms which were not cut before, on the upper side the
widest ones that it could set. -/
def Tractable (F : Box) (terms : List IntVar) (total : Int) (side : Side) : Prop :=
  Between F terms total → ∀ x ∈ terms, Carried F terms total x (x.edge F side) (x.edge F side.flip)

/-- In smaller domains the bounds that are set lie further inside. -/
theorem Tractable.of_narrows {side : Side} (ht : Tractable s.store.box terms total side)
    (h : Legible terms s) (h' : Legible terms s') (hn : s.store.Narrows s'.store) :
    Tractable s'.store.box terms total side := by
  intro hb x hx
  have hle := h'.lower_le_upper x
  have hlowers := IntVar.edges_le fun y hy => (h.edges_mono h' hn hy).1
  have huppers := IntVar.edges_le fun y hy => (h.edges_mono h' hn hy).2
  have hc := ht ⟨hlowers.trans hb.1, hb.2.trans huppers⟩ x hx
  cases side with
  | lower =>
    have hl := IntVar.edges_sub_le hx fun y hy => (h.edges_mono h' hn hy).1
    have hu := IntVar.edges_sub_le hx fun y hy => (h.edges_mono h' hn hy).2
    exact hc.narrow h' hx (clamp_mono (by omega)) (clamp_mono (by simp only [Side.flip]; omega))
      (le_share (h'.fits hx .lower) hb.1) (share_le (h'.fits hx .upper) hb.2)
  | upper =>
    obtain ⟨hl, hu⟩ := h.edges_mono h' hn hx
    exact hc.narrow h' hx (clamp_mono (by omega)) (clamp_mono (by simp only [Side.flip]; omega))
      (hle.trans (le_share (h'.fits hx .upper) hb.1))
      ((share_le (h'.fits hx .lower) hb.2).trans hle)

/-- The passes come to an end without a fault, if each of them finishes from bounds that can be
carried back. -/
theorem finishes_tightenAll {side : Side} (hfinishes : ∀ s, Legible terms s →
      Tractable s.store.box terms total side → (tighten terms total).Finishes s) {passes : Nat}
    (h : Legible terms s) (ht : Tractable s.store.box terms total side)
    (hpasses : values s.store terms < passes) : (tightenAll terms total passes).Finishes s := by
  induction passes generalizing s with
  | zero => omega
  | succ passes ih =>
    unfold tightenAll
    refine finishes_bind_iff.2 ⟨hfinishes s h ht, fun changed s' hr => ?_⟩
    obtain ⟨hstep, hvalues⟩ := Yields.of_ok (tighten_law (δ := True) h.ready
      fun x hx => ⟨h.exist x hx, .inr trivial⟩) hr
    have h' := h.of_advances hstep.advances
    cases changed with
    | true =>
      rw [if_pos rfl] at hvalues ⊢
      exact ih h' (ht.of_narrows h h' hstep.advances.store) (by omega)
    | false => exact finishes_pure _ _

/-- What follows the passes only reads the terms. -/
theorem finishes_runEqual_iff_tightenAll (h : Legible terms s) :
    (runEqual terms total).Finishes s ↔
      (tightenAll terms total (values s.store terms + 1)).Finishes s := by
  unfold runEqual
  show (tightenAll terms total (values s.store terms + 1) >>= _).Finishes s ↔ _
  refine finishes_bind_iff.trans (and_iff_left fun _ s' hr => ?_)
  obtain ⟨hstep, -⟩ := Yields.of_ok (tightenAll_law (δ := True) h.ready
    (fun x hx => ⟨h.exist x hx, .inr trivial⟩) (Nat.lt_succ_self _)) hr
  have h' := h.of_advances hstep.advances
  have hfixed : ∀ x ∈ terms, (reading x.isFixed : Propagation Bool) s' =
      .ok (.ok (x.fixedAt s'.store.box).isSome, s') := fun x hx =>
    reading_of_ok ((h'.readable x hx).isFixed (h'.exist x hx))
  exact finishes_return_iff.2 ⟨_, allM_of_read hfixed⟩

/-- A run finishes if the widest bounds that it could set can be carried back. -/
theorem finishes_runEqual (h : Legible terms s)
    (ht : Tractable s.store.box terms total .upper) : (runEqual terms total).Finishes s :=
  (finishes_runEqual_iff_tightenAll h).2 <| finishes_tightenAll (fun _ h ht =>
    (finishes_tighten_iff_pass h).2 fun hlowers huppers =>
      finishes_pass h hlowers huppers (fun _ hx => hx) (ht ⟨hlowers, huppers⟩) false)
    h ht (Nat.lt_succ_self _)

theorem pass_of_tighten (h : Legible terms s) {changed : Bool}
    (hr : tighten terms total s = .ok (.ok changed, s')) : Between s.store.box terms total ∧
      pass s.store.box terms total terms false s = .ok (.ok changed, s') := by
  unfold tighten at hr
  rw [bind_of_ok (reading_of_ok (sums_of_readable fun x hx => ⟨h.readable x hx, h.exist x hx⟩))]
    at hr
  dsimp only at hr
  split at hr
  · cases hr
  · rename_i hconflict
    exact ⟨⟨by omega, by omega⟩, hr⟩

theorem finishes_tighten_iff (h : Legible terms s) (hdistinct : (terms.map IntVar.index).Nodup) :
    (tighten terms total).Finishes s ↔
      (Between s.store.box terms total → ¬Blocked s.store.box terms total terms) := by
  have hpass (hlowers : IntVar.edges s.store.box .lower terms ≤ total) :=
    finishes_pass_iff h hlowers (fun _ hx => hx) hdistinct (fun _ _ => rfl) false
  rw [finishes_tighten_iff_pass h]
  exact ⟨fun hall hb => (hpass hb.1).1 (hall hb.1 hb.2),
    fun hall hl hu => (hpass hl).2 (hall ⟨hl, hu⟩)⟩

/-- A run over distinct store variables finishes if and only if its first pass does: what was
carried back there can be carried back in every pass that follows. -/
theorem finishes_runEqual_iff (h : Legible terms s)
    (hdistinct : (terms.map IntVar.index).Nodup) :
    (runEqual terms total).Finishes s ↔
      (Between s.store.box terms total → ¬Blocked s.store.box terms total terms) := by
  rw [finishes_runEqual_iff_tightenAll h, tightenAll, finishes_bind_iff,
    finishes_tighten_iff h hdistinct]
  refine and_iff_left fun changed s' hr => ?_
  obtain ⟨hstep, hvalues⟩ := Yields.of_ok (tighten_law (δ := True) h.ready
    fun x hx => ⟨h.exist x hx, .inr trivial⟩) hr
  cases changed with
  | false => exact finishes_pure _ _
  | true =>
    rw [if_pos rfl] at hvalues ⊢
    have h' := h.of_advances hstep.advances
    have ht : Tractable s.store.box terms total .lower := fun hb =>
      carried_of_pass h hb.1 (fun _ hx => hx) hdistinct (fun _ _ => rfl) (pass_of_tighten h hr).2
    refine finishes_tightenAll (fun _ h ht => ?_) h' (ht.of_narrows h h' hstep.advances.store)
      hvalues
    exact (finishes_tighten_iff h hdistinct).2 fun hb => not_blocked (ht hb)

/-! ### Weighted variables -/

/-- The view of a store variable carries back, on either side, what lies between a value that it has
and the greatest value above its offset. -/
theorem Legible.carries_affine {i : Nat} {scale offset : Int} {side side' : Side}
    (h : Legible terms s) (hx : .affine (.root i) scale offset ∈ terms) (hscale : scale ≠ 0)
    (hle : (IntVar.affine (.root i) scale offset).edge s.store.box side' ≤ v)
    (hv : v - offset ≤ Word.greatest) : (IntVar.affine (.root i) scale offset).Carries side v := by
  obtain ⟨u, ⟨hu, hproduct, -⟩, heq⟩ : ∃ u, (IntVar.affine (.root i) scale offset).Computes u ∧
      scale * u + offset = (IntVar.affine (.root i) scale offset).edge s.store.box side' :=
    ⟨_, h.readable _ hx side', rfl⟩
  change Word.Fits u at hu
  change Word.Fits (scale * u) at hproduct
  refine IntVar.carries_affine_root.2 ⟨hscale, ⟨?_, hv⟩, fun hneg => ?_⟩
  · have := hproduct.1
    omega
  · -- The product is the negative of a word, and so it is not the least one.
    subst hneg
    have := hu.2
    unfold Word.least Word.greatest at *
    omega

/-- An inequation over views of store variables without negative offsets never overflows. -/
theorem finishes_runAtMost_of_nonneg (h : Legible terms s)
    (hviews : ∀ x ∈ terms, ∃ i scale offset, x = .affine (.root i) scale offset ∧ scale ≠ 0 ∧
      0 ≤ offset) : (runAtMost terms total).Finishes s := by
  refine finishes_runAtMost h fun hlowers x hx => ?_
  obtain ⟨i, scale, offset, rfl, hscale, hoffset⟩ := hviews x hx
  have hle : share s.store.box terms total .lower
      ((IntVar.affine (.root i) scale offset).edge s.store.box .upper) ≤ Word.greatest :=
    (Word.fits_clamp _).2
  exact h.carries_affine hx hscale (le_share (h.fits hx .upper) hlowers) (by omega)

/-- An equation over multiples of store variables never overflows, unless one is the negative of a
store variable. -/
theorem finishes_runEqual_of_multiples (h : Legible terms s)
    (hviews : ∀ x ∈ terms, ∃ i scale, x = .affine (.root i) scale 0 ∧ scale ≠ 0 ∧ scale ≠ -1) :
    (runEqual terms total).Finishes s := by
  refine finishes_runEqual h fun _ x hx => ?_
  obtain ⟨i, scale, rfl, hscale, hne⟩ := hviews x hx
  have hcarries (side side' : Side) (v : Int) : (IntVar.affine (.root i) scale 0).Carries side
      (share s.store.box terms total side' v) :=
    IntVar.carries_affine_root.2 ⟨hscale, by rw [Int.sub_zero]; exact Word.fits_clamp _,
      fun hneg => absurd hneg hne⟩
  exact ⟨hcarries _ _ _, hcarries _ _ _⟩

/-! ### Runs of the propagators -/

/-- What can be said beforehand of the runs of a linear constraint. -/
structure Forecast (s : State) (terms : List IntVar) (total : Int) : Prop where
  /-- Whatever is mentioned how often, the widest shares decide. -/
  atMost : (IntVar.edges s.store.box .lower terms ≤ total → ∀ x ∈ terms,
      x.Carries .upper (share s.store.box terms total .lower (x.edge s.store.box .upper))) →
    (Propagator.linearAtMost terms total).run.Finishes s
  equal : Tractable s.store.box terms total .upper →
    (Propagator.linearEqual terms total).run.Finishes s
  /-- Where no bound is moved that is read again, the shares decide exactly. -/
  atMost_iff : (Propagator.linearAtMost terms total).Oriented →
    ((Propagator.linearAtMost terms total).run.Finishes s ↔
      (IntVar.edges s.store.box .lower terms ≤ total → ∀ x ∈ terms,
        x.Carries .upper (share s.store.box terms total .lower (x.edge s.store.box .lower))))
  equal_iff : (terms.map IntVar.index).Nodup →
    ((Propagator.linearEqual terms total).run.Finishes s ↔
      (Between s.store.box terms total → ¬Blocked s.store.box terms total terms))
  /-- Nothing but an overflow goes wrong. -/
  overflow : (∀ x ∈ terms, x.Proper) →
    ∀ p ∈ [Propagator.linearAtMost terms total, .linearEqual terms total], ∀ fault,
      p.run s = .error fault → ∃ operation, fault = .overflow operation

/-- **Sums at the ends of the range.** Let the values of the terms of a linear constraint be 32-bit
integers, with those of the multiplications before the offsets are added. A run finishes with an
answer or an inconsistency unless the share of a term cannot be carried back through its view, and
then the fault is an overflow. -/
theorem forecast (hs : s.Ready) (hexist : ∀ x ∈ terms, x.index < s.store.ints.size)
    (hread : ∀ x ∈ terms, x.Readable s.store) (total : Int) : Forecast s terms total := by
  have h : Legible terms s := ⟨hs, hexist, hread⟩
  refine ⟨fun hcarries => ?_, fun hcarried => ?_, fun horiented => ?_, fun hdistinct => ?_,
    fun hproper p hp fault hr => ?_⟩
  · exact finishes_return_iff.2 (finishes_runAtMost h hcarries)
  · exact finishes_return_iff.2 (finishes_runEqual h hcarried)
  · exact finishes_return_iff.trans (finishes_runAtMost_iff h horiented)
  · exact finishes_return_iff.trans (finishes_runEqual_iff h hdistinct)
  · refine Propagator.overflow_of_run hs ?_ hr
    have hw : ∀ x ∈ terms, x.Admissible False s.store := fun x hx =>
      ⟨hexist x hx, .inl (hproper x hx)⟩
    simp only [List.mem_cons, List.not_mem_nil, or_false] at hp
    rcases hp with rfl | rfl <;> exact hw

/-- A multiple of one variable and two others, which may be as large as the greatest value. -/
def greatSum (scale : Int) : List IntVar :=
  [.affine (.root 0) scale 0, .affine (.root 1) 1 0, .affine (.root 2) 1 0]

/-- Variables for the sum. -/
def greatVariables : List Space.Operation :=
  [.newInt 0 1, .newInt 0 Word.greatest, .newInt 0 Word.greatest]

instance (F : Box) (terms : List IntVar) (total : Int) (x : IntVar) (l u : Int) :
    Decidable (Carried F terms total x l u) :=
  inferInstanceAs (Decidable (_ ∧ _))

/-- The sums of the bounds of `-2 x + y + z` are far from the range of values, and yet the equation
`-2 x + y + z = 0` is run without a fault. -/
theorem forecast_greatSum :
    ∃ s : Space, s.Reachable (fun _ _ => True) ∧
      (s.state.Ready ∧ (∀ x ∈ greatSum (-2), x.index < s.state.store.ints.size) ∧
        ∀ x ∈ greatSum (-2), x.Readable s.state.store) ∧
      Forecast s.state (greatSum (-2)) 0 ∧
      (Propagator.linearEqual (greatSum (-2)) 0).run.Finishes s.state := by
  have hrun : ((Space.ofPolicy .costOrdered).performAll? (fun _ _ => true) greatVariables).any
      (fun s => decide (s.isFailed = false ∧
        (∀ x ∈ greatSum (-2), x.index < s.state.store.ints.size) ∧
        (∀ x ∈ greatSum (-2), x.Readable s.state.store) ∧
        ∀ x ∈ greatSum (-2), Carried s.state.store.box (greatSum (-2)) 0 x
          (x.edge s.state.store.box .upper) (x.edge s.state.store.box .lower))) = true := by
    decide +kernel
  obtain ⟨s, hs, hrun⟩ := (Option.any_eq_true ..).1 hrun
  obtain ⟨halive, hexist, hread, hcarried⟩ := of_decide_eq_true hrun
  have hreachable : s.Reachable fun _ _ => True :=
    (Space.Reachable.empty .costOrdered).performAll? (fun _ _ _ => trivial) hs
  have hready : s.state.Ready := ⟨halive, hreachable.in_order.1⟩
  have hforecast := forecast hready hexist hread 0
  exact ⟨s, hreachable, ⟨hready, hexist, hread⟩, hforecast, hforecast.equal fun _ => hcarried⟩

/-- In `-x + y + z = 0` the lower bound of `-x` is cut to the least value, which has no negative. In
`x - 1 ≤ 2147483647` the upper bound of `x - 1` is cut to the greatest value, which has no
successor. -/
theorem exists_overflow_of_run :
    ∃ s : Space, s.Reachable (fun _ _ => True) ∧ s.isFailed = false ∧
      (∀ x ∈ .affine (.root 0) 1 (-1) :: greatSum (-1),
        x.index < s.state.store.ints.size ∧ x.Proper ∧ x.Readable s.state.store) ∧
      (Propagator.linearEqual (greatSum (-1)) 0).run s.state = .error (.overflow .divide) ∧
      (Propagator.linearAtMost [.affine (.root 0) 1 (-1)] Word.greatest).run s.state =
        .error (.overflow .subtract) := by
  have hrun : ((Space.ofPolicy .costOrdered).performAll? (fun _ _ => true) greatVariables).any
      (fun s => decide (s.isFailed = false ∧ (∀ x ∈ .affine (.root 0) 1 (-1) :: greatSum (-1),
          x.index < s.state.store.ints.size ∧ x.Proper ∧ x.Readable s.state.store) ∧
        Space.fault? ((Propagator.linearEqual (greatSum (-1)) 0).run s.state) =
          some (.overflow .divide) ∧
        Space.fault? ((Propagator.linearAtMost [.affine (.root 0) 1 (-1)] Word.greatest).run
          s.state) = some (.overflow .subtract))) = true := by
    decide +kernel
  obtain ⟨s, hs, hrun⟩ := (Option.any_eq_true ..).1 hrun
  obtain ⟨halive, hterms, hequal, hatMost⟩ := of_decide_eq_true hrun
  have hreachable : s.Reachable fun _ _ => True :=
    (Space.Reachable.empty .costOrdered).performAll? (fun _ _ _ => trivial) hs
  exact ⟨s, hreachable, halive, hterms, Space.error_of_fault? hequal,
    Space.error_of_fault? hatMost⟩

end Linear

end ConstraintSearch
