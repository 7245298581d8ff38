import ConstraintSearch.Proofs.Confluence
import ConstraintSearch.Proofs.Search.Idling
import ConstraintSearch.Proofs.Search.Steadiness
import Mathlib.Order.CompletePartialOrder

/-!
# Restarts make progress

Each restart posts what was explored, so that no run explores the same nodes again: the domains that
the no-goods of the master permit become fewer. The assignments that they permit need not, since
no-goods are checked level by level, and a run may take the same decisions in another order. When a
run is interrupted after its last node, there is nothing to post, and the next run is the same.

* `Store.finite_narrows`: there are finitely many narrower domains;
* `Space.permitted`, `Space.permittedAssignments`: what the no-goods of a space permit;
* `Explorer.Searches.exists_not_permits`: a node that was explored is excluded;
* `Restarts.Renews`, `Restarts.Runs.begin_renews`: what a restart permits;
* `Restarts.Lasts.step_law`: a bound for the number of steps to an outcome;
* `Built.restarts_progress`: restarts make progress, and calls return;
* `Built.exists_restart_idle`: restarts that make none.
-/

namespace ConstraintSearch

variable {δ ε : Prop} {t : Tree} {s s' : Space} {posted : List Propagator} {chain : List Brancher}

/-! ### Narrower domains -/

theorem IntDomain.finite_le (d : IntDomain) : {e : IntDomain | e.Canonical ∧ e ≤ d}.Finite := by
  refine Set.Finite.of_injOn (f := fun e => e.values.toFinset) (fun e he => ?_) (fun e he e' he' heq
    => ?_) (Finset.finite_toSet d.values.toFinset.powerset)
  · rw [Finset.mem_coe, Finset.mem_powerset]
    intro v hv
    rw [List.mem_toFinset, mem_values] at hv ⊢
    exact he.2 v hv
  · refine he.1.ext he'.1 fun v => ?_
    rw [← mem_values, ← mem_values, ← List.mem_toFinset, ← List.mem_toFinset]
    exact Finset.ext_iff.1 heq v

theorem SetDomain.finite_le (d : SetDomain) : {e : SetDomain | e.Normal ∧ e ≤ d}.Finite := by
  have hlists := Finset.finite_toSet d.possible.toFinset.powerset
  have hbounds := (Finset.range (d.cardMax + 1)).finite_toSet
  refine Set.Finite.of_injOn (f := fun e =>
    ((e.required.toFinset, e.possible.toFinset), e.cardMin, e.cardMax)) (fun e he => ?_)
    (fun e he e' he' heq => ?_) ((hlists.prod hlists).prod (hbounds.prod hbounds))
  · obtain ⟨he, -, hpossible, -, hmax⟩ := he
    have hmin := he.card_le
    simp only [Set.mem_prod, Finset.mem_coe, Finset.mem_powerset, Finset.mem_range]
    refine ⟨⟨fun v hv => ?_, fun v hv => ?_⟩, by omega, by omega⟩
    · rw [List.mem_toFinset] at hv ⊢
      exact hpossible (he.required_subset hv)
    · rw [List.mem_toFinset] at hv ⊢
      exact hpossible hv
  · simp only [Prod.mk.injEq] at heq
    obtain ⟨⟨hrequired, hpossible⟩, hmin, hmax⟩ := heq
    have subset {l l' : List Int} (h : l.toFinset = l'.toFinset) : l ⊆ l' := fun v hv =>
      List.mem_toFinset.1 (h ▸ List.mem_toFinset.2 hv)
    exact SetDomain.le_antisymm he.1 he'.1
      ⟨subset hrequired.symm, subset hpossible, hmin.ge, hmax.le⟩
      ⟨subset hrequired, subset hpossible.symm, hmin.le, hmax.ge⟩

/-- There are finitely many narrower domains. -/
theorem Store.finite_narrows (s : Store) : {T : Store | T.Sound ∧ s.Narrows T}.Finite := by
  have hints (i : Fin s.ints.size) := IntDomain.finite_le (s.box.ints i)
  have hsets (i : Fin s.sets.size) := SetDomain.finite_le (s.box.sets i)
  refine Set.Finite.of_injOn (f := fun T : Store =>
    (fun i : Fin s.ints.size => T.box.ints i, fun i : Fin s.sets.size => T.box.sets i)) ?_ ?_
    ((Set.Finite.pi' hints).prod (Set.Finite.pi' hsets))
  · rintro T ⟨hT, hnarrows⟩
    exact ⟨fun i => ⟨hT.box.canonical i, hnarrows.within.ints i i.2⟩,
      fun i => ⟨hT.box.normal i, hnarrows.within.sets i i.2⟩⟩
  · rintro T ⟨hT, hnarrows⟩ T' ⟨hT', hnarrows'⟩ heq
    obtain ⟨heqInts, heqSets⟩ := Prod.mk.inj heq
    have hsizeInts := hnarrows.size_ints.trans hnarrows'.size_ints.symm
    have hsizeSets := hnarrows.size_sets.trans hnarrows'.size_sets.symm
    have eq_int {i : Nat} (hi : i < s.ints.size) : T.box.ints i = T'.box.ints i :=
      congrFun heqInts ⟨i, hi⟩
    have eq_set {i : Nat} (hi : i < s.sets.size) : T.box.sets i = T'.box.sets i :=
      congrFun heqSets ⟨i, hi⟩
    refine Store.eq_of_within hT hT' hsizeInts hsizeSets
      (hnarrows.floats.trans hnarrows'.floats.symm) ⟨fun i hi => ?_, fun i hi => ?_⟩
      ⟨fun i hi => ?_, fun i hi => ?_⟩
    · rw [eq_int (hnarrows'.size_ints ▸ hi)]
      exact IntDomain.le_refl _
    · rw [eq_set (hnarrows'.size_sets ▸ hi)]
      exact SetDomain.le_refl _
    · rw [eq_int (hnarrows.size_ints ▸ hi)]
      exact IntDomain.le_refl _
    · rw [eq_set (hnarrows.size_sets ▸ hi)]
      exact SetDomain.le_refl _

/-! ### Permitted domains -/

/-- The levels of no-goods. -/
def Propagator.levels? : Propagator → Option (List NoGoodLevel)
  | .noGoods levels _ => some levels
  | _ => none

theorem Propagator.exists_of_levels? {p : Propagator} {levels : List NoGoodLevel}
    (h : p.levels? = some levels) : ∃ start, p = .noGoods levels start := by
  cases p with
  | noGoods levels' start =>
    cases h
    exact ⟨start, rfl⟩
  | _ => cases h

namespace Space

/-- The levels of the no-goods of the space. -/
def exclusions (s : Space) : List (List NoGoodLevel) :=
  s.propagators.toList.filterMap fun slot => slot.bind Propagator.levels?

theorem mem_exclusions_iff {levels : List NoGoodLevel} :
    levels ∈ s.exclusions ↔ ∃ n start, s.propagator? n = some (.noGoods levels start) := by
  unfold exclusions
  rw [List.mem_filterMap]
  constructor
  · rintro ⟨slot, hslot, hlevels⟩
    obtain ⟨p, rfl, hp⟩ := Option.bind_eq_some_iff.1 hlevels
    obtain ⟨start, rfl⟩ := Propagator.exists_of_levels? hp
    obtain ⟨n, hn⟩ := List.getElem?_of_mem hslot
    refine ⟨n, start, ?_⟩
    rw [Table.toList, Array.getElem?_toList] at hn
    exact congrArg Option.join hn
  · rintro ⟨n, start, hslot⟩
    have hget : s.propagators.rows[n]? = some (some (.noGoods levels start)) :=
      Option.join_eq_some_iff.1 hslot
    exact ⟨some (.noGoods levels start), Array.mem_toList_iff.2 (Array.mem_of_getElem? hget), rfl⟩

/-- The narrower domains that the no-goods of the space permit: none of them would fail there, or
have anything to exclude. -/
def permitted (s : Space) : Set Store :=
  {T | T.Sound ∧ s.store.Narrows T ∧ ∀ levels ∈ s.exclusions, NoGoods.Permits levels T.box}

/-- The assignments that the no-goods of the space permit. -/
def permittedAssignments (s : Space) : Set Assignment :=
  {a | a.Within s.store ∧ ∀ levels ∈ s.exclusions, NoGoods.Permits levels a.box}

theorem finite_permitted (s : Space) : s.permitted.Finite :=
  s.store.finite_narrows.subset fun _ hT => ⟨hT.1, hT.2.1⟩

/-- The slots permit what was posted. -/
theorem Tracks.mem_permitted_iff (h : s.Tracks δ posted none) {T : Store} :
    T ∈ s.permitted ↔ T.Sound ∧ s.store.Narrows T ∧ ∀ levels start,
      .noGoods levels start ∈ posted → NoGoods.Permits levels T.box := by
  refine and_congr_right fun hT => and_congr_right fun hnarrows => ⟨fun hall levels start hq => ?_,
    fun hall levels hlevels => ?_⟩
  · obtain ⟨n, hn⟩ := List.getElem?_of_mem hq
    cases hslot : s.propagator? n with
    | none =>
      have haccounts := h.accounts n _ hn
      rw [hslot] at haccounts
      exact haccounts T.box hT.box hnarrows.within
    | some p =>
      have hupholds := h.upholds hn hslot
      refine (hupholds.agrees T.box hT.box hnarrows.within).2 ?_
      rcases hupholds.origin with hcontinues | ⟨-, hless⟩
      · cases hcontinues with
        | same => exact hall _ (mem_exclusions_iff.2 ⟨n, _, hslot⟩)
        | settled levels start start' => exact hall _ (mem_exclusions_iff.2 ⟨n, _, hslot⟩)
      · exact absurd hless (Nat.not_lt_zero _)
  · obtain ⟨n, start, hslot⟩ := mem_exclusions_iff.1 hlevels
    obtain ⟨q, hq⟩ := h.exists_posted hslot
    have hupholds := h.upholds hq hslot
    rcases hupholds.origin with hcontinues | ⟨⟨a, b, offset, heq⟩, -⟩
    · cases hcontinues with
      | same => exact hall _ _ (List.mem_of_getElem? hq)
      | settled levels start start' => exact hall _ _ (List.mem_of_getElem? hq)
    · cases heq

/-- To narrow domains, and to post more, permits no other domains. -/
theorem Tracks.permitted_subset {posted' : List Propagator} (h : s.Tracks δ posted none)
    (h' : s'.Tracks δ posted' none) (hnarrows : s.store.Narrows s'.store)
    (hposted : posted ⊆ posted') : s'.permitted ⊆ s.permitted := by
  intro T hT
  obtain ⟨hsound, hwithin, hall⟩ := h'.mem_permitted_iff.1 hT
  exact h.mem_permitted_iff.2 ⟨hsound, hnarrows.trans hwithin, fun levels start hq =>
    hall levels start (hposted hq)⟩

end Space

namespace NoGoods

theorem subset_extend (n : NoGoods) (posted : List Propagator) : posted ⊆ n.extend posted := by
  unfold extend
  cases n.levels with
  | nil => exact List.Subset.refl _
  | cons level levels => exact List.subset_append_left _ _

/-- What was posted is among what permits the domains. -/
theorem permits_of_extend {n : NoGoods} {F : Box}
    (h : ∀ levels start, .noGoods levels start ∈ n.extend posted → Permits levels F) :
    Permits n.levels F := by
  unfold extend at h
  cases hlevels : n.levels with
  | nil => trivial
  | cons level levels =>
    rw [hlevels] at h
    exact h _ 0 (List.mem_append_right _ (List.mem_singleton.2 rfl))

end NoGoods

/-! ### The nodes of a tree -/

/-- A bound for the number of nodes of a tree of the domains. -/
noncomputable def Store.nodeBound (s : Store) : Nat :=
  (Word.count 32 + 1) ^ {a : Assignment | a.Within s}.ncard

theorem Store.Narrows.nodeBound_le {S T : Store} (h : S.Narrows T) (hS : S.Sound) :
    T.nodeBound ≤ S.nodeBound :=
  Nat.pow_le_pow_right (Nat.succ_pos _)
    (Set.ncard_le_ncard (fun _ ha => ha.of_narrows h) (Store.finite_assignments hS))

theorem Frontier.Opens.bound_le {F : Frontier} (h : F.Opens δ t) (hroot : t.root.Sound) :
    F.bound t ≤ t.root.nodeBound := by
  have hwhole : t.nodeBound t.whole ≤ t.root.nodeBound :=
    Nat.pow_le_pow_right (Nat.succ_pos _)
      (Set.ncard_le_ncard (fun _ ha => ha.1) (Store.finite_assignments hroot))
  cases h with
  | whole => simpa [Frontier.bound] using hwhole
  | failed => exact Nat.zero_le _

/-! ### What a run explored -/

section Runs

variable {since : Nat} {F : Frontier} {statistics : Statistics}

/-- The domains of a node with an explored alternative are excluded. They were permitted before. -/
theorem Explorer.Searches.exists_not_permits {best : Option Space} {mark : Nat} {e : Explorer}
    (h : e.Searches δ t best mark since F) (hfails : since < e.statistics.fails)
    (hdepth : e.statistics.depth ≤ e.exploration.noGoodsLimit) (hnode : e.HasNode) :
    ∃ Q T, t.Settles Q T ∧ ¬NoGoods.Permits e.path.noGoods.levels T.box := by
  have hkeeps := h.explores.keeps
  rcases h.logs with hlimit | hle | rfl | ⟨f, hf, hpos⟩
  · omega
  · omega
  · -- Nothing is left to explore.
    rcases hnode with hcurrent | hpath
    · obtain ⟨s, hs⟩ := Option.isSome_iff_exists.1 hcurrent
      obtain ⟨Q, hahead, -⟩ := h.explores.current s hs
      cases hahead
    · unfold Path.isEmpty at hpath
      rw [hkeeps.carries.edges] at hpath
      cases hpath
  · obtain ⟨T, hsettles, hnot⟩ :=
      hkeeps.valid.exists_not_permits (hkeeps.linked _ rfl) hkeeps.carries
        (hkeeps.depth.trans hdepth) hf hpos
    exact ⟨f.region, T, hsettles, hnot⟩

namespace CompleteSearch

variable {σ : Type} {search : CompleteSearch σ}

/-- All edges of the path are recorded as no-goods, and a node is left to explore. -/
def Records (search : CompleteSearch σ) : Prop :=
  ∃ e ∈ search.explorer?, e.statistics.depth ≤ e.exploration.noGoodsLimit ∧ e.HasNode

instance (search : CompleteSearch σ) : Decidable search.Records :=
  decidable_of_iff (search.explorer?.any fun e =>
    decide (e.statistics.depth ≤ e.exploration.noGoodsLimit ∧ e.HasNode)) (by
      rw [Option.any_eq_true]
      simp only [decide_eq_true_eq]
      rfl)

theorem Seeks.exists_not_permits (h : search.Seeks δ t since F)
    (hstatistics : search.statistics = .ok statistics) (hfails : since < statistics.fails)
    (hrecords : search.Records) :
    ∃ Q T, t.Settles Q T ∧ ¬NoGoods.Permits search.noGoods.1.levels T.box := by
  obtain ⟨e, he, hdepth, hnode⟩ := hrecords
  cases search with
  | depthFirst d =>
    cases he
    cases hstatistics
    exact Explorer.Searches.exists_not_permits (e := d.explorer) h hfails hdepth hnode
  | branchAndBound b =>
    cases he
    cases hstatistics
    exact Explorer.Searches.exists_not_permits (e := b.explorer) h hfails hdepth hnode
  | parallel p => cases he

end CompleteSearch

/-! ### Restarts -/

namespace Restarts

variable {σ ρ : Type} [CutoffSequence ρ] {P : σ → Prop} {P' : σ → Statistics → Prop}
  {r r' r₀ : Restarts σ ρ}

/-- The search `r` has begun again as `r'`. Its no-goods permit no other domains, and fewer if what
is posted excludes a node of the run before. The next run explores a tree of these domains. -/
structure Renews (δ ε : Prop) (P : σ → Prop) (t : Tree) (r r' : Restarts σ ρ) : Prop where
  restart : r'.restart = false
  alive : r.master.isFailed = false
  subset : r'.master.permitted ⊆ r.master.permitted
  ssubset : (∃ Q T, t.Settles Q T ∧ t.root = r.master.store ∧
    ¬NoGoods.Permits r.inner.noGoods.1.levels T.box) → r'.master.permitted ⊂ r.master.permitted
  bounded : r'.master.store.nodeBound ≤ r.master.store.nodeBound
  exists_runs : ∃ t' since' G,
    G.bound t' ≤ r.master.store.nodeBound ∧ r'.Runs δ ε P t' since' G

theorem Runs.begin_renews (h : r.Runs δ ε P t since F) (hrestart : r.restart = true) :
    Journaled.Yields δ r.begin fun b => (b.1 = none → Renews δ ε P t r b.2) ∧
      ∀ outcome ∈ b.1, outcome = .exhausted ∧ b.2.master.isFailed = true := by
  refine (begin_law h hrestart).mono ?_
  rintro ⟨outcome, r'⟩ ⟨hrestart', hbegun⟩
  rcases outcome with _ | s | _ | _
  · obtain ⟨t', since', G, hopens, hposted, halive, hnarrows, hroot, hroots', -, -, hruns⟩ := hbegun
    rcases h.master (.inl hrestart) with ⟨hfailed, -, -⟩ | ⟨hroots, -, -, -⟩
    · exact absurd (hfailed.symm.trans halive) (by decide)
    have hstore := hroots.tracks.ready.sound
    have hbound := hopens.bound_le hruns.seeks.regular.root
    have hless := hnarrows.nodeBound_le hstore
    rw [hroot] at hbound hnarrows hless
    rw [hposted] at hroots'
    have hsubset := hroots.tracks.permitted_subset hroots'.tracks hnarrows
      (r.inner.noGoods.1.subset_extend t.posted)
    refine ⟨fun _ => ⟨hrestart', halive, hsubset, ?_, hless, t', since', G, hbound.trans hless,
      hruns⟩,
      fun outcome houtcome => by cases houtcome⟩
    rintro ⟨Q, T, hsettles, heq, hnot⟩
    refine (Set.ssubset_iff_of_subset hsubset).2 ⟨T, ?_, fun hT => hnot ?_⟩
    · -- The older no-goods are stable in the domains of a node.
      exact hroots.tracks.mem_permitted_iff.2 ⟨hsettles.sound, heq ▸ hsettles.narrows,
        fun levels start hq => hsettles.stable _ hq (fun _ _ heq => by cases heq) trivial⟩
    · exact NoGoods.permits_of_extend (hroots'.tracks.mem_permitted_iff.1 hT).2.2
  · exact hbegun.elim
  · refine ⟨fun hnone => (by cases hnone), fun outcome houtcome => ?_⟩
    cases houtcome
    exact ⟨rfl, hbegun.2.1⟩
  · exact hbegun.elim

variable [StopCondition σ]

/-- The search makes a step without an outcome. -/
def Steps (r r' : Restarts σ ρ) : Prop := r.step.Returns (none, r')

/-- A step interrupts the run, since the limit of failures is reached. -/
structure Interrupts (r r' : Restarts σ ρ) : Prop where
  running : r.restart = false
  steps : r.Steps r'
  restart : r'.restart = true

/-- The invariant is kept, whatever a step does. -/
theorem Runs.step_law (hpolls : Polls δ P P')
    (hback : ∀ stop statistics, P' stop statistics → P stop) (h : r.Runs δ ε P t since F) :
    Journaled.Yields δ r.step fun p => ∃ t since F, p.2.Runs δ ε P t since F := by
  cases hrestart : r.restart with
  | true =>
    rw [show r.step = r.begin from if_pos hrestart]
    refine (begin_law h hrestart).mono ?_
    rintro ⟨outcome, r'⟩ ⟨-, hbegun⟩
    rcases outcome with _ | s | _ | _
    · obtain ⟨t', since', G, -, -, -, -, -, -, -, -, hruns⟩ := hbegun
      exact ⟨t', since', G, hruns⟩
    · exact hbegun.elim
    · exact ⟨t, since, F, hbegun.2.2⟩
    · exact hbegun.elim
  | false =>
    refine (step_inner_law hpolls hback h hrestart).mono ?_
    rintro ⟨outcome, r'⟩ hadvanced
    rcases outcome with _ | s | _ | _
    · rcases hadvanced.2 with ⟨-, G, -, hruns⟩ | ⟨-, hruns, -⟩
      · exact ⟨t, since, G, hruns⟩
      · exact ⟨t, since, F, hruns⟩
    · obtain ⟨-, t', G, -, hruns, -⟩ := hadvanced
      exact ⟨t', since, G, hruns⟩
    · exact ⟨t, since, _, hadvanced.2⟩
    · exact ⟨t, since, F, hadvanced.1⟩

/-- What an interrupted run has explored is not permitted by what its path says. -/
theorem Runs.exists_not_permits (hpolls : Polls δ P P')
    (hback : ∀ stop statistics, P' stop statistics → P stop) (h : r.Runs δ ε P t since F)
    (hinterrupts : r.Interrupts r') (hrecords : r'.inner.Records) :
    r'.Runs δ ε P t since F ∧ r'.master = r.master ∧ (r.master.isFailed = true ∨
      ∃ Q T, t.Settles Q T ∧ t.root = r'.master.store ∧
        ¬NoGoods.Permits r'.inner.noGoods.1.levels T.box) := by
  obtain ⟨hmaster, hadvanced⟩ :=
    (step_inner_law hpolls hback h hinterrupts.running).of_returns hinterrupts.steps
  rcases hadvanced with ⟨hrestart, -⟩ | ⟨-, hruns, n, hn, statistics, hstatistics, hle⟩
  · exact absurd (hrestart.symm.trans hinterrupts.restart) (by decide)
  refine ⟨hruns, hmaster, ?_⟩
  rcases h.run hinterrupts.running n hn with hfailed | ⟨hlt, hroot⟩
  · exact .inl hfailed
  · obtain ⟨Q, T, hsettles, hnot⟩ :=
      hruns.seeks.exists_not_permits hstatistics (hlt.trans_le hle) hrecords
    exact .inr ⟨Q, T, hsettles, hmaster ▸ hroot, hnot⟩

/-! ### Outcomes -/

/-- Each run that is interrupted, up to the next outcome, is recorded. -/
def Recording (r : Restarts σ ρ) : Prop :=
  ∀ r₁ r₂, Relation.ReflTransGen Steps r r₁ → r₁.Interrupts r₂ → r₂.inner.Records

theorem Recording.step (h : r.Recording) (hstep : r.Steps r') : r'.Recording :=
  fun r₁ r₂ hsteps => h r₁ r₂ (.head hstep hsteps)

/-- Whether an outcome follows within so many steps, with all interrupted runs recorded. -/
def recordsWithin : Nat → Restarts σ ρ → Bool
  | 0, _ => false
  | steps + 1, r => r.step.check fun (outcome, r') => outcome.isSome ||
      (r.restart || !r'.restart || decide r'.inner.Records) && recordsWithin steps r'

theorem recording_of_recordsWithin {steps : Nat} (h : recordsWithin steps r = true) :
    r.Recording := by
  induction steps generalizing r with
  | zero => cases h
  | succ steps ih =>
    obtain ⟨⟨outcome, r'⟩, hreturns, hchecked⟩ := Journaled.exists_of_check h
    -- The steps go one way only.
    have hunique {r'' : Restarts σ ρ} (hstep : r.Steps r'') : outcome = none ∧ r' = r'' := by
      cases r.steady_step.unique hreturns hstep
      exact ⟨rfl, rfl⟩
    intro r₁ r₂ hsteps hinterrupts
    rcases Relation.ReflTransGen.cases_head hsteps with rfl | ⟨r'', hstep, hsteps⟩
    · obtain ⟨rfl, rfl⟩ := hunique hinterrupts.steps
      dsimp only at hchecked
      rw [hinterrupts.running, hinterrupts.restart] at hchecked
      simp only [Option.isSome_none, Bool.not_true, Bool.or_self, Bool.false_or, Bool.and_eq_true,
        decide_eq_true_eq] at hchecked
      exact hchecked.1
    · obtain ⟨rfl, rfl⟩ := hunique hstep
      simp only [Option.isSome_none, Bool.false_or, Bool.and_eq_true] at hchecked
      exact ih hchecked.2 r₁ r₂ hsteps hinterrupts

/-- Whether the run that is interrupted after `count` others within so many steps has a property
that can be evaluated. -/
def interruptsTo (property : Restarts σ ρ → Bool) : Nat → Nat → Restarts σ ρ → Bool
  | 0, _, _ => false
  | steps + 1, count, r => r.step.check fun (outcome, r') => outcome.isNone &&
      if r.restart || !r'.restart then interruptsTo property steps count r'
      else
        match count with
        | 0 => property r'
        | count + 1 => interruptsTo property steps count r'

theorem exists_of_interruptsTo {property : Restarts σ ρ → Bool} {steps count : Nat}
    (h : interruptsTo property steps count r = true) :
    ∃ r₁ r₂, Relation.ReflTransGen Steps r r₁ ∧ r₁.Interrupts r₂ ∧ property r₂ = true := by
  induction steps generalizing r count with
  | zero => cases h
  | succ steps ih =>
    obtain ⟨⟨outcome, r'⟩, hreturns, hchecked⟩ := Journaled.exists_of_check h
    rw [Bool.and_eq_true, Option.isNone_iff_eq_none] at hchecked
    obtain ⟨rfl, hchecked⟩ := hchecked
    have hlater {count : Nat} (h : interruptsTo property steps count r' = true) :
        ∃ r₁ r₂, Relation.ReflTransGen Steps r r₁ ∧ r₁.Interrupts r₂ ∧ property r₂ = true := by
      obtain ⟨r₁, r₂, hsteps, hinterrupts, hproperty⟩ := ih h
      exact ⟨r₁, r₂, .head hreturns hsteps, hinterrupts, hproperty⟩
    split at hchecked
    · exact hlater hchecked
    · rename_i hgoes
      simp only [Bool.or_eq_true, Bool.not_eq_true', not_or, Bool.not_eq_true, Bool.not_eq_false]
        at hgoes
      cases count with
      | zero => exact ⟨r, r', .refl, ⟨hgoes.1, hreturns, hgoes.2⟩, hchecked⟩
      | succ count => exact hlater hchecked

/-- A run, and a bound for the number of steps to an outcome: the nodes that are left to explore,
and for each restart after which fewer domains are permitted, the nodes of a whole tree. -/
structure Running (δ ε : Prop) (P : σ → Prop) (c n : Nat) (r : Restarts σ ρ) : Prop where
  restart : r.restart = false
  bounded : r.master.store.nodeBound ≤ c
  exists_runs : ∃ t since F, r.Runs δ ε P t since F ∧
    r.master.permitted.ncard * (c + 2) + F.bound t + 2 ≤ n

/-- The search has an outcome after `n` steps at most: it runs, or begins again. -/
def Lasts (δ ε : Prop) (P : σ → Prop) (c n : Nat) (r : Restarts σ ρ) : Prop :=
  r.Running δ ε P c n ∨ r.restart = true ∧ Journaled.Yields δ r.begin fun b =>
    (b.1 = none → ∃ m < n, b.2.Running δ ε P c m) ∧ ∀ outcome ∈ b.1, outcome = .exhausted

omit [StopCondition σ] in
/-- A restart that leaves fewer than `k` permitted domains. -/
theorem Runs.begin_lasts {c k : Nat} (h : r.Runs δ ε P t since F) (hrestart : r.restart = true)
    (hbounded : r.master.store.nodeBound ≤ c)
    (hk : r.master.isFailed = true ∨ r.master.permitted.ncard < k ∨
      r.master.permitted.ncard ≤ k ∧ ∃ Q T, t.Settles Q T ∧ t.root = r.master.store ∧
        ¬NoGoods.Permits r.inner.noGoods.1.levels T.box) :
    r.Lasts δ ε P c (k * (c + 2) + 1) := by
  refine .inr ⟨hrestart, (h.begin_renews hrestart).mono fun b hb =>
    ⟨fun hnone => ?_, fun outcome houtcome => (hb.2 outcome houtcome).1⟩⟩
  obtain ⟨hrestart', halive, hsubset, hssubset, hless, t', since', G, hbound, hruns⟩ := hb.1 hnone
  have hpermitted : b.2.master.permitted.ncard < k := by
    rcases hk with hfailed | hlt | ⟨hle, hexcluded⟩
    · exact absurd (hfailed.symm.trans halive) (by decide)
    · exact (Set.ncard_le_ncard hsubset r.master.finite_permitted).trans_lt hlt
    · exact (Set.ncard_lt_ncard (hssubset hexcluded) r.master.finite_permitted).trans_le hle
  refine ⟨_, ?_, hrestart', hless.trans hbounded, t', since', G, hruns, le_refl _⟩
  calc b.2.master.permitted.ncard * (c + 2) + G.bound t' + 2
      ≤ (b.2.master.permitted.ncard + 1) * (c + 2) := by rw [Nat.succ_mul]; omega
    _ ≤ k * (c + 2) := Nat.mul_le_mul_right _ hpermitted
    _ < k * (c + 2) + 1 := Nat.lt_succ_self _

/-- A step without an outcome makes the bound smaller, if an interrupted run is recorded. -/
theorem Lasts.step_law {c n : Nat} (hpolls : Polls δ P fun _ _ => False) (h : r.Lasts δ ε P c n)
    (hrecords : ∀ r', r.Interrupts r' → r'.inner.Records) :
    Journaled.Yields δ r.step fun p =>
      (p.1 = none → r.Steps p.2 ∧ ∃ m < n, p.2.Lasts δ ε P c m) ∧ p.1 ≠ some .stopped := by
  rcases h with ⟨hrestart, hbounded, t, since, F, hruns, hle⟩ | ⟨hrestart, hbegins⟩
  · refine (step_inner_law hpolls (fun _ _ => False.elim) hruns hrestart).self.mono ?_
    rintro ⟨outcome, r'⟩ ⟨hadvanced, hreturns⟩
    rcases outcome with _ | s | _ | _
    · obtain ⟨hmaster, hgoes⟩ := hadvanced
      refine ⟨fun _ => ⟨hreturns, ?_⟩, fun heq => by cases heq⟩
      rcases hgoes with ⟨hrestart', G, hlt, hruns'⟩ | ⟨hrestart', hruns', -⟩
      · have hbound := hlt.bound
        exact ⟨r.master.permitted.ncard * (c + 2) + G.bound t + 2, by omega,
          .inl ⟨hrestart', hmaster ▸ hbounded, t, since, G, hruns', by rw [hmaster]⟩⟩
      · -- The run is interrupted.
        have hinterrupts : r.Interrupts r' := ⟨hrestart, hreturns, hrestart'⟩
        obtain ⟨-, -, hexcluded⟩ := hruns.exists_not_permits hpolls (fun _ _ => False.elim)
          hinterrupts (hrecords r' hinterrupts)
        rw [← hmaster] at hbounded hle hexcluded
        refine ⟨_, ?_, hruns'.begin_lasts hrestart' hbounded
          (hexcluded.imp id fun hnode => Or.inr ⟨le_refl _, hnode⟩)⟩
        omega
    · exact ⟨fun hnone => (by cases hnone), fun heq => by cases heq⟩
    · exact ⟨fun hnone => (by cases hnone), fun heq => by cases heq⟩
    · obtain ⟨-, -, hfalse⟩ := hadvanced
      exact hfalse.elim
  · have hstep : r.step = r.begin := if_pos hrestart
    rw [hstep]
    refine hbegins.self.mono fun b hb => ?_
    obtain ⟨hbegun, hreturns⟩ := hb
    refine ⟨fun hnone => ?_, fun hstopped => ?_⟩
    · obtain ⟨m, hm, hrunning⟩ := hbegun.1 hnone
      have hsteps : r.step.Returns (none, b.2) := hstep ▸ hnone ▸ hreturns
      exact ⟨hsteps, m, hm, .inl hrunning⟩
    · cases hbegun.2 _ hstopped

omit [StopCondition σ] in
/-- Every search has such a bound. -/
theorem Runs.exists_lasts (h : r.Runs δ ε P t since F) : ∃ c n, r.Lasts δ ε P c n := by
  cases hrestart : r.restart with
  | false => exact ⟨_, _, .inl ⟨hrestart, le_refl _, t, since, F, h, le_refl _⟩⟩
  | true =>
    exact ⟨_, _, h.begin_lasts hrestart (le_refl _) (.inr (.inl (Nat.lt_succ_self _)))⟩

end Restarts

end Runs

section Engines

variable {σ ρ : Type} [StopCondition σ] [CutoffSequence ρ]

/-- A call returns, unless an interrupted run is not recorded. -/
theorem Engine.next_restarts {e : Engine σ ρ} {r : Restarts (Option σ) ρ} {c n steps : Nat}
    (hr : e.search = .restarts r) (h : r.Lasts δ ε (· = none) c n) (hrecording : r.Recording)
    (hsteps : n < steps) :
    Journaled.Yields δ (e.next steps) fun r => r.2.hasStopped = false := by
  have hsearch : Journaled.Yields δ (searchWithin Search.step steps e.search)
      fun p => p.1 ≠ .stopped := by
    refine searchWithin_law
      (J := fun m search => ∃ r, search = .restarts r ∧ r.Lasts δ ε (· = none) c m ∧ r.Recording)
      ?_ ⟨r, hr, h, hrecording⟩ hsteps
    rintro m _ ⟨r, rfl, hlasts, hrecording⟩
    refine (hlasts.step_law polls_none (hrecording r · .refl)).bind ?_
    rintro ⟨outcome, r'⟩ ⟨hgoes, hstopped⟩
    refine Journaled.Yields.pure ?_
    cases outcome with
    | none =>
      obtain ⟨hstep, k, hk, hlasts'⟩ := hgoes rfl
      exact ⟨k, hk, r', rfl, hlasts', hrecording.step hstep⟩
    | some outcome => exact fun heq => hstopped (congrArg some heq)
  unfold next
  refine hsearch.bind ?_
  rintro ⟨outcome, search⟩ houtcome
  cases outcome with
  | stopped => exact absurd rfl houtcome
  | solution s => exact Journaled.Yields.pure rfl
  | exhausted => exact Journaled.Yields.pure rfl

/-- **Restarts make progress.** After any number of calls without a stop condition: when a run is
interrupted whose path is recorded and has a node left, then after the restart the master has
failed, or its no-goods permit fewer domains. A call in which all interrupted runs are such
returns. -/
theorem Built.restarts_progress {policy : Policy} {statements : List Statement}
    {objective : Option Objective} {options : SearchOptions σ ρ} {e e' : Engine σ ρ} {rest : Space}
    {found : List Space} (h : Built policy statements s)
    (hproper : ∀ c ∈ postings statements, ∀ x ∈ c.vars, x.Proper ∨ δ)
    (hbranched : Branched 0 0 statements) (ho : ∀ o ∈ objective, o.variable.Admissible δ s.store)
    (hthreads : options.threads = 1) (hstop : options.stop = none)
    (hstart : (Engine.start .restarts { s with objective } options).run.Returns (.ok (e, rest)))
    (hcalls : e.Calls found e') :
    ∃ r₀, e'.search = .restarts r₀ ∧
      (∀ r r' r'' outcome, Relation.ReflTransGen Restarts.Steps r₀ r → r.Interrupts r' →
        r'.inner.Records → r'.begin.Returns (outcome, r'') →
        r''.master.isFailed = true ∨ r''.master.permitted ⊂ r'.master.permitted) ∧
      (r₀.Recording → ∃ n, ∀ steps > n,
        Journaled.Yields δ (e'.next steps) fun r => r.2.hasStopped = false) := by
  obtain ⟨posted, -, hroots⟩ := h.exists_roots hproper hbranched ho
  rw [Engine.start_eq hthreads fun hkind => by cases hkind] at hstart
  obtain ⟨search, hsearch, hstart⟩ := Journaled.exists_of_returns_bind hstart
  cases Journaled.of_returns_pure hstart
  obtain ⟨r, hr, hsearch⟩ := Journaled.exists_of_returns_bind hsearch
  cases Journaled.of_returns_pure hsearch
  obtain ⟨t, since, F, hruns, -, -⟩ := (Restarts.start_law (ε := False) (P := (· = none)) hroots
    False.elim hthreads.le options.exploration options.isTraced options.cutoffs hstop).of_returns hr
  -- The invariant holds between the calls, and after each step.
  let Kept (r : Restarts (Option σ) ρ) : Prop := ∃ t since F, r.Runs δ False (· = none) t since F
  have hkeeps (r : Restarts (Option σ) ρ) (hr : Kept r) :
      Journaled.Yields δ r.step fun p => Kept p.2 := by
    obtain ⟨t, since, F, hruns⟩ := hr
    exact hruns.step_law polls_none fun _ _ => False.elim
  obtain ⟨r₀, hr₀, hkept⟩ :=
    hcalls.keeps (I := fun search => ∃ r, search = .restarts r ∧ Kept r) (by
    rintro _ ⟨r, rfl, hr⟩
    exact (hkeeps r hr).bind fun p hp => Journaled.Yields.pure ⟨p.2, rfl, hp⟩)
    ⟨r, rfl, t, since, F, hruns⟩
  refine ⟨r₀, hr₀, fun r r' r'' outcome hsteps hinterrupts hrecords hbegin => ?_,
    fun hrecording => ?_⟩
  · obtain ⟨t, since, F, hruns⟩ : Kept r := by
      clear hinterrupts
      induction hsteps with
      | refl => exact hkept
      | tail _ hstep ih => exact (hkeeps _ ih).of_returns hstep
    obtain ⟨hruns', hmaster, hexcluded⟩ :=
      hruns.exists_not_permits polls_none (fun _ _ => False.elim) hinterrupts hrecords
    have hbegun := (hruns'.begin_renews hinterrupts.restart).of_returns hbegin
    cases outcome with
    | some outcome => exact .inl (hbegun.2 outcome rfl).2
    | none =>
      have hrenews := hbegun.1 rfl
      rcases hexcluded with hfailed | hnode
      · exact absurd ((hmaster ▸ hfailed).symm.trans hrenews.alive) (by decide)
      · exact .inr (hrenews.ssubset hnode)
  · obtain ⟨t, since, F, hruns⟩ := hkept
    obtain ⟨c, n, hlasts⟩ := hruns.exists_lasts
    exact ⟨n, fun steps hsteps => Engine.next_restarts hr₀ hlasts hrecording hsteps⟩

end Engines

/-- Three variables, the largest domain in the middle. Which of them is branched on first depends on
the failures before. -/
def reordered : List Statement :=
  [.newInt 0 1, .newInt 0 7, .newInt 0 1,
    .post (.weightedAtMost [-1, -1, -2] [.root 1, .root 2, .root 0] (-1)),
    .post (.weightedAtMost [1, -1, -2] [.root 2, .root 1, .root 0] 0),
    .branch (.int (.ofVariables [.root 0, .root 1, .root 2] .maxDegree .split))]

/-- Whether a search begins again, with a property that can be evaluated. -/
def Search.restartsTo (property : Restarts (Option Stop) Sequence → Bool) : Search → Bool
  | .restarts r => property r
  | _ => false

theorem Search.exists_of_restartsTo {property : Restarts (Option Stop) Sequence → Bool}
    {search : Search} (h : search.restartsTo property = true) :
    ∃ r, search = .restarts r ∧ property r = true := by
  cases search with
  | restarts r => exact ⟨r, rfl, h⟩
  | complete _ => cases h
  | limitedDiscrepancy _ => cases h

/-- The first run is interrupted by its first failure. -/
theorem Built.restarts_progress_reordered : ∃ s, ∃ e : Engine, ∃ rest r₀ r r' r'',
    Built .costOrdered reordered s ∧
      (Engine.start .restarts { s with objective := none } { cutoffs := .constant 1 }).run.Returns
        (.ok (e, rest)) ∧
      e.search = .restarts r₀ ∧ Relation.ReflTransGen Restarts.Steps r₀ r ∧ r.Interrupts r' ∧
      r'.begin.Returns (none, r'') ∧ r''.master.permitted ⊂ r'.master.permitted ∧
      ∃ n, ∀ steps > n, Journaled.Yields False (e.next steps) fun r => r.2.hasStopped = false := by
  have hcheck : buildsTo .costOrdered reordered (fun s =>
      Engine.runsTo .restarts { cutoffs := .constant 1 } 0 0 (fun _ _ e =>
        e.search.restartsTo fun r₀ => Restarts.recordsWithin 20 r₀ &&
          Restarts.interruptsTo (fun r' => decide r'.inner.Records &&
            r'.begin.check fun b => b.1.isNone && !b.2.master.isFailed) 20 0 r₀)
        { s with objective := none }) = true := by
    decide +kernel
  obtain ⟨s, hs, hruns⟩ := exists_built_of_buildsTo hcheck
  obtain ⟨e, rest, found, ended, e', hstart, htake, hsearch⟩ := Engine.exists_of_runsTo hruns
  cases Journaled.of_returns_pure htake
  obtain ⟨r₀, hr₀, hproperty⟩ := Search.exists_of_restartsTo hsearch
  rw [Bool.and_eq_true] at hproperty
  obtain ⟨hrecords, hinterrupts⟩ := hproperty
  obtain ⟨r, r', hsteps, hinterrupts, hproperty⟩ := Restarts.exists_of_interruptsTo hinterrupts
  rw [Bool.and_eq_true, decide_eq_true_eq] at hproperty
  obtain ⟨hrecorded, hbegin⟩ := hproperty
  obtain ⟨⟨outcome, r''⟩, hbegin, hproperty⟩ := Journaled.exists_of_check hbegin
  rw [Bool.and_eq_true, Option.isNone_iff_eq_none, Bool.not_eq_true'] at hproperty
  obtain ⟨rfl, halive⟩ := hproperty
  obtain ⟨r₁, hr₁, hprogress, hreturns⟩ := hs.restarts_progress (δ := False) (by decide) (by decide)
    (fun o ho => by cases ho) rfl rfl hstart (.refl e)
  cases hr₀.symm.trans hr₁
  refine ⟨s, e, rest, r₀, r, r', r'', hs, hstart, hr₀, hsteps, hinterrupts, hbegin, ?_,
    hreturns (Restarts.recording_of_recordsWithin hrecords)⟩
  rcases hprogress r r' r'' none hsteps hinterrupts hrecorded hbegin with hfailed | hpermitted
  · exact absurd (hfailed.symm.trans halive) (by decide)
  · exact hpermitted

/-- Three variables with different values, of which there are two. -/
def tripled : List Statement :=
  [.newInt 0 1, .newInt 0 1, .newInt 0 1, .post (.notEquals (.root 0) (.root 1) 0),
    .post (.notEquals (.root 0) (.root 2) 0), .post (.notEquals (.root 1) (.root 2) 0),
    .branch (.int (.ofVariables [.root 0, .root 1, .root 2] .inputOrder .min))]

/-- What the first run and the second one have explored: the first variable is branched on first,
and then last. -/
def exploredRuns : List (List NoGoodLevel) :=
  [[⟨[], some (.comparison (.root 0) .atMost 0)⟩, ⟨[], some (.comparison (.root 1) .atMost 3)⟩,
      ⟨[], some (.comparison (.root 1) .atMost 1)⟩, ⟨[.comparison (.root 1) .atMost 0], none⟩],
    [⟨[], some (.comparison (.root 1) .atMost 3)⟩, ⟨[], some (.comparison (.root 1) .atMost 1)⟩,
      ⟨[], some (.comparison (.root 1) .atMost 0)⟩, ⟨[.comparison (.root 0) .atMost 0], none⟩]]

/-- Both runs exclude the assignments with `x ≤ 0` and `y ≤ 0`. -/
theorem permits_exploredRuns {levels : List NoGoodLevel} (h : levels ∈ exploredRuns)
    (a : Assignment) : NoGoods.Permits levels a.box ↔ ¬(a.ints 0 ≤ 0 ∧ a.ints 1 ≤ 0) := by
  have hatMost (i : Nat) (v : Int) :
      (Literal.comparison (.root i) .atMost v).Holds a.box ↔ a.ints i ≤ v :=
    Assignment.restricted_box
  rcases List.mem_pair.1 h with rfl | rfl
  all_goals
    simp only [NoGoods.Permits, Literal.refuted_box, Option.mem_def, Option.some.injEq, forall_eq',
      List.forall_mem_cons, hatMost]
    simp
    omega

/-- The second run is interrupted after it has refuted the same assignments in another order. -/
theorem Built.exists_restart_permitting : ∃ s, ∃ e : Engine, ∃ rest r₀ r r' r'',
    Built .costOrdered reordered s ∧
      (Engine.start .restarts s { cutoffs := .constant 1 }).run.Returns (.ok (e, rest)) ∧
      e.search = .restarts r₀ ∧ Relation.ReflTransGen Restarts.Steps r₀ r ∧ r.Interrupts r' ∧
      r'.inner.Records ∧ r'.begin.Returns (none, r'') ∧ r''.master.isFailed = false ∧
      r''.master.permittedAssignments = r'.master.permittedAssignments := by
  have hcheck : buildsTo .costOrdered reordered (fun s =>
      Engine.runsTo .restarts { cutoffs := .constant 1 } 0 0 (fun _ _ e =>
        e.search.restartsTo <| Restarts.interruptsTo (fun r' => decide r'.inner.Records &&
          r'.begin.check fun b => b.1.isNone && !b.2.master.isFailed &&
            decide (b.2.master.store.ints = r'.master.store.ints) &&
            decide (b.2.master.store.sets = r'.master.store.sets) &&
            decide (r'.master.exclusions = exploredRuns.take 1) &&
            decide (b.2.master.exclusions = exploredRuns)) 20 1) s) = true := by
    decide +kernel
  obtain ⟨s, hs, hruns⟩ := exists_built_of_buildsTo hcheck
  obtain ⟨e, rest, found, ended, e', hstart, htake, hsearch⟩ := Engine.exists_of_runsTo hruns
  cases Journaled.of_returns_pure htake
  obtain ⟨r₀, hr₀, hinterrupts⟩ := Search.exists_of_restartsTo hsearch
  obtain ⟨r, r', hsteps, hinterrupts, hproperty⟩ := Restarts.exists_of_interruptsTo hinterrupts
  rw [Bool.and_eq_true, decide_eq_true_eq] at hproperty
  obtain ⟨hrecorded, hbegin⟩ := hproperty
  obtain ⟨⟨outcome, r''⟩, hbegin, hproperty⟩ := Journaled.exists_of_check hbegin
  simp only [Bool.and_eq_true, Option.isNone_iff_eq_none, Bool.not_eq_true', decide_eq_true_eq]
    at hproperty
  obtain ⟨⟨⟨⟨⟨rfl, halive⟩, hints⟩, hsets⟩, hbefore⟩, hafter⟩ := hproperty
  refine ⟨s, e, rest, r₀, r, r', r'', hs, hstart, hr₀, hsteps, hinterrupts, hrecorded,
    hbegin, halive, Set.ext fun a => and_congr ?_ ?_⟩
  · have hbox : r''.master.store.box = r'.master.store.box := by
      unfold Store.box
      rw [hints, hsets]
    exact ⟨fun h => ⟨hbox ▸ h.ints, hbox ▸ h.sets⟩, fun h => ⟨hbox ▸ h.ints, hbox ▸ h.sets⟩⟩
  · rw [hbefore, hafter]
    exact ⟨fun h levels hlevels => h levels (List.mem_of_mem_take hlevels), fun h levels hlevels =>
      (permits_exploredRuns hlevels a).2
        ((permits_exploredRuns List.mem_cons_self a).1 (h _ List.mem_cons_self))⟩

/-- A search that is restarted after every second failure does not come to an end in a tree with two
failures. Where the path is not empty, it may explore the same assignments again. -/
theorem Built.exists_restart_idle :
    (∃ s, ∃ e : Engine, ∃ rest, Built .costOrdered tripled s ∧
      (Engine.start .restarts s { cutoffs := .constant 2 }).run.Returns (.ok (e, rest)) ∧
      ∀ steps, (e.next steps).Unfinished) ∧
    ∃ s, ∃ e : Engine, ∃ rest r₀ r r' r'', Built .costOrdered reordered s ∧
      (Engine.start .restarts s { cutoffs := .constant 1 }).run.Returns (.ok (e, rest)) ∧
      e.search = .restarts r₀ ∧ Relation.ReflTransGen Restarts.Steps r₀ r ∧ r.Interrupts r' ∧
      r'.inner.Records ∧ r'.begin.Returns (none, r'') ∧ r''.master.isFailed = false ∧
      r''.master.permittedAssignments = r'.master.permittedAssignments := by
  refine ⟨?_, exists_restart_permitting⟩
  have hcheck : buildsTo .costOrdered tripled (fun s => s.objective.isNone &&
      s.status.check fun r => decide (r.1 = .branch) && r.2.refutes) = true := by
    decide +kernel
  obtain ⟨s, hs, hproperty⟩ := exists_built_of_buildsTo hcheck
  rw [Bool.and_eq_true, Option.isNone_iff_eq_none] at hproperty
  obtain ⟨hobjective, hstatus⟩ := hproperty
  obtain ⟨⟨status, m⟩, hstatus, hproperty⟩ := Journaled.exists_of_check hstatus
  rw [Bool.and_eq_true, decide_eq_true_eq] at hproperty
  obtain ⟨rfl, hrefutes⟩ := hproperty
  have hcutoffs : Restarts.nextLimit (Sequence.constant 2) = (2, Sequence.constant 2) := rfl
  have hrefuted := Space.refuted_of_refutes (Space.status_of_status hstatus) hrefutes
  obtain ⟨e, rest, hstart, hnext⟩ :=
    Engine.exists_unfinished_of_refuted (σ := Stop) hcutoffs hobjective hstatus hrefuted
  exact ⟨s, e, rest, hs, hstart, hnext⟩

end ConstraintSearch
