import ConstraintSearch.Proofs.Search.Learning

/-!
# The theory of restarts

A search that is interrupted and begun again, with what was explored posted into its master. As long
as it may begin again, the master has exactly the solutions that are still to be found, since no run
before has found one, or since each solution was posted as a bound. What concerns the solutions
holds under the assumption `ε` that the spaces that are found are solutions.

* `Restarts.Inner`, `Restarts.Masters`: what is known of the inner search and of the master;
* `Restarts.Seeks`, `Restarts.step_law`: the invariant of a restart-based search, and what a step
  does;
* `Built.restarts_exact`: a restart-based search is exact, or ends with an optimum.
-/

namespace ConstraintSearch

variable {δ ε : Prop} {t : Tree} {s s' master : Space} {posted : List Propagator}
  {chain : List Brancher} {a : Assignment} {Open : Set Assignment} {Q : Set Box}
  {objective : Option Objective}

/-! ### Masters -/

/-- A node of a tree is the root of another one. Its solutions are those of the region. -/
theorem Tree.Stands.roots (h : t.Stands δ s Q) (hadmits : t.Admits δ)
    (hgoal : t.goal = Set.univ) :
    s.Roots δ t.posted t.chain ∧ s.solutions = {a | t.Solution a ∧ a.box ∈ Q} := by
  have hnarrows := h.frames.narrows
  have hroots : s.Roots δ t.posted t.chain := ⟨h.tracks, h.lineup, fun o ho =>
    (hadmits o (h.objective ▸ ho)).of_size_le hnarrows.size_ints.ge⟩
  refine ⟨hroots, Set.ext fun a => ?_⟩
  rw [hroots.mem_solutions_iff]
  constructor
  · rintro ⟨ha, hw⟩
    refine ⟨⟨ha.of_narrows hnarrows, hw.sound, hw.consistent, ?_⟩, h.frames.mem_of_within ha⟩
    rw [hgoal]
    exact Set.mem_univ _
  · rintro ⟨ha, hmem⟩
    exact ⟨h.frames.within_of_mem ha hmem, ha.2.sound, ha.2.consistent, Set.mem_univ _⟩

/-- The status of a root says whether it has solutions, and leaves them. -/
theorem Space.Roots.statusOf_law (h : s.Roots δ posted chain) (statistics : Statistics) :
    Journaled.Yields δ (statusOf s statistics) fun (status, s', _) =>
      if status = .failed then
        s'.isFailed = true ∧ s'.objective = s.objective ∧ s.solutions = ∅
      else s'.Roots δ posted chain ∧ s.store.Narrows s'.store ∧ s'.objective = s.objective ∧
        s'.solutions = s.solutions := by
  refine (ConstraintSearch.statusOf_law h.represents statistics).mono ?_
  rintro ⟨status, s', statistics'⟩ ⟨hjudged, -⟩
  have hstands (hrests : (s.tree posted chain).Rests δ s' (s.tree posted chain).whole) :
      s'.Roots δ posted chain ∧ s.store.Narrows s'.store ∧ s'.objective = s.objective ∧
        s'.solutions = s.solutions := by
    obtain ⟨hroots, hsolutions⟩ := hrests.roots h.regular.objective rfl
    refine ⟨hroots, hrests.frames.narrows, hrests.objective, hsolutions.trans ?_⟩
    ext a
    rw [h.mem_solutions_iff]
    exact ⟨And.left, fun ha => ⟨ha, ha.mem_whole⟩⟩
  cases status with
  | failed =>
    refine ⟨hjudged.1, hjudged.2.1, Set.eq_empty_of_forall_notMem fun a ha => ?_⟩
    rw [h.mem_solutions_iff] at ha
    exact hjudged.none_wanted _ ha.mem_whole ha.2
  | solved => exact hstands hjudged.1
  | branch => exact hstands hjudged.1

/-- A root that is to be better than a given solution. -/
theorem Space.Roots.constrain_law (h : s.Roots δ posted chain) {best : Space}
    (hsound : best.store.Sound) (hsize : best.store.ints.size = s.store.ints.size) {o : Objective}
    (ho : s.objective = some o) :
    Yields δ (s.constrain best) fun s' =>
      s'.isFailed = true ∧ s'.objective = s.objective ∧ (best.store.Assigned →
        remaining (some o) best.store.assignment s.solutions = ∅) ∨
      s'.Roots δ posted chain ∧ s.store.Narrows s'.store ∧ s'.objective = s.objective ∧
        (best.store.Assigned →
          s'.solutions = remaining (some o) best.store.assignment s.solutions) := by
  set t := s.tree posted chain with ht
  have hmem (hassigned : best.store.Assigned) (a : Assignment) :
      a ∈ remaining (some o) best.store.assignment s.solutions ↔
        t.Solution a ∧ a.box ∈ t.whole ∩ t.improving best.store := by
    have himproving : a.box ∈ t.improving best.store ↔ o.Better a best.store.assignment := by
      rw [← Objective.improves_box hassigned hsound]
      show (∀ o' ∈ s.objective, o'.Improves best.store a.box) ↔ _
      rw [ho]
      simp
    constructor
    · rintro ⟨ha, -, hbetter⟩
      rw [h.mem_solutions_iff] at ha
      exact ⟨ha, ha.mem_whole, himproving.2 (hbetter o rfl)⟩
    · rintro ⟨ha, -, himproves⟩
      have hbetter := himproving.1 himproves
      refine ⟨h.mem_solutions_iff.2 ha, ?_, fun o' ho' => ?_⟩
      · rintro rfl
        exact Objective.not_better_self _ hbetter
      · cases ho'
        exact hbetter
  refine (Tree.constrain_law h.represents h.regular.objective hsound hsize).mono fun s' hs' => ?_
  rcases hs' with ⟨hfailed, hobjective, hnone⟩ | hstands
  · refine .inl ⟨hfailed, hobjective, fun hassigned => Set.eq_empty_of_forall_notMem fun a ha => ?_⟩
    obtain ⟨ha, hregion⟩ := (hmem hassigned a).1 ha
    exact hnone _ hregion ha.2
  · obtain ⟨hroots, hsolutions⟩ := hstands.roots h.regular.objective rfl
    refine .inr ⟨hroots, hstands.frames.narrows, hstands.objective, fun hassigned => ?_⟩
    exact hsolutions.trans (Set.ext fun a => (hmem hassigned a).symm)

/-! ### The inner search -/

section Searches

variable {σ : Type} {since : Nat} {F : Frontier}

namespace CompleteSearch

variable {search : CompleteSearch σ}

/-- The stop condition does not matter for what is left to explore. -/
theorem Seeks.withStop (h : search.Seeks δ t since F) (stop : σ) :
    (search.withStop stop).Seeks δ t since F := by
  cases search with
  | depthFirst d => exact h
  | branchAndBound b => exact h
  | parallel p => exact h.elim

/-- To ask for the no-goods counts their literals only. -/
theorem Seeks.noGoods (h : search.Seeks δ t since F) : search.noGoods.2.Seeks δ t since F := by
  cases search with
  | depthFirst d => exact Explorer.Searches.congr h rfl rfl rfl rfl ⟨rfl, Nat.le_refl _⟩
  | branchAndBound b => exact Explorer.Searches.congr h rfl rfl rfl rfl ⟨rfl, Nat.le_refl _⟩
  | parallel p => exact h.elim

theorem Seeks.regular (h : search.Seeks δ t since F) : t.Regular δ := by
  cases search with
  | depthFirst d => exact (show d.explorer.Searches δ t none 0 since F from h).regular
  | branchAndBound b => exact (show b.explorer.Searches δ t b.best b.mark since F from h).regular
  | parallel p => exact h.elim

theorem Seeks.admissible_noGoods {δ' : Prop} (h : search.Seeks δ t since F) :
    ∀ level ∈ search.noGoods.1.levels, level.Admissible δ' t.root := by
  cases search with
  | depthFirst d =>
    have hkeeps := (show d.explorer.Searches δ t none 0 since F from h).explores.keeps
    exact hkeeps.carries.admissible_noGoods hkeeps.valid
  | branchAndBound b =>
    have hkeeps := (show b.explorer.Searches δ t b.best b.mark since F from h).explores.keeps
    exact hkeeps.carries.admissible_noGoods hkeeps.valid
  | parallel p => exact h.elim

theorem Seeks.permits_of_pending (h : search.Seeks δ t since F) (ha : a ∈ F.pending t) :
    NoGoods.Permits search.noGoods.1.levels a.box := by
  cases search with
  | depthFirst d =>
    exact (show d.explorer.Searches δ t none 0 since F from h).explores.permits_of_pending ha
  | branchAndBound b =>
    exact (show b.explorer.Searches δ t b.best b.mark since F from h).explores.permits_of_pending ha
  | parallel p => exact h.elim

/-- To ask for the no-goods counts no failure. -/
theorem Seeks.exists_statistics (h : search.Seeks δ t since F) : ∃ before after,
    search.statistics = .ok before ∧ search.noGoods.2.statistics = .ok after ∧
      after.fails = before.fails := by
  cases search with
  | depthFirst d => exact ⟨_, _, rfl, rfl, rfl⟩
  | branchAndBound b => exact ⟨_, _, rfl, rfl, rfl⟩
  | parallel p => exact h.elim

@[simp] theorem stop_withStop (stop : σ) : (search.withStop stop).stop = stop := by
  cases search <;> rfl

@[simp] theorem optimises_withStop (stop : σ) :
    (search.withStop stop).optimises = search.optimises := by
  cases search <;> rfl

@[simp] theorem statistics_withStop (stop : σ) :
    (search.withStop stop).statistics = search.statistics := by
  cases search <;> rfl

@[simp] theorem noGoods_withStop (stop : σ) :
    (search.withStop stop).noGoods = (search.noGoods.1, search.noGoods.2.withStop stop) := by
  cases search <;> rfl

@[simp] theorem optimises_noGoods : search.noGoods.2.optimises = search.optimises := by
  cases search <;> rfl

end CompleteSearch

variable [StopCondition σ] {P : σ → Prop} {P' : σ → Statistics → Prop}

/-- A condition with a limit of failures holds if the user's condition does, or if the limit is
reached. -/
theorem polls_cutoff (hpolls : Polls δ P P') (limit : Option Nat) :
    Polls δ (fun c : Cutoff σ => P c.user ∧ c.failLimit = limit ∧ c.userStopped = false)
      fun c statistics => c.failLimit = limit ∧
        if c.userStopped then P' c.user statistics
        else P c.user ∧ ∃ n ∈ limit, n ≤ statistics.fails := by
  rintro ⟨user, failLimit, userStopped⟩ ⟨huser, rfl, rfl⟩ statistics
  refine (hpolls user huser statistics).bind ?_
  rintro ⟨holds, user'⟩ hpoll
  cases holds with
  | true => exact Yields.pure ⟨rfl, hpoll⟩
  | false =>
    cases failLimit with
    | none => exact Yields.pure ⟨hpoll, rfl, rfl⟩
    | some n =>
      dsimp only
      by_cases hn : n ≤ statistics.fails
      · rw [decide_eq_true hn]
        exact Yields.pure ⟨rfl, hpoll, n, rfl, hn⟩
      · rw [decide_eq_false hn]
        exact Yields.pure ⟨hpoll, rfl, rfl⟩

end Searches

/-! ### Masters -/

/-- What is known of the master of a search that may begin again: it has the solutions that are
left, or has failed rightly. -/
inductive Masters (δ ε : Prop) (t : Tree) (Open : Set Assignment) (master : Space) : Prop
  | failed (hfailed : master.isFailed = true) (hobjective : master.objective = t.objective)
      (hOpen : ε → Open = ∅)
  | roots (h : master.Roots δ t.posted t.chain) (hnarrows : t.root.Narrows master.store)
      (hobjective : master.objective = t.objective) (hsolutions : ε → master.solutions = Open)

/-- What is looked for does not matter for the master. -/
theorem Masters.retarget (h : Masters δ ε t Open master) (goal : Set Box) :
    Masters δ ε { t with goal } Open master := by
  rcases h with ⟨hfailed, hobjective, hOpen⟩ | ⟨hroots, hnarrows, hobjective, hsolutions⟩
  · exact .failed hfailed hobjective hOpen
  · exact .roots hroots hnarrows hobjective hsolutions

/-- A space that has failed takes no no-goods with levels. -/
theorem NoGoods.post_failed (n : NoGoods) (h : s.isFailed = true) (journal : Journal) :
    ((n.post s).run journal).1 = .ok (.ok s) ∨
      ∃ error, ((n.post s).run journal).1 = .ok (.error error) := by
  unfold post
  cases n.levels with
  | nil => exact .inl rfl
  | cons level levels =>
    have hpost : s.post (.noGoods (level :: levels) 0) = .ok (.error .infeasibleState) := by
      unfold Space.post
      rw [if_pos h]
      rfl
    refine .inr ⟨.infeasibleState, ?_⟩
    dsimp only
    rw [hpost]
    rfl

theorem statusOf_failed (h : s.isFailed = true) (statistics : Statistics) :
    Journaled.Yields δ (statusOf s statistics) fun (status, s', _) =>
      status = .failed ∧ s' = s := by
  unfold statusOf Space.status Space.propagate
  rw [if_pos h, pure_bind, if_pos h]
  exact Journaled.Yields.pure ⟨rfl, rfl⟩

/-- What is left matters only if the spaces that are found are solutions. -/
theorem Masters.congr {Open' : Set Assignment} (h : Masters δ ε t Open master)
    (heq : ε → Open = Open') : Masters δ ε t Open' master := by
  rcases h with ⟨hfailed, hobjective, hOpen⟩ | ⟨hroots, hnarrows, hobjective, hsolutions⟩
  · exact .failed hfailed hobjective fun hε => (heq hε).symm.trans (hOpen hε)
  · exact .roots hroots hnarrows hobjective fun hε => (hsolutions hε).trans (heq hε)

/-- A master that has failed stays failed. -/
theorem Tree.constrain_of_failed (h : master.isFailed = true)
    (hobjective : master.objective = t.objective) (hadmits : t.Admits δ) (hs : t.Finds s) :
    Yields δ (master.constrain s)
      fun master' => master'.isFailed = true ∧ master'.objective = t.objective := by
  -- A space that has failed stands for nothing.
  have hnothing : t.Represents δ master ∅ := .failed h hobjective fun F hF => hF.elim
  refine (Tree.constrain_law hnothing hadmits hs.sound hs.size).mono fun master' hmaster' => ?_
  refine ⟨?_, hmaster'.objective⟩
  rcases hmaster' with ⟨hfailed, -, -⟩ | hstands
  · exact hfailed
  · exact (hstands.frames.within _ hstands.frames.sound.box (Store.box_within _)).1.elim

/-- To post no-goods that permit what is left leaves it, and a master that does not take them has
failed. -/
theorem Masters.post_law {n : NoGoods} (h : Masters δ ε t Open master)
    (hlevels : ∀ level ∈ n.levels, level.Admissible δ t.root)
    (hpermits : ∀ a ∈ Open, NoGoods.Permits n.levels a.box) :
    Journaled.Yields δ (n.post master).run fun
      | .ok master' => master'.store = master.store ∧ master'.isFailed = master.isFailed ∧
          Masters δ ε { t with posted := n.extend t.posted } Open master'
      | .error _ => master.isFailed = true ∧ master.objective = t.objective ∧
          (ε → Open = ∅) := by
  intro journal
  rcases h with ⟨hfailed, hobjective, hOpen⟩ | ⟨hroots, hnarrows, hobjective, hsolutions⟩
  · rcases n.post_failed hfailed journal with hpost | ⟨error, hpost⟩
    · rw [hpost]
      exact ⟨rfl, rfl, .failed hfailed hobjective hOpen⟩
    · rw [hpost]
      exact ⟨hfailed, hobjective, hOpen⟩
  · obtain ⟨master', hpost, hroots', hstore, hobjective', hleft⟩ := n.post_law hroots
      fun level hlevel => (hlevels level hlevel).of_evolves hnarrows.evolves
    rw [hpost]
    refine ⟨hstore, hroots'.tracks.ready.alive.trans hroots.tracks.ready.alive.symm,
      .roots hroots' (hstore ▸ hnarrows) (hobjective'.trans hobjective) fun hε => ?_⟩
    rw [hleft, hsolutions hε]
    exact Set.ext fun a => ⟨And.left, fun ha => ⟨ha, hpermits a ha⟩⟩

theorem Masters.statusOf_law (h : Masters δ ε t Open master) (statistics : Statistics) :
    Journaled.Yields δ (statusOf master statistics) fun (status, master', _) =>
      if status = .failed then
        master'.isFailed = true ∧ master'.objective = t.objective ∧ (ε → Open = ∅)
      else master.isFailed = false ∧ master'.Roots δ t.posted t.chain ∧
        master.store.Narrows master'.store ∧ master'.objective = t.objective ∧
        (ε → master'.solutions = Open) := by
  rcases h with ⟨hfailed, hobjective, hOpen⟩ | ⟨hroots, hnarrows, hobjective, hsolutions⟩
  · refine (statusOf_failed hfailed statistics).mono ?_
    rintro ⟨status, master', statistics'⟩ ⟨rfl, rfl⟩
    exact ⟨hfailed, hobjective, hOpen⟩
  · refine (hroots.statusOf_law statistics).mono ?_
    rintro ⟨status, master', statistics'⟩ hr
    dsimp only at hr ⊢
    split at hr
    · rename_i hfailed
      rw [if_pos hfailed]
      exact ⟨hr.1, hr.2.1.trans hobjective, fun hε => (hsolutions hε).symm.trans hr.2.2⟩
    · rename_i hfailed
      rw [if_neg hfailed]
      exact ⟨hroots.tracks.ready.alive, hr.1, hr.2.1, hr.2.2.1.trans hobjective,
        fun hε => hr.2.2.2.trans (hsolutions hε)⟩

/-! ### Runs -/

namespace Restarts

variable {σ ρ : Type} [CutoffSequence ρ] {P : σ → Prop} {P' : σ → Statistics → Prop}
  {since : Nat} {F : Frontier} {r r' : Restarts σ ρ}

/-- The inner search has the frontier `F` in a tree. While the search may begin again, this is the
tree below the master, which has failed so often when the run began; after a solution, the master
is bounded by it. -/
structure Runs (δ ε : Prop) (P : σ → Prop) (t : Tree) (since : Nat) (F : Frontier)
    (r : Restarts σ ρ) : Prop where
  optimising : r.optimising = t.objective.isSome
  optimises : t.objective.isSome = true → r.inner.optimises = true
  exploresMaster : r.exploresMaster = true
  user : P r.inner.stop.user
  userStopped : r.inner.stop.userStopped = false
  exact : ε → t.Exact
  seeks : r.inner.Seeks δ t since F
  limited : t.objective.isSome = true → r.inner.stop.failLimit.isSome = true
  master : r.restart = true ∨ r.inner.stop.failLimit.isSome = true →
    Masters δ ε t (F.pending t) r.master
  run : r.restart = false → ∀ n ∈ r.inner.stop.failLimit,
    r.master.isFailed = true ∨ since < n ∧ t.root = r.master.store

theorem one_le_nextLimit (cutoffs : ρ) : 1 ≤ (nextLimit cutoffs).1 := by
  show 1 ≤ (max (CutoffSequence.next cutoffs).1 1).toNat
  omega

omit [CutoffSequence ρ] in
/-- What was explored is posted into the master. -/
theorem learn_law (hexplores : r.exploresMaster = true) (hseeks : r.inner.Seeks δ t since F)
    (hmaster : Masters δ ε t (F.pending t) r.master) :
    Journaled.Yields δ r.learn fun (learnt, r') => ∃ master,
      r' = { r with inner := r.inner.noGoods.2, master } ∧
      if learnt then master.store = r.master.store ∧ master.isFailed = r.master.isFailed ∧
        Masters δ ε { t with posted := r.inner.noGoods.1.extend t.posted } (F.pending t) master
      else master.isFailed = true ∧ master.objective = t.objective ∧ (ε → F.pending t = ∅) := by
  unfold learn
  rw [hexplores, if_neg (by decide)]
  refine (hmaster.post_law hseeks.admissible_noGoods
    fun a ha => hseeks.permits_of_pending ha).bind ?_
  rintro (error | master) hposted
  · exact Journaled.Yields.pure ⟨r.master, rfl, hposted⟩
  · exact Journaled.Yields.pure ⟨master, rfl, hposted⟩

/-- The search with the next limit of failures, counted from the failures before. -/
def limited (r : Restarts σ ρ) (fails : Nat) : Restarts σ ρ :=
  { r with
    restart := false
    statistics := { r.statistics with restarts := r.statistics.restarts + 1 }
    cutoffs := (nextLimit r.cutoffs).2 }.setLimit (some (fails + (nextLimit r.cutoffs).1))

theorem begin_eq (r : Restarts σ ρ) : r.begin = (do
    let before ← r.inner.statistics
    let (learnt, r₁) ← (r.limited before.fails).learn
    if !learnt then return (some .exhausted, r₁)
    let (status, master, statistics) ← statusOf r₁.master r₁.statistics
    let r₂ := { r₁ with master, statistics }
    if status = .failed then return (some .exhausted, r₂)
    else
      Journaled.note (.restart r₂.statistics.restarts (before.fails + (nextLimit r.cutoffs).1))
      return (none, { r₂ with inner := ← r₂.inner.reset master, exploresMaster := true })) := rfl

omit [CutoffSequence ρ] in
/-- The inner search begins a run in the tree below the master, at its limit of failures. -/
theorem reset_inner_law {statistics : Statistics} {limit : Nat}
    (hoptimising : r.optimising = r.master.objective.isSome)
    (hoptimises : r.master.objective.isSome = true → r.inner.optimises = true)
    (huser : P r.inner.stop.user) (hstopped : r.inner.stop.userStopped = false)
    (hlimit : r.inner.stop.failLimit = some limit)
    (hexplorer : r.inner.explorer?.isSome = true)
    (hstatistics : r.inner.statistics = .ok statistics) (hfails : statistics.fails < limit)
    (hroots : r.master.Roots δ posted chain)
    (hexact : ε → (r.master.tree posted chain).Exact) :
    Journaled.Yields δ (r.inner.reset r.master) fun inner => ∃ G,
      G.Opens δ (r.master.tree posted chain) ∧
      G.pending (r.master.tree posted chain) = r.master.solutions ∧
      Runs δ ε P (r.master.tree posted chain) statistics.fails G
        { r with inner, exploresMaster := true } := by
  refine (CompleteSearch.reset_law hroots.regular rfl hroots.represents hexplorer
    hstatistics).mono ?_
  rintro inner ⟨hcontinues, hstop, G, hopens, hseeks⟩
  have hpending : G.pending (r.master.tree posted chain) = r.master.solutions := by
    rw [hopens.pending]
    exact Set.ext fun a => hroots.mem_solutions_iff.symm
  refine ⟨G, hopens, hpending, ?_⟩
  exact
    { optimising := hoptimising
      optimises := fun hsome => hcontinues.optimises.trans (hoptimises hsome)
      exploresMaster := rfl
      user := by
        dsimp only
        rw [hstop]
        exact huser
      userStopped := by
        dsimp only
        rw [hstop]
        exact hstopped
      exact := hexact
      seeks := hseeks
      limited := fun _ => by
        dsimp only
        rw [hstop, hlimit]
        rfl
      master := fun _ => .roots hroots (.refl _) rfl fun _ => hpending.symm
      run := fun _ n hn => by
        dsimp only at hn
        rw [hstop, hlimit] at hn
        cases hn
        exact .inr ⟨hfails, rfl⟩ }

omit [CutoffSequence ρ] in
/-- Once the master has failed the search is over, and the inner search has the nodes left that it
had, under another limit. -/
theorem Runs.over {inner : CompleteSearch (Cutoff σ)} {limit : Nat} {master : Space}
    {statistics : Statistics} {cutoffs : ρ} (h : r.Runs δ ε P t since F)
    (hstop : inner.stop = { r.inner.stop with failLimit := some limit })
    (hoptimises : inner.optimises = r.inner.optimises) (hseeks : inner.Seeks δ t since F)
    (hfailed : master.isFailed = true) (hobjective : master.objective = t.objective)
    (hOpen : ε → F.pending t = ∅) :
    Runs δ ε P t since F { r with restart := false, inner, master, statistics, cutoffs } where
  optimising := h.optimising
  optimises hsome := hoptimises.trans (h.optimises hsome)
  exploresMaster := h.exploresMaster
  user := by
    dsimp only
    rw [hstop]
    exact h.user
  userStopped := by
    dsimp only
    rw [hstop]
    exact h.userStopped
  exact := h.exact
  seeks := hseeks
  limited _ := by
    dsimp only
    rw [hstop]
    rfl
  master _ := .failed hfailed hobjective hOpen
  run _ _ _ := .inl hfailed

/-- The search begins again. Nothing is lost or found again, and if the master has failed, then
nothing was left. -/
theorem begin_law (h : r.Runs δ ε P t since F) (hrestart : r.restart = true) :
    Journaled.Yields δ r.begin fun (outcome, r') => r'.restart = false ∧
      match outcome with
      | none => ∃ t' since' G, G.Opens δ t' ∧ t'.posted = r.inner.noGoods.1.extend t.posted ∧
          r.master.isFailed = false ∧ r.master.store.Narrows t'.root ∧ t'.root = r'.master.store ∧
          r'.master.Roots δ t'.posted t'.chain ∧ t'.objective = t.objective ∧
          (ε → G.pending t' = F.pending t) ∧ r'.Runs δ ε P t' since' G
      | some .exhausted => (ε → F.pending t = ∅) ∧ r'.master.isFailed = true ∧
          r'.Runs δ ε P t since F
      | some _ => False := by
  obtain ⟨before, after, hbefore, hafter, hfails⟩ := h.seeks.exists_statistics
  rw [begin_eq, hbefore]
  refine (Journaled.Yields.lift (show Yields δ (.ok before) (· = before) from rfl)).bind ?_
  intro statistics heq
  rw [heq]
  have hone := one_le_nextLimit r.cutoffs
  set r₁ := r.limited before.fails with hr₁
  have hseeks₁ : r₁.inner.Seeks δ t since F := h.seeks.withStop _
  have hmaster₁ : Masters δ ε t (F.pending t) r₁.master := h.master (.inl hrestart)
  have hnoGoods₁ : r₁.inner.noGoods.1 = r.inner.noGoods.1 := by
    show (r.inner.withStop _).noGoods.1 = _
    rw [CompleteSearch.noGoods_withStop]
  refine (learn_law (r := r₁) h.exploresMaster hseeks₁ hmaster₁).bind ?_
  rintro ⟨learnt, _⟩ ⟨master, rfl, hlearnt⟩
  obtain ⟨hstop, hoptimises, hafter₁⟩ : r₁.inner.noGoods.2.stop = { r.inner.stop with
        failLimit := some (before.fails + (nextLimit r.cutoffs).1) } ∧
      r₁.inner.noGoods.2.optimises = r.inner.optimises ∧
      r₁.inner.noGoods.2.statistics = .ok after := by
    show (r.inner.withStop _).noGoods.2.stop = _ ∧ (r.inner.withStop _).noGoods.2.optimises = _ ∧
      (r.inner.withStop _).noGoods.2.statistics = _
    simp [hafter]
  cases learnt with
  | false =>
    obtain ⟨hfailed, hobjective, hOpen⟩ := hlearnt
    exact Journaled.Yields.pure ⟨rfl, hOpen, hfailed,
      h.over hstop hoptimises hseeks₁.noGoods hfailed hobjective hOpen⟩
  | true =>
    obtain ⟨hstore, halive, hmaster⟩ := hlearnt
    rw [hnoGoods₁] at hmaster
    refine (hmaster.statusOf_law _).bind ?_
    rintro ⟨status, master', statistics'⟩ hstatus
    dsimp only at hstatus ⊢
    by_cases hf : status = .failed
    · rw [if_pos hf] at hstatus ⊢
      obtain ⟨hfailed, hobjective, hOpen⟩ := hstatus
      exact Journaled.Yields.pure ⟨rfl, hOpen, hfailed,
        h.over hstop hoptimises hseeks₁.noGoods hfailed hobjective hOpen⟩
    rw [if_neg hf] at hstatus ⊢
    obtain ⟨hfailed, hroots, hnarrows, hobjective, hsolutions⟩ := hstatus
    rw [hstore] at hnarrows
    rw [halive] at hfailed
    have hwithin : t.root.Narrows r.master.store := by
      rcases h.master (.inl hrestart) with ⟨hfailed', -⟩ | ⟨-, hwithin, -, -⟩
      · exact absurd (hfailed'.symm.trans hfailed) (by decide)
      · exact hwithin
    set r₂ : Restarts σ ρ := { r₁ with
      inner := r₁.inner.noGoods.2
      master := master'
      statistics := statistics' } with hr₂
    have hstop₂ : r₂.inner.stop = { r.inner.stop with
        failLimit := some (before.fails + (nextLimit r.cutoffs).1) } := hstop
    refine (Journaled.Yields.note _).bind fun _ _ => ?_
    refine (reset_inner_law (r := r₂) (P := P)
      (h.optimising.trans (congrArg Option.isSome hobjective.symm))
      (fun hsome => hoptimises.trans (h.optimises (hobjective ▸ hsome))) (hstop₂ ▸ h.user)
      (hstop₂ ▸ h.userStopped) (congrArg Cutoff.failLimit hstop₂) hseeks₁.noGoods.isSome_explorer
      hafter₁ (by omega) hroots
      fun hε => (h.exact hε).extend (hwithin.trans hnarrows) rfl rfl).bind ?_
    rintro inner ⟨G, hopens, hpending, hruns⟩
    exact Journaled.Yields.pure ⟨rfl, _, after.fails, G, hopens, rfl, hfailed, hnarrows, rfl,
      hroots, hobjective, fun hε => hpending.trans (hsolutions hε), hruns⟩

omit [CutoffSequence ρ] in
theorem Runs.sought (h : r.Runs δ ε P t since F) : r.inner.sought t = t.objective := by
  unfold CompleteSearch.sought
  cases ho : t.objective with
  | none => exact ite_self _
  | some o => exact if_pos (h.optimises (by rw [ho]; rfl))

omit [CutoffSequence ρ] in
/-- The master is bounded by a solution that was found. -/
theorem Runs.constrain_law (h : r.Runs δ ε P t since F) {o : Objective} (ho : t.objective = some o)
    (hs : t.Finds s) (hassigned : ε → s.store.Assigned) :
    Yields δ (r.master.constrain s)
      (Masters δ ε t (remaining t.objective s.store.assignment (F.pending t))) := by
  rcases h.master (.inr (h.limited (by rw [ho]; rfl))) with
    ⟨hfailed, hobjective, hOpen⟩ | ⟨hroots, hnarrows, hobjective, hsolutions⟩
  · refine (Tree.constrain_of_failed hfailed hobjective h.seeks.regular.objective hs).mono
      fun master hmaster => .failed hmaster.1 hmaster.2 fun hε => ?_
    rw [hOpen hε]
    exact Set.sep_empty _
  refine (hroots.constrain_law hs.sound (hs.size.trans hnarrows.size_ints.symm)
    (hobjective.trans ho)).mono fun master hmaster => ?_
  rw [ho]
  rcases hmaster with ⟨hfailed, hobjective', hOpen⟩ | ⟨hroots', hnarrows', hobjective', hsolutions'⟩
  · exact .failed hfailed (hobjective'.trans hobjective)
      fun hε => hsolutions hε ▸ hOpen (hassigned hε)
  · exact .roots hroots' (hnarrows.trans hnarrows') (hobjective'.trans hobjective)
      fun hε => hsolutions hε ▸ hsolutions' (hassigned hε)

omit [CutoffSequence ρ] in
/-- The search goes on with an inner search that has the same limit of failures. -/
theorem Runs.resumes {inner : CompleteSearch (Cutoff σ)} {G : Frontier} (h : r.Runs δ ε P t since F)
    (hoptimises : inner.optimises = r.inner.optimises) (huser : P inner.stop.user)
    (hstopped : inner.stop.userStopped = false)
    (hlimit : inner.stop.failLimit = r.inner.stop.failLimit) (hseeks : inner.Seeks δ t since G)
    (hpending : G.pending t = F.pending t) : Runs δ ε P t since G { r with inner } where
  optimising := h.optimising
  optimises hsome := hoptimises.trans (h.optimises hsome)
  exploresMaster := h.exploresMaster
  user := huser
  userStopped := hstopped
  exact := h.exact
  seeks := hseeks
  limited := hlimit ▸ h.limited
  master := hpending ▸ hlimit ▸ h.master
  run := hlimit ▸ h.run

omit [CutoffSequence ρ] in
/-- A run with a limit of failures may end at any time. -/
theorem Runs.restarts (h : r.Runs δ ε P t since F) (hlimit : r.inner.stop.failLimit.isSome = true) :
    Runs δ ε P t since F { r with restart := true } :=
  { h with
    master := fun _ => h.master (.inr hlimit)
    run := fun hfalse => by cases hfalse }

omit [CutoffSequence ρ] in
/-- The last run has no limit of failures, and the search does not begin again. -/
theorem Runs.of_unlimited (hoptimising : r.optimising = false) (hobjective : t.objective = none)
    (hexplores : r.exploresMaster = true) (hrestart : r.restart = false)
    (huser : P r.inner.stop.user) (hstopped : r.inner.stop.userStopped = false)
    (hexact : ε → t.Exact) (hseeks : r.inner.Seeks δ t since F) :
    Runs δ ε P t since F (r.setLimit none) := by
  have hstop : (r.setLimit none).inner.stop = { r.inner.stop with failLimit := none } :=
    CompleteSearch.stop_withStop _
  have hnone : (r.setLimit none).inner.stop.failLimit = none := congrArg Cutoff.failLimit hstop
  exact
    { optimising := by
        rw [hobjective]
        exact hoptimising
      optimises := fun hsome => by simp [hobjective] at hsome
      exploresMaster := hexplores
      user := hstop ▸ huser
      userStopped := hstop ▸ hstopped
      exact := hexact
      seeks := hseeks.withStop _
      limited := fun hsome => by simp [hobjective] at hsome
      master := fun hagain => by
        rw [hnone] at hagain
        rcases hagain with hagain | hagain
        · exact absurd (hrestart.symm.trans hagain) (by decide)
        · cases hagain
      run := fun _ n hn => by
        rw [hnone] at hn
        cases hn }

variable [StopCondition σ]

/-- What a step of the inner search does. It may reach the limit of failures, so that the search
will begin again. -/
def Advanced (δ ε : Prop) (P : σ → Prop) (P' : σ → Statistics → Prop) (t : Tree) (since : Nat)
    (F : Frontier) (r : Restarts σ ρ) : Option Outcome × Restarts σ ρ → Prop
  | (none, r') => r'.master = r.master ∧
      (r'.restart = false ∧ (∃ G, G.Lt t F ∧ r'.Runs δ ε P t since G) ∨
        r'.restart = true ∧ r'.Runs δ ε P t since F ∧
          ∃ n ∈ r.inner.stop.failLimit, ∃ statistics,
            r'.inner.statistics = .ok statistics ∧ n ≤ statistics.fails)
  | (some (.solution s), r') => (ε → s.store.Assigned ∧ s.store.assignment ∈ F.pending t) ∧
      ∃ t' G, t'.objective = t.objective ∧ r'.Runs δ ε P t' since G ∧
        (ε → G.pending t' = remaining t.objective s.store.assignment (F.pending t))
  | (some .exhausted, r') => F.pending t = ∅ ∧ r'.Runs δ ε P t since ⟨[], none⟩
  | (some .stopped, r') => r'.Runs δ ε P t since F ∧ ∃ statistics, P' r'.inner.stop.user statistics

theorem step_inner_law (hpolls : Polls δ P P')
    (hback : ∀ stop statistics, P' stop statistics → P stop)
    (h : r.Runs δ ε P t since F) (hrestart : r.restart = false) :
    Journaled.Yields δ r.step (Advanced δ ε P P' t since F r) := by
  unfold step
  rw [if_neg (by rw [hrestart]; decide)]
  refine (CompleteSearch.step_law (polls_cutoff hpolls r.inner.stop.failLimit)
    ⟨h.user, rfl, h.userStopped⟩ h.seeks).bind ?_
  rintro ⟨outcome, inner⟩ ⟨hcontinues, hstepped⟩
  have hoptimises (hsome : t.objective.isSome = true) :=
    hcontinues.optimises.trans (h.optimises hsome)
  match outcome with
  | none =>
    obtain ⟨⟨huser, hlimit, hstopped⟩, G, hlt, hseeks⟩ := hstepped
    exact Journaled.Yields.pure ⟨rfl, .inl ⟨hrestart, G, hlt,
      h.resumes hcontinues.optimises huser hstopped hlimit hseeks hlt.pending⟩⟩
  | some (.solution s) =>
    obtain ⟨⟨huser, hlimit, hstopped⟩, hfinds, goal, G, -, hbound, hseeks, hfound⟩ := hstepped
    rw [h.sought] at hfound
    have hsolution (hε : ε) := hfound (h.exact hε)
    have hexact (hε : ε) : Tree.Exact { t with goal } :=
      ⟨⟨(h.exact hε).decides.ints, (h.exact hε).decides.sets⟩, (h.exact hε).oriented⟩
    dsimp only
    cases ho : t.objective with
    | some o =>
      have hkind : r.optimising = true := by rw [h.optimising, ho]; rfl
      rw [if_pos hkind]
      refine (Journaled.Yields.lift (h.constrain_law ho hfinds fun hε => (hsolution hε).1)).bind
        fun master hmaster => Journaled.Yields.pure
          ⟨fun hε => ⟨(hsolution hε).1, (hsolution hε).2.1⟩,
          { t with goal }, G, rfl, ?_, fun hε => (hsolution hε).2.2⟩
      exact
        { optimising := h.optimising
          optimises := hoptimises
          exploresMaster := h.exploresMaster
          user := huser
          userStopped := hstopped
          exact := hexact
          seeks := hseeks
          limited := hlimit ▸ h.limited
          master := fun _ => (hmaster.retarget goal).congr fun hε => (hsolution hε).2.2.symm
          run := fun hfalse => by cases hfalse }
    | none =>
      have hkind : ¬r.optimising = true := by rw [h.optimising, ho]; decide
      rw [if_neg hkind]
      have hruns : Runs δ ε P { t with goal } since G ({ r with inner }.setLimit none) :=
        .of_unlimited (Bool.eq_false_of_not_eq_true hkind) ho h.exploresMaster hrestart huser
          hstopped
          hexact hseeks
      exact Journaled.Yields.pure ⟨fun hε => ⟨(hsolution hε).1, (hsolution hε).2.1⟩,
        { t with goal }, G, rfl, hruns, fun hε => (hsolution hε).2.2⟩
  | some .exhausted =>
    obtain ⟨⟨huser, hlimit, hstopped⟩, hempty, hseeks⟩ := hstepped
    unfold endRun
    dsimp only
    rw [hstopped]
    have hpending : Frontier.pending t ⟨[], none⟩ = F.pending t :=
      (Frontier.pending_nil t).trans hempty.symm
    exact Journaled.Yields.pure
      ⟨hempty, h.resumes hcontinues.optimises huser hstopped hlimit hseeks hpending⟩
  | some .stopped =>
    obtain ⟨hseeks, statistics, hstatistics, hlimit, hholds⟩ := hstepped
    unfold endRun
    dsimp only
    by_cases hstopped : inner.stop.userStopped = true
    · rw [if_pos hstopped] at hholds ⊢
      have hstop : (inner.withStop { inner.stop with userStopped := false }).stop =
          { inner.stop with userStopped := false } := CompleteSearch.stop_withStop _
      refine Journaled.Yields.pure ⟨h.resumes ?_ ?_ ?_ ?_ (hseeks.withStop _) rfl, statistics, ?_⟩
      · exact (CompleteSearch.optimises_withStop _).trans hcontinues.optimises
      · rw [hstop]
        exact hback _ _ hholds
      · rw [hstop]
      · rw [hstop]
        exact hlimit
      · dsimp only
        rw [hstop]
        exact hholds
    · rw [if_neg hstopped] at hholds ⊢
      obtain ⟨huser, n, hn, hle⟩ := hholds
      have hruns : Runs δ ε P t since F { r with inner } :=
        h.resumes hcontinues.optimises huser (Bool.eq_false_of_not_eq_true hstopped) hlimit hseeks
          rfl
      have hsome : inner.stop.failLimit.isSome = true := by
        rw [hlimit, Option.mem_def.1 hn]
        rfl
      exact Journaled.Yields.pure
        ⟨rfl, .inr ⟨rfl, hruns.restarts hsome, n, hn, statistics, hstatistics, hle⟩⟩

/-! ### Searches -/

/-- A restart-based search that has the solutions in `Open` left to find. -/
def Seeks (δ ε : Prop) (P : σ → Prop) (objective : Option Objective) (Open : Set Assignment)
    (r : Restarts σ ρ) : Prop :=
  ∃ t since F, r.Runs δ ε P t since F ∧ t.objective = objective ∧ (ε → F.pending t = Open)

omit [StopCondition σ] in
/-- A restart-based search of a root begins. -/
theorem start_law (hroots : s.Roots δ posted chain) (hexact : ε → (s.tree posted chain).Exact)
    {threads : Nat} (hthreads : threads ≤ 1) (exploration : Exploration) (recorded : Bool)
    (cutoffs : ρ) {stop : σ} (hstop : P stop) :
    Journaled.Yields δ (start s threads exploration recorded cutoffs stop)
      (Seeks δ ε P s.objective s.solutions) := by
  have hone := one_le_nextLimit cutoffs
  refine (CompleteSearch.start_law hroots.regular rfl hroots.represents hthreads s.objective.isSome
    exploration recorded (Cutoff.mk stop (some (nextLimit cutoffs).1) false)).bind ?_
  rintro inner ⟨hoptimises, hinner, -, F, hopens, hseeks⟩
  have hpending : F.pending (s.tree posted chain) = s.solutions := by
    rw [hopens.pending]
    exact Set.ext fun a => hroots.mem_solutions_iff.symm
  refine Journaled.Yields.pure ⟨s.tree posted chain, 0, F, ?_, rfl, fun _ => hpending⟩
  exact
    { optimising := rfl
      optimises := hoptimises.trans
      exploresMaster := rfl
      user := by
        dsimp only
        rw [hinner]
        exact hstop
      userStopped := by
        dsimp only
        rw [hinner]
      exact := hexact
      seeks := hseeks
      limited := fun _ => by
        dsimp only
        rw [hinner]
        rfl
      master := fun _ => .roots hroots (.refl _) rfl fun _ => hpending.symm
      run := fun _ n hn => by
        dsimp only at hn
        rw [hinner] at hn
        cases hn
        exact .inr ⟨hone, rfl⟩ }

end Restarts

variable {σ ρ : Type} [condition : StopCondition σ] [CutoffSequence ρ] {search : Search σ ρ}

/-- What a restart-based search reports, with a lawful stop condition. -/
theorem Search.restarts_law [LawfulStopCondition σ] (h : ∃ r, search = .restarts r ∧
    r.Seeks True True (fun _ : Option σ => True) objective Open) :
    Journaled.Yields True search.step
      (Engine.Reported objective (fun Open search => ∃ r, search = .restarts r ∧
        r.Seeks True True (fun _ => True) objective Open) Open) := by
  obtain ⟨r, rfl, t, since, F, hruns, rfl, hOpen⟩ := h
  obtain rfl := hOpen trivial
  show Journaled.Yields True (r.step >>= fun p => pure (p.1, Search.restarts p.2)) _
  cases hrestart : r.restart with
  | true =>
    have hstep : r.step = r.begin := if_pos hrestart
    rw [hstep]
    refine (Restarts.begin_law hruns hrestart).bind ?_
    rintro ⟨outcome, r'⟩ ⟨-, hbegun⟩
    refine Journaled.Yields.pure ?_
    rcases outcome with _ | s | _ | _
    · obtain ⟨t', since', G, -, -, -, -, -, -, hobjective, hpending, hruns'⟩ := hbegun
      exact ⟨r', rfl, t', since', G, hruns', hobjective, hpending⟩
    · exact hbegun.elim
    · exact ⟨hbegun.1 trivial, r', rfl, t, since, F, hbegun.2.2, rfl, fun _ => rfl⟩
    · exact hbegun.elim
  | false =>
    refine (Restarts.step_inner_law polls_any (fun _ _ _ => trivial) hruns hrestart).bind ?_
    rintro ⟨outcome, r'⟩ hadvanced
    refine Journaled.Yields.pure ?_
    rcases outcome with _ | s | _ | _
    · rcases hadvanced.2 with ⟨-, G, hlt, hruns'⟩ | ⟨-, hruns', -⟩
      · exact ⟨r', rfl, t, since, G, hruns', rfl, fun _ => hlt.pending⟩
      · exact ⟨r', rfl, t, since, F, hruns', rfl, fun _ => rfl⟩
    · obtain ⟨hfound, t', G, hobjective, hruns', hpending⟩ := hadvanced
      obtain ⟨hassigned, hmem⟩ := hfound trivial
      exact ⟨hassigned, hmem, r', rfl, t', since, G, hruns', hobjective, hpending⟩
    · exact ⟨hadvanced.1, r', rfl, t, since, _, hadvanced.2, rfl,
        fun _ => (Frontier.pending_nil t).trans hadvanced.1.symm⟩
    · exact ⟨r', rfl, t, since, F, hadvanced.1, rfl, fun _ => rfl⟩

/-- What a restart-based search reports, whatever its stop condition is. -/
theorem Search.ensures_restarts (h : ∃ r, search = .restarts r ∧
    r.Seeks True True (fun _ : Option σ => True) objective Open) :
    search.step.Ensures
      (Engine.Reported objective (fun Open search => ∃ r, search = .restarts r ∧
        r.Seeks True True (fun _ => True) objective Open) Open) := by
  have hsequential : search.IsSequential := by
    obtain ⟨r, rfl, t, since, F, hruns, -⟩ := h
    exact hruns.seeks.isSome_explorer
  refine ensures_step_of_tamed hsequential ?_
  have hlawful := condition.lawful_tamed
  let tamed := condition.tamed
  exact (restarts_law h).ensures

/-- **Restarts lose nothing and find nothing twice.** Whatever its stop condition is, and however
often it is called, a restart-based engine returns solutions of what was built, each once, or, with
an objective, each better than those before. When a call that was not stopped returns nothing, all
solutions were returned, or the last one is an optimum. -/
theorem Built.restarts_exact {policy : Policy} {statements : List Statement}
    {objective : Option Objective} {options : SearchOptions σ ρ} {e e' : Engine σ ρ} {rest : Space}
    {found : List Space} (h : Built policy statements s) (hw : Searchable True statements)
    (hcovered : Covered statements s.store)
    (ho : ∀ o ∈ objective, o.variable.index < s.store.ints.size) (hthreads : options.threads = 1)
    (hstart : (Engine.start .restarts { s with objective } options).run.Returns (.ok (e, rest)))
    (hcalls : e.Calls found e') :
    (∀ s' ∈ found, s'.store.Assigned ∧ SolutionOf statements s s'.store.assignment) ∧
      (found.map (·.store.assignment)).Nodup ∧
      (∀ o ∈ objective, (found.map (·.store.assignment)).Pairwise fun a b => o.Better b a) ∧
      ∀ steps e'', (e'.next steps).Returns (none, e'') → e''.hasStopped = false →
        match objective, found.getLast? with
        | none, _ => ∀ a, SolutionOf statements s a → a ∈ found.map (·.store.assignment)
        | some _, none => ∀ a, ¬SolutionOf statements s a
        | some o, some best => ∀ a, SolutionOf statements s a →
          ¬o.Better a best.store.assignment := by
  obtain ⟨posted, hcompiles, hroots⟩ := h.exists_roots hw.proper hw.branched fun o hmem =>
    ⟨ho o hmem, .inr trivial⟩
  set root : Space := { s with objective }
  have hexact : (root.tree posted ((branchings statements).map Brancher.base)).Exact :=
    Tree.exact_of_covered hcompiles hw.distinct rfl rfl hcovered
  have hsolutions : root.solutions = {a | SolutionOf statements s a} := Set.ext fun a =>
    hroots.mem_solutions_iff.trans (Tree.solution_iff hcompiles rfl rfl)
  rw [Engine.start_eq hthreads fun hkind => by cases hkind] at hstart
  obtain ⟨search, hsearch, hstart⟩ := Journaled.exists_of_returns_bind hstart
  cases Journaled.of_returns_pure hstart
  obtain ⟨r, hr, hsearch⟩ := Journaled.exists_of_returns_bind hsearch
  cases Journaled.of_returns_pure hsearch
  have hseeks := (Restarts.start_law (ε := True) (P := fun _ : Option σ => True) hroots
    (fun _ => hexact) hthreads.le options.exploration options.isTraced options.cutoffs
    trivial).of_returns hr
  rw [hsolutions] at hseeks
  have hreports := Engine.reports_of_step
    (I := fun Open search => ∃ r, search = .restarts r ∧
      r.Seeks True True (fun _ : Option σ => True) objective Open)
    fun Open (search : Search σ ρ) => Search.ensures_restarts
  obtain ⟨himproves, hI⟩ := hcalls.law hreports ⟨r, rfl, hseeks⟩
  refine ⟨fun s' hs' => ⟨himproves.assigned s' hs', himproves.mem s' hs'⟩, ?_, fun o ho => ?_,
    fun steps e'' hreturns hstopped => ?_⟩
  · exact himproves.pairwise.imp fun hab => Ne.symm hab.1
  · exact himproves.pairwise.imp fun hab => hab.2 o ho
  have hleft := (hreports _ _ _ _ _ hI hreturns).2 hstopped
  match objective with
  | none =>
    intro a ha
    by_contra hnot
    exact (Set.ext_iff.1 hleft a).1 (Engine.mem_leftAfter_none.2 ⟨ha, hnot⟩)
  | some o =>
    have hoptimal := himproves.optimal hleft
    cases hlast : found.getLast? with
    | none =>
      rw [hlast] at hoptimal
      exact fun a ha => (Set.ext_iff.1 hoptimal a).1 ha
    | some best =>
      rw [hlast] at hoptimal
      exact hoptimal

/-- The least value of the second of two different variables is found in the second run. -/
theorem Built.restarts_exact_differing : ∃ s, ∃ e : Engine, ∃ rest found e' best,
    Built .costOrdered differing s ∧
      (Engine.start .restarts { s with objective := some (.minimise (.root 1)) }
        { cutoffs := .constant 9 }).run.Returns (.ok (e, rest)) ∧
      e.Calls found e' ∧ found.length = 2 ∧
      (found.map (·.store.assignment)).Pairwise
        (fun a b => (Objective.minimise (.root 1)).Better b a) ∧
      found.getLast? = some best ∧ SolutionOf differing s best.store.assignment ∧
      ∀ a, SolutionOf differing s a →
        ¬(Objective.minimise (.root 1)).Better a best.store.assignment := by
  have hcheck : buildsTo .costOrdered differing (fun s =>
      Covered differing s.store && decide (1 < s.store.ints.size) &&
        Engine.runsTo .restarts { cutoffs := .constant 9 } 9 9 (fun found _ e' =>
          decide (found.length = 2) &&
            (e'.next 9).check fun (r, e'') => r.isNone && !e''.hasStopped)
        { s with objective := some (.minimise (.root 1)) }) = true := by
    decide +kernel
  obtain ⟨s, hs, hproperty⟩ := exists_built_of_buildsTo hcheck
  rw [Bool.and_eq_true, Bool.and_eq_true, decide_eq_true_eq, decide_eq_true_eq] at hproperty
  obtain ⟨⟨hcovered, hsize⟩, hruns⟩ := hproperty
  obtain ⟨e, rest, found, ended, e', hstart, htake, hfound⟩ := Engine.exists_of_runsTo hruns
  rw [Bool.and_eq_true, decide_eq_true_eq] at hfound
  obtain ⟨hlength, hnext⟩ := hfound
  obtain ⟨⟨r, e''⟩, hnext, hnone⟩ := Journaled.exists_of_check hnext
  rw [Bool.and_eq_true, Option.isNone_iff_eq_none, Bool.not_eq_true'] at hnone
  obtain ⟨rfl, hstopped⟩ := hnone
  have hcalls := Engine.calls_of_take htake
  have hadmits : ∀ o ∈ some (Objective.minimise (.root 1)),
      o.variable.index < s.store.ints.size := by
    rintro o ho
    cases ho
    exact hsize
  obtain ⟨hsolutions, -, hpairwise, hoptimal⟩ :=
    hs.restarts_exact (by decide) hcovered hadmits rfl hstart hcalls
  have hoptimal := hoptimal 9 e'' hnext hstopped
  cases hlast : found.getLast? with
  | none =>
    rw [List.getLast?_eq_none_iff.1 hlast] at hlength
    cases hlength
  | some best =>
    rw [hlast] at hoptimal
    exact ⟨s, e, rest, found, e', best, hs, hstart, hcalls, hlength, hpairwise _ rfl, hlast,
      (hsolutions best (List.mem_of_getLast? hlast)).2, hoptimal⟩

/-- A restart-based search comes to its end, and has not returned all assignments that satisfy the
constraints. -/
def MissesByRestarts (statements : List Statement) : Prop :=
  ∃ s, ∃ e : Engine, ∃ rest found e', Built .costOrdered statements s ∧
    (∀ c ∈ postings statements, c.Distinct) ∧ Covered statements s.store ∧
    (Engine.start .restarts s { cutoffs := .constant 9 }).run.Returns (.ok (e, rest)) ∧
    (e.take 9 9).Returns (found, true, e') ∧ e'.hasStopped = false ∧
    ∃ a : Assignment, a.Within s.store ∧ (∀ c ∈ postings statements, c.Holds a) ∧
      a ∉ found.map (·.store.assignment)

theorem missesByRestarts_of_check {statements : List Statement} {v w : Int}
    (hcheck : buildsTo .costOrdered statements (fun s =>
      Covered statements s.store && s.store.admits [v, w] &&
        Engine.runsTo .restarts { cutoffs := .constant 9 } 9 9 (fun found ended e' =>
          ended && !e'.hasStopped && decide (∀ s ∈ found,
            ¬(s.store.assignment.ints 0 = v ∧ s.store.assignment.ints 1 = w))) s) = true)
    (hdistinct : ∀ c ∈ postings statements, c.Distinct)
    (hholds : ∀ c ∈ postings statements, c.Holds (.ofInts [v, w])) :
    MissesByRestarts statements := by
  obtain ⟨s, hs, hproperty⟩ := exists_built_of_buildsTo hcheck
  rw [Bool.and_eq_true, Bool.and_eq_true, decide_eq_true_eq] at hproperty
  obtain ⟨⟨hcovered, hadmits⟩, hruns⟩ := hproperty
  obtain ⟨e, rest, found, ended, e', hstart, htake, hfound⟩ := Engine.exists_of_runsTo hruns
  rw [Bool.and_eq_true, Bool.and_eq_true, decide_eq_true_eq, Bool.not_eq_true'] at hfound
  obtain ⟨⟨rfl, hstopped⟩, hdiffer⟩ := hfound
  refine ⟨s, e, rest, found, e', hs, hdistinct, hcovered, hstart, htake, hstopped,
    .ofInts [v, w], Store.within_of_admits hadmits, hholds, fun hmem => ?_⟩
  obtain ⟨s', hs', heq⟩ := List.mem_map.1 hmem
  refine hdiffer s' hs' ?_
  rw [heq]
  exact ⟨rfl, rfl⟩

/-- Two variables that can be exchanged. -/
def interchanged : List Statement :=
  [.newInt 0 1, .newInt 0 1, .branch (.int { IntBrancher.ofVariables [.root 0, .root 1] .inputOrder
    .min with symmetries := [.positions [0, 1]] })]

/-- The solution with `x = z = 2 ^ 29` is missed by each run. Of two solutions that can be
exchanged, one is missed. -/
theorem Built.exists_unreported_restarts :
    (Searchable True saturating ∧ MissesByRestarts saturating) ∧ MissesByRestarts interchanged := by
  refine ⟨⟨by decide, missesByRestarts_of_check (v := 536870912) (w := 536870912) ?_ (by decide)
    (by decide)⟩, missesByRestarts_of_check (v := 1) (w := 0) ?_ (by decide) (by decide)⟩
  · decide +kernel
  · decide +kernel

end ConstraintSearch
