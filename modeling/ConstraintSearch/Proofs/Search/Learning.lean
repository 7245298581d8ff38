import ConstraintSearch.Proofs.Search.Engine
import ConstraintSearch.Proofs.Search.NoGoods

/-!
# What no-goods leave

The no-goods of a search that was interrupted, posted into its root. What they leave is what the
search has still to find.

* `Space.solutions`: the assignments under which nothing of a space would be narrowed;
* `Space.Roots`, `Space.Roots.enumerates`: a space whose solutions are found by a depth-first
  search;
* `NoGoods.post_law`: the space into which no-goods are posted;
* `Explorer.Explores.pending_eq`: what an exploration has still to find;
* `Built.enumerates_noGoods`: the search of the root with the no-goods posted.
-/

namespace ConstraintSearch

variable {δ : Prop} {t : Tree} {s s' : Space} {posted : List Propagator} {chain : List Brancher}
  {a : Assignment} {Open : Set Assignment}

/-! ### Roots -/

namespace Space

/-- The assignments of the domains under which all propagators are stable. -/
def solutions (s : Space) : Set Assignment :=
  {a | a.Within s.store ∧ ∀ n p, s.propagator? n = some p → p.Stable a.box}

/-- The tree below a space. -/
def tree (s : Space) (posted : List Propagator) (chain : List Brancher) : Tree :=
  ⟨posted, chain, s.store, s.objective, Set.univ⟩

/-- The space has the propagators that were posted and the branchers of a chain. -/
structure Roots (δ : Prop) (posted : List Propagator) (chain : List Brancher) (s : Space) :
    Prop where
  tracks : s.Tracks δ posted none
  lineup : Lineup chain s.store s.branchers s.active
  objective : ∀ o ∈ s.objective, o.variable.Admissible δ s.store

/-- Every depth-first search of the space ends, and finds each of the assignments once, unless
arithmetic faults. -/
def Enumerates (δ : Prop) (s : Space) (Open : Set Assignment) : Prop :=
  ∀ (σ ρ : Type) [StopCondition σ] [CutoffSequence ρ] (options : SearchOptions σ ρ),
    options.threads = 1 → options.stop = none →
      Journaled.Yields δ (Engine.start .depthFirst s options).run fun r =>
        ∃ e rest, r = .ok (e, rest) ∧
          ∃ n, ∀ steps > n, ∀ count > n, Journaled.Yields δ (e.take steps count)
            fun (found, ended, _) => ended = true ∧ Engine.Lists found Open

namespace Roots

variable {levels : List NoGoodLevel}

theorem regular (h : s.Roots δ posted chain) : (s.tree posted chain).Regular δ :=
  ⟨h.tracks.ready.sound, h.objective⟩

theorem represents (h : s.Roots δ posted chain) :
    (s.tree posted chain).Represents δ s (s.tree posted chain).whole :=
  .stands ⟨h.tracks, h.lineup, rfl, Tree.frames_whole h.tracks.ready.sound⟩

/-- The propagators in the slots are stable for the same assignments as those that were posted. -/
theorem mem_solutions_iff (h : s.Roots δ posted chain) :
    a ∈ s.solutions ↔ (s.tree posted chain).Solution a := by
  constructor
  · rintro ⟨ha, hslots⟩
    refine ⟨ha, ha.sound, fun q hq => ?_, Set.mem_univ _⟩
    obtain ⟨n, hn⟩ := List.mem_iff_getElem?.1 hq
    cases hslot : s.propagator? n with
    | none =>
      have haccounts := h.tracks.accounts n q hn
      rw [hslot] at haccounts
      exact haccounts _ ha.sound ha.box
    | some p =>
      exact ((h.tracks.upholds hn hslot).agrees _ ha.sound ha.box).2 (hslots n p hslot)
  · rintro ⟨ha, hw⟩
    refine ⟨ha, fun n p hslot => ?_⟩
    obtain ⟨q, hq⟩ := h.tracks.exists_posted hslot
    exact ((h.tracks.upholds hq hslot).agrees _ ha.sound ha.box).1
      (hw.consistent q (List.mem_of_getElem? hq))

/-- A depth-first search of a root finds its solutions. -/
theorem enumerates (h : s.Roots δ posted chain) (hexact : (s.tree posted chain).Exact) :
    s.Enumerates δ s.solutions := by
  intro σ ρ _ _ options hthreads hstop
  refine (Engine.start_law h.regular rfl h.represents hthreads (.inl rfl)).mono ?_
  rintro _ ⟨e, rest, search, F, rfl, hbegins⟩
  have hseeks : e.search.Seeks δ (· = none) none (F.bound (s.tree posted chain)) s.solutions := by
    rw [hbegins.eq]
    refine ⟨hbegins.stop.trans hstop, s.tree posted chain, 0, F, ?_, hexact, hbegins.seeks, ?_,
      le_refl _⟩
    · unfold CompleteSearch.sought
      rw [hbegins.optimises]
      rfl
    · rw [hbegins.opens.pending]
      exact Set.ext fun a => h.mem_solutions_iff.symm
  exact ⟨e, rest, rfl, _, fun steps hsteps count hcount => Engine.take_law hseeks hsteps hcount⟩

/-- No-goods can be posted into a root. -/
theorem posting (h : s.Roots δ posted chain)
    (hlevels : ∀ level ∈ levels, level.Admissible δ s.store) :
    (s.posting (.noGoods levels 0)).Roots δ (posted ++ [.noGoods levels 0]) chain where
  tracks := h.tracks.posting ⟨hlevels, fun _ hlevel => absurd hlevel List.not_mem_nil⟩
  lineup := h.lineup
  objective := h.objective

theorem solutions_posting (h : s.Roots δ posted chain)
    (hlevels : ∀ level ∈ levels, level.Admissible δ s.store) :
    (s.posting (.noGoods levels 0)).solutions =
      {a ∈ s.solutions | NoGoods.Permits levels a.box} := by
  ext a
  rw [Set.mem_sep_iff, (h.posting hlevels).mem_solutions_iff, h.mem_solutions_iff]
  constructor
  · rintro ⟨ha, hw⟩
    refine ⟨⟨ha, ha.sound, fun q hq => ?_, Set.mem_univ _⟩, ?_⟩
    · exact hw.consistent q (List.mem_append_left _ hq)
    · exact hw.consistent (.noGoods levels 0) (List.mem_append_right _ (List.mem_singleton.2 rfl))
  · rintro ⟨⟨ha, hw⟩, hpermits⟩
    refine ⟨ha, ha.sound, fun q hq => ?_, Set.mem_univ _⟩
    rcases List.mem_append.1 hq with hq | hq
    · exact hw.consistent q hq
    · rw [List.mem_singleton.1 hq]
      exact hpermits

end Roots

end Space

/-- What was posted, and no-goods with levels. -/
def NoGoods.extend (n : NoGoods) (posted : List Propagator) : List Propagator :=
  match n.levels with
  | [] => posted
  | levels => posted ++ [.noGoods levels 0]

/-- No-goods narrow each variable from one side only. -/
theorem NoGoods.oriented_extend (n : NoGoods) (h : ∀ q ∈ posted, q.Oriented) :
    ∀ q ∈ n.extend posted, q.Oriented := by
  unfold extend
  cases n.levels with
  | nil => exact h
  | cons level levels =>
    intro q hq
    rcases List.mem_append.1 hq with hq | hq
    · exact h q hq
    · rw [List.mem_singleton.1 hq]
      trivial

/-- With no-goods posted, and with smaller domains, a tree stays exact. -/
theorem Tree.Exact.extend {t' : Tree} (h : t.Exact) (hnarrows : t.root.Narrows t'.root)
    (hchain : t'.chain = t.chain) {n : NoGoods} (hposted : t'.posted = n.extend t.posted) :
    t'.Exact where
  decides :=
    { ints := fun i hi => hchain ▸ h.decides.ints i (hnarrows.size_ints ▸ hi)
      sets := fun i hi => hchain ▸ h.decides.sets i (hnarrows.size_sets ▸ hi) }
  oriented := hposted ▸ n.oriented_extend h.oriented

/-- No-goods over variables of a root can be posted into it. They leave the solutions that they
permit. -/
theorem NoGoods.post_law {n : NoGoods} (h : s.Roots δ posted chain)
    (hlevels : ∀ level ∈ n.levels, level.Admissible δ s.store) : ∃ s',
      (∀ journal, ((n.post s).run journal).1 = .ok (.ok s')) ∧ s'.Roots δ (n.extend posted) chain ∧
      s'.store = s.store ∧ s'.objective = s.objective ∧
      s'.solutions = {a ∈ s.solutions | NoGoods.Permits n.levels a.box} := by
  unfold extend
  cases hn : n.levels with
  | nil =>
    refine ⟨s, fun journal => ?_, h, rfl, rfl, ?_⟩
    · unfold post
      rw [hn]
      rfl
    · simp only [Permits, and_true]
      exact Set.ofPred_mem_eq.symm
  | cons level levels =>
    rw [hn] at hlevels
    refine ⟨s.posting (.noGoods (level :: levels) 0), fun journal => ?_, h.posting hlevels, rfl,
      rfl, h.solutions_posting hlevels⟩
    have hformed : (Propagator.noGoods (level :: levels) 0).WellFormed δ s.store :=
      ⟨hlevels, fun _ hlevel => absurd hlevel List.not_mem_nil⟩
    have hpost := Space.post_eq h.tracks.ready.alive hformed
    unfold post
    rw [hn]
    dsimp only
    rw [hpost]
    rfl

/-- The literals that are excluded at once. -/
def Propagator.excluded : Propagator → List Literal
  | .noGoods (level :: _) _ => level.explored
  | _ => []

theorem Propagator.Stable.refuted {p : Propagator} {F : Box} (h : p.Stable F) :
    ∀ l ∈ p.excluded, l.Refuted F := by
  unfold excluded
  split
  · exact h.1
  · exact fun _ hl => absurd hl List.not_mem_nil

/-- What was built is a root. -/
theorem Built.exists_roots {policy : Policy} {statements : List Statement}
    {objective : Option Objective} (h : Built policy statements s)
    (hproper : ∀ c ∈ postings statements, ∀ x ∈ c.vars, x.Proper ∨ δ)
    (hbranched : Branched 0 0 statements)
    (ho : ∀ o ∈ objective, o.variable.Admissible δ s.store) : ∃ posted,
      Compiles (postings statements) posted ∧
      Space.Roots δ posted ((branchings statements).map Brancher.base) { s with objective } := by
  obtain ⟨posted, hcompiles, htracks⟩ := h.tracks hproper
  exact ⟨posted, hcompiles, htracks.congr rfl rfl, (h.arranged hbranched).lineup, ho⟩

/-! ### The no-goods of an exploration -/

namespace Explorer

variable {mark : Nat} {limit : Option Nat} {best : Option Space} {e : Explorer} {F : Frontier}

/-- A node is left to explore: it is at hand, or the path leads to it. -/
def HasNode (e : Explorer) : Prop := e.current.isSome = true ∨ e.path.isEmpty = false

instance (e : Explorer) : Decidable e.HasNode :=
  inferInstanceAs (Decidable (e.current.isSome = true ∨ _))

theorem Explores.nested (h : e.Explores δ t limit mark F) : ∀ Q ∈ F.ahead, Nested F.trail Q := by
  intro Q hQ
  cases hcurrent : e.current with
  | some s =>
    obtain ⟨Q', hahead, hpoised⟩ := h.current s hcurrent
    cases hahead.symm.trans hQ
    exact hpoised.nested
  | none =>
    obtain ⟨hF, hanchored⟩ := h.rebuildable hcurrent
    rw [hF] at hQ
    obtain ⟨f, hf, rfl⟩ := Option.map_eq_some_iff.1 hQ
    exact (hanchored f hf).nested

/-- The no-goods permit what is still to be found. -/
theorem Explores.permits_of_pending {n : Nat} (h : e.Explores δ t (some n) mark F)
    (ha : a ∈ F.pending t) : NoGoods.Permits e.path.noGoods.levels a.box :=
  Frontier.permits_of_pending h.keeps.valid (h.keeps.linked n rfl) h.nested h.keeps.carries ha

/-- If all edges of the path are recorded, then the no-goods exclude what is not to be found. -/
theorem Explores.pending_eq {n : Nat} (h : e.Explores δ t (some n) mark F) (hnode : e.HasNode)
    (hlimit : e.path.length ≤ n) :
    F.pending t = {a | t.Solution a ∧ NoGoods.Permits e.path.noGoods.levels a.box} := by
  have hkeeps := h.keeps
  rw [hkeeps.carries.length] at hlimit
  cases hcurrent : e.current with
  | some s =>
    obtain ⟨Q, hahead, hpoised⟩ := h.current s hcurrent
    exact Frontier.pending_eq_permitted hkeeps.valid (hkeeps.linked n rfl) hkeeps.carries hlimit
      hahead hpoised.nested (hpoised.leads n rfl hlimit)
  | none =>
    obtain ⟨hF, hanchored⟩ := h.rebuildable hcurrent
    have hpath : e.path.isEmpty = false := by
      rcases hnode with hsome | hpath
      · rw [hcurrent] at hsome
        cases hsome
      · exact hpath
    unfold Path.isEmpty at hpath
    rw [hkeeps.carries.edges, List.isEmpty_map] at hpath
    generalize F.trail = trail at hF hanchored hkeeps hlimit hpath
    subst hF
    cases trail with
    | nil => cases hpath
    | cons f trail =>
      exact Frontier.pending_eq_permitted hkeeps.valid (hkeeps.linked n rfl) hkeeps.carries hlimit
        rfl (hanchored f rfl).nested ((hkeeps.linked n rfl).leads rfl hlimit)

end Explorer

/-! ### Depth-first searches -/

variable {σ ρ : Type} [condition : StopCondition σ] [CutoffSequence ρ]

/-- A depth-first search that has a node left to explore, with a path that is not longer. -/
def Search.isUnderway (limit : Nat) : Search σ ρ → Bool
  | .complete (.depthFirst d) => d.explorer.HasNode && decide (d.explorer.path.length ≤ limit)
  | _ => false

omit [StopCondition σ] [CutoffSequence ρ] in
theorem Search.exists_of_isUnderway {limit : Nat} {search : Search σ ρ}
    (h : search.isUnderway limit = true) : ∃ d, search = .complete (.depthFirst d) ∧
      d.explorer.HasNode ∧ d.explorer.path.length ≤ limit := by
  unfold isUnderway at h
  split at h
  · rename_i d
    rw [Bool.and_eq_true, decide_eq_true_eq, decide_eq_true_eq] at h
    exact ⟨d, rfl, h⟩
  · cases h

/-- A depth-first search of the tree, which has the solutions in `Open` left to find. -/
def Search.Walks (t : Tree) (exploration : Exploration) (Open : Set Assignment)
    (search : Search σ ρ) : Prop :=
  ∃ d F, search = .complete (.depthFirst d) ∧ d.explorer.exploration = exploration ∧
    d.explorer.Searches True t none 0 0 F ∧ F.pending t = Open

variable {exploration : Exploration}

/-- What a depth-first search reports, with a lawful stop condition. -/
theorem Search.Walks.step_law [LawfulStopCondition σ] (ht : t.Exact) {search : Search σ ρ}
    (h : search.Walks t exploration Open) : Journaled.Yields True search.step
      (Engine.Reported none (Search.Walks t exploration) Open) := by
  obtain ⟨d, F, rfl, hexploration, hsearches, rfl⟩ := h
  have hseeks : (CompleteSearch.depthFirst d).Seeks True t 0 F := hsearches
  refine (CompleteSearch.step_law polls_any trivial hseeks).bind ?_
  rintro ⟨outcome, search'⟩ ⟨hcontinues, hstepped⟩
  refine Journaled.Yields.pure ?_
  obtain ⟨x, hx, hevolves⟩ := hcontinues.explorer _ rfl
  have hkind := hcontinues.optimises
  -- The search stays a depth-first search, of the same options.
  have hwalks {G : Frontier} {goal : Set Box} (hgoal : goal = t.goal)
      (hseeks : search'.Seeks True { t with goal } 0 G) :
      (Search.complete search' : Search σ ρ).Walks t exploration (G.pending t) := by
    subst hgoal
    match search' with
    | .depthFirst d' =>
      cases hx
      exact ⟨d', G, rfl, hevolves.exploration.trans hexploration, hseeks, rfl⟩
    | .branchAndBound b => cases hkind
    | .parallel p => exact hseeks.elim
  match outcome with
  | none =>
    obtain ⟨-, G, hlt, hseeks⟩ := hstepped
    exact hlt.pending ▸ hwalks rfl hseeks
  | some (.solution s) =>
    obtain ⟨-, -, goal, G, hgoal, -, hseeks, hfound⟩ := hstepped
    obtain rfl := hgoal rfl
    obtain ⟨hassigned, hmem, hpending⟩ := hfound ht
    exact ⟨hassigned, hmem, hpending ▸ hwalks rfl hseeks⟩
  | some .exhausted =>
    obtain ⟨-, hempty, hseeks⟩ := hstepped
    refine ⟨hempty, ?_⟩
    rw [hempty, ← Frontier.pending_nil t]
    exact hwalks rfl hseeks
  | some .stopped => exact hwalks rfl hstepped.1

/-- What a depth-first search reports, whatever its stop condition is. -/
theorem Search.Walks.ensures_step (ht : t.Exact) {search : Search σ ρ}
    (h : search.Walks t exploration Open) :
    search.step.Ensures (Engine.Reported none (Search.Walks t exploration) Open) := by
  have hsequential : search.IsSequential := by
    obtain ⟨d, F, rfl, -⟩ := h
    exact rfl
  refine ensures_step_of_tamed hsequential ?_
  have hlawful := condition.lawful_tamed
  let tamed := condition.tamed
  exact (h.step_law ht).ensures

theorem Engine.mem_leftAfter_none {found : List Space} :
    a ∈ leftAfter none found Open ↔ a ∈ Open ∧ a ∉ found.map (·.store.assignment) := by
  refine and_congr_right fun _ => ⟨fun hall hmem => (hall a hmem).1 rfl, fun hnot b hb => ?_⟩
  refine ⟨?_, fun o ho => by cases ho⟩
  rintro rfl
  exact hnot hb

/-- **No-goods describe what was explored.** However often a depth-first search is called, and
wherever it is stopped, its no-goods can be posted into its root. The solutions of that space are
solutions of the root, found by every depth-first search, and none is missing that was not yet
returned. If all edges of the path are recorded, and the tree is not exhausted, then there are no
others. -/
theorem Built.enumerates_noGoods {policy : Policy} {statements : List Statement}
    {objective : Option Objective} {options : SearchOptions σ ρ} {e e' : Engine σ ρ} {rest : Space}
    {found : List Space} (h : Built policy statements s) (hw : Searchable δ statements)
    (hcovered : Covered statements s.store)
    (ho : ∀ o ∈ objective, o.variable.Admissible δ s.store) (hthreads : options.threads = 1)
    (hstart : (Engine.start .depthFirst { s with objective } options).run.Returns (.ok (e, rest)))
    (hcalls : e.Calls found e') : ∃ d s', e'.search = .complete (.depthFirst d) ∧
      (e'.noGoods.1.post { s with objective }).run.Returns (.ok s') ∧
      s'.Enumerates δ s'.solutions ∧ (∀ a ∈ s'.solutions, SolutionOf statements s a) ∧
      (∀ a, SolutionOf statements s a → a ∉ found.map (·.store.assignment) → a ∈ s'.solutions) ∧
      (d.explorer.HasNode → d.explorer.path.length ≤ options.exploration.noGoodsLimit →
        ∀ a ∈ s'.solutions, a ∉ found.map (·.store.assignment)) := by
  obtain ⟨posted, hcompiles, hroots⟩ := h.exists_roots hw.proper hw.branched ho
  obtain ⟨posted', hcompiles', hroots'⟩ := h.exists_roots (fun _ _ _ _ => .inr trivial) hw.branched
    fun o hmem => ⟨(ho o hmem).1, .inr trivial⟩
  obtain rfl := hcompiles.unique hcompiles'
  set chain := (branchings statements).map Brancher.base
  set root : Space := { s with objective }
  have hexact : (root.tree posted chain).Exact :=
    Tree.exact_of_covered hcompiles hw.distinct rfl rfl hcovered
  have hsolutions (a : Assignment) : a ∈ root.solutions ↔ SolutionOf statements s a :=
    hroots.mem_solutions_iff.trans (Tree.solution_iff hcompiles rfl rfl)
  -- The invariant of the search holds at the beginning, and each call keeps it.
  obtain ⟨e₁, rest₁, search, F, heq, hbegins⟩ :=
    (Engine.start_law hroots'.regular rfl hroots'.represents hthreads (.inl rfl)).of_returns hstart
  cases heq
  have hwalks : e.search.Walks (root.tree posted chain) options.exploration root.solutions := by
    rw [hbegins.eq]
    have hkind := hbegins.optimises
    have hseeks := hbegins.seeks
    have hexploration := hbegins.exploration
    match search with
    | .depthFirst d =>
      refine ⟨d, F, rfl, hexploration _ rfl, hseeks, ?_⟩
      rw [hbegins.opens.pending]
      exact Set.ext fun a => hroots.mem_solutions_iff.symm
    | .branchAndBound b => cases hkind
    | .parallel p => exact hseeks.elim
  have hreports := Engine.reports_of_step (I := Search.Walks (root.tree posted chain)
    options.exploration) fun Open (search : Search σ ρ) => Search.Walks.ensures_step hexact
  obtain ⟨-, d, G, hd, hexploration, hsearches, hpending⟩ := hcalls.law hreports hwalks
  have hmem (a : Assignment) : a ∈ G.pending (root.tree posted chain) ↔
      SolutionOf statements s a ∧ a ∉ found.map (·.store.assignment) := by
    rw [hpending, Engine.mem_leftAfter_none, hsolutions]
  have hexplores := hsearches.explores
  have hnoGoods : e'.noGoods.1 = d.explorer.path.noGoods := by
    unfold Engine.noGoods Search.noGoods
    rw [hd]
    rfl
  obtain ⟨s', hpost, hroots₂, hstore, -, hleft⟩ := NoGoods.post_law hroots
    (hexplores.keeps.carries.admissible_noGoods hexplores.keeps.valid)
  have hnarrows : root.store.Narrows s'.store := by
    rw [hstore]
    exact .refl _
  have hexact₂ : (s'.tree (d.explorer.path.noGoods.extend posted) chain).Exact :=
    hexact.extend hnarrows rfl rfl
  refine ⟨d, s', hd, ⟨#[], hnoGoods ▸ hpost #[]⟩, hroots₂.enumerates hexact₂, fun a ha => ?_,
    fun a ha hnot => ?_, fun hnode hlimit a ha => ?_⟩
  · rw [hleft] at ha
    exact (hsolutions a).1 ha.1
  · rw [hleft]
    exact ⟨(hsolutions a).2 ha, hexplores.permits_of_pending ((hmem a).2 ⟨ha, hnot⟩)⟩
  · rw [hleft] at ha
    have heq := hexplores.pending_eq hnode (hexploration ▸ hlimit)
    refine ((hmem a).1 ?_).2
    rw [heq]
    exact ⟨hroots.mem_solutions_iff.1 ha.1, ha.2⟩

/-- The search is stopped after one of several solutions. -/
theorem Built.enumerates_noGoods_differing : ∃ s, ∃ e : Engine, ∃ rest found e' s',
    Built .costOrdered differing s ∧
      (Engine.start .depthFirst { s with objective := none }
        { stop := some (.nodes 3) }).run.Returns
        (.ok (e, rest)) ∧
      e.Calls found e' ∧ found.length = 1 ∧ e'.hasStopped = true ∧
      (e'.noGoods.1.post { s with objective := none }).run.Returns (.ok s') ∧
      s'.Enumerates False s'.solutions ∧
      ∀ a, a ∈ s'.solutions ↔
        SolutionOf differing s a ∧ a ∉ found.map (·.store.assignment) := by
  have hcheck : buildsTo .costOrdered differing (fun s =>
      Covered differing s.store &&
        Engine.runsTo .depthFirst { stop := some (.nodes 3) } 9 9 (fun found _ e' =>
          decide (found.length = 1) && e'.hasStopped && e'.search.isUnderway 128)
        { s with objective := none }) = true := by
    decide +kernel
  obtain ⟨s, hs, hproperty⟩ := exists_built_of_buildsTo hcheck
  rw [Bool.and_eq_true, decide_eq_true_eq] at hproperty
  obtain ⟨hcovered, hruns⟩ := hproperty
  obtain ⟨e, rest, found, ended, e', hstart, htake, hfound⟩ := Engine.exists_of_runsTo hruns
  rw [Bool.and_eq_true, Bool.and_eq_true, decide_eq_true_eq] at hfound
  obtain ⟨⟨hlength, hstopped⟩, hsearch⟩ := hfound
  have hcalls := Engine.calls_of_take htake
  obtain ⟨d, s', hd, hpost, henumerates, hsound, hcomplete, hexact⟩ :=
    hs.enumerates_noGoods (δ := False) (by decide) hcovered (fun o ho => by cases ho) rfl hstart
      hcalls
  obtain ⟨d', hd', hnode, hlimit⟩ := Search.exists_of_isUnderway hsearch
  cases hd.symm.trans hd'
  refine ⟨s, e, rest, found, e', s', hs, hstart, hcalls, hlength, hstopped, hpost, henumerates,
    fun a => ⟨fun ha => ⟨hsound a ha, ?_⟩, fun ha => hcomplete a ha.1 ha.2⟩⟩
  exact hexact hnode hlimit a ha

/-- The inequation `4 x - 4 z ≤ 0` for `x` and `z` in `{0, 2 ^ 29}`, behind another variable. -/
def saturatingBelow : List Statement :=
  [.newInt 0 1, .newIntOfValues [0, 536870912], .newIntOfValues [0, 536870912],
    .post (.weightedAtMost [4, -4] [.root 1, .root 2] 0),
    .branch (.int (.ofVariables [.root 0, .root 1, .root 2] .inputOrder .min))]

/-- The solution with `x = z = 2 ^ 29` is missed where the first variable is `0`, and then excluded
by the no-goods. -/
theorem Built.exists_excluded_saturatingBelow : ∃ s, ∃ e : Engine, ∃ rest found e' d s',
    Built .costOrdered saturatingBelow s ∧ Searchable False saturatingBelow ∧
      Covered saturatingBelow s.store ∧
      (Engine.start .depthFirst s { stop := some (.nodes 6) }).run.Returns (.ok (e, rest)) ∧
      (e.take 9 9).Returns (found, true, e') ∧ e'.hasStopped = true ∧
      e'.search = .complete (.depthFirst d) ∧ d.explorer.HasNode ∧ d.explorer.path.length ≤ 128 ∧
      (e'.noGoods.1.post s).run.Returns (.ok s') ∧
      ∃ a : Assignment, a.Within s.store ∧ (∀ c ∈ postings saturatingBelow, c.Holds a) ∧
        a ∉ found.map (·.store.assignment) ∧ a ∉ s'.solutions := by
  have hcheck : buildsTo .costOrdered saturatingBelow (fun s =>
      Covered saturatingBelow s.store && s.store.admits [0, 536870912, 536870912] &&
        Engine.runsTo .depthFirst { stop := some (.nodes 6) } 9 9 (fun found ended e' =>
          ended && e'.hasStopped && decide (∀ s ∈ found, s.store.assignment.ints 1 = 0) &&
          e'.search.isUnderway 128 &&
          (e'.noGoods.1.post s).run.check fun r => r.toOption.any fun s' =>
            (s'.propagator? 1).any fun p =>
              decide (p.excluded = [.comparison (.root 0) .equal 0])) s) = true := by
    decide +kernel
  obtain ⟨s, hs, hproperty⟩ := exists_built_of_buildsTo hcheck
  rw [Bool.and_eq_true, Bool.and_eq_true, decide_eq_true_eq] at hproperty
  obtain ⟨⟨hcovered, hadmits⟩, hruns⟩ := hproperty
  obtain ⟨e, rest, found, ended, e', hstart, htake, hfound⟩ := Engine.exists_of_runsTo hruns
  simp only [Bool.and_eq_true, decide_eq_true_eq] at hfound
  obtain ⟨⟨⟨⟨rfl, hstopped⟩, hzero⟩, hsearch⟩, hpost⟩ := hfound
  obtain ⟨d, hd, hnode, hlimit⟩ := Search.exists_of_isUnderway hsearch
  obtain ⟨r, hpost, hlevels⟩ := Journaled.exists_of_check hpost
  rcases r with error | s'
  · cases hlevels
  refine ⟨s, e, rest, found, e', d, s', hs, by decide, hcovered, hstart, htake, hstopped, hd, hnode,
    hlimit, hpost, .ofInts [0, 536870912, 536870912], Store.within_of_admits hadmits, by decide,
    fun hmem => ?_, fun hmem => ?_⟩
  · obtain ⟨s', hs', heq⟩ := List.mem_map.1 hmem
    have hvalue := hzero s' hs'
    rw [heq] at hvalue
    exact absurd hvalue (by decide)
  · change (s'.propagator? 1).any _ = true at hlevels
    obtain ⟨hslot, hexcluded⟩ := (Option.any_eq_true_iff_get _ _).1 hlevels
    have hstable := hmem.2 1 _ (Option.some_get hslot).symm
    have hrefuted := hstable.refuted
    rw [of_decide_eq_true hexcluded] at hrefuted
    exact Literal.refuted_box.1 (hrefuted _ (List.mem_singleton.2 rfl)) fun v hv =>
      IntDomain.mem_singleton.1 hv

end ConstraintSearch
