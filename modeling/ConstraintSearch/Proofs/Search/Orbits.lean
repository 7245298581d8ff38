import ConstraintSearch.Proofs.Search.Symmetric

/-!
# Representatives of orbits

The exchanges that the symmetries of a brancher allow divide the solutions into orbits. A
depth-first search that breaks symmetries finds a solution of each orbit. Whatever was found, the
solutions from which nothing of it is reached are whole orbits, and only these are looked for still.

* `Tree.unreached`: the tree in which only these solutions are looked for;
* `Search.Probes`, `Search.step_breaks_law`: the invariant of the search, and what a step does;
* `Built.depthFirst_representatives`: a solution of each orbit is found.
-/

namespace ConstraintSearch

variable {δ : Prop} {t : Tree} {b : IntBrancher} {e : Explorer} {s : Space} {a : Assignment}
  {found : Set Assignment} {trail : List Fork} {Q : Set Box}

/-! ### What is not reached -/

theorem Assignment.box_injective : Function.Injective Assignment.box := by
  intro a a' h
  have hints (i : Nat) : IntDomain.singleton (a.ints i) = .singleton (a'.ints i) :=
    congrFun (congrArg Box.ints h) i
  have hsets (i : Nat) : SetDomain.exactly (a.sets i) = .exactly (a'.sets i) :=
    congrFun (congrArg Box.sets h) i
  obtain ⟨ints, sets⟩ := a
  obtain ⟨ints', sets'⟩ := a'
  congr
  · funext i
    exact IntDomain.mem_singleton.1 (hints i ▸ IntDomain.mem_singleton.2 rfl)
  · funext i
    exact congrArg SetDomain.required (hsets i)

namespace Tree

/-- The tree in which only the assignments are looked for from which nothing of what was found is
reached. -/
def unreached (t : Tree) (b : IntBrancher) (found : Set Assignment) : Tree :=
  { t with goal := {F | ∃ a : Assignment, a.Within t.root ∧ F = a.box ∧
      ∀ r ∈ found, ¬b.Reaches a r} }

/-- The tree is split by one brancher, into equations, and its solutions can be exchanged as the
symmetries of the brancher say. -/
structure Balanced (δ : Prop) (t : Tree) (b : IntBrancher) : Prop where
  goal : t.goal = Set.univ
  chain : t.chain = [((Brancher.int b).breaking []).base]
  equates : b.value.equates = true
  admissible : ∀ x ∈ b.vars.toList, x.Admissible δ t.root
  closed : ∀ a, t.Solution a → ∀ σ ∈ b.symmetries, ∀ e, σ.Allows e →
    ∃ a', t.Solution a' ∧ b.valueAt a' = e.apply (b.valueAt a)

theorem solution_unreached (hgoal : t.goal = Set.univ) :
    (t.unreached b found).Solution a ↔ t.Solution a ∧ ∀ r ∈ found, ¬b.Reaches a r := by
  constructor
  · rintro ⟨hroot, hsound, hconsistent, a', -, hbox, hreaches⟩
    obtain rfl := Assignment.box_injective hbox
    exact ⟨⟨hroot, hsound, hconsistent, hgoal ▸ Set.mem_univ _⟩, hreaches⟩
  · rintro ⟨⟨hroot, hw⟩, hreaches⟩
    exact ⟨hroot, hw.sound, hw.consistent, a, hroot, rfl, hreaches⟩

/-- What is not reached is not reached from an exchanged assignment. -/
theorem not_reaches_of_exchanges {a' : Assignment} (h : b.Exchanges a a')
    (ha : ∀ r ∈ found, ¬b.Reaches a r) : ∀ r ∈ found, ¬b.Reaches a' r :=
  fun r hr hreaches => ha r hr (Relation.ReflTransGen.head h hreaches)

theorem Balanced.symmetric (h : t.Balanced δ b) (found : Set Assignment) :
    (t.unreached b found).Symmetric δ b where
  chain := h.chain
  equates := h.equates
  admissible := h.admissible
  solution := by
    rintro F hw
    obtain ⟨a, ha, rfl, -⟩ := hw.goal
    exact ⟨a, ⟨ha, hw⟩, rfl⟩
  closed := by
    intro a ha σ hσ e he
    obtain ⟨ha, hnot⟩ := (solution_unreached h.goal).1 ha
    obtain ⟨a', ha', hvalue⟩ := h.closed a ha σ hσ e he
    have hexchanges : b.Exchanges a a' := ⟨σ, hσ, e, he, hvalue⟩
    have hnot' := not_reaches_of_exchanges hexchanges hnot
    exact ⟨a', (solution_unreached h.goal).2 ⟨ha', hnot'⟩, hvalue⟩

end Tree

namespace Explorer

variable {F : Frontier}

/-- After a solution, what reaches it is not looked for any more. -/
theorem Sustains.unreach (h : e.Sustains δ (t.unreached b found) b F) (r : Assignment) :
    e.Sustains δ (t.unreached b (insert r found)) b F := by
  have hgoal : (t.unreached b (insert r found)).goal ⊆ (t.unreached b found).goal := by
    rintro B ⟨a, ha, rfl, hnot⟩
    exact ⟨a, ha, rfl, fun r hr => hnot r (Set.mem_insert_of_mem _ hr)⟩
  have hless := h.retarget hgoal fun a a' _ ha' hexchanges ⟨c, _, hbox, hnot⟩ => by
    obtain rfl := Assignment.box_injective hbox
    exact ⟨a', ha'.1, rfl, Tree.not_reaches_of_exchanges hexchanges hnot⟩
  exact hless

/-- A node in which all variables are decided is a solution, and nothing else lies below it. -/
theorem Sustains.find (ht : t.Balanced δ b) (hexact : t.Exact)
    (h : e.Sustains δ (t.unreached b found) b ⟨trail, some Q⟩)
    (hrests : (t.unreached b found).Rests δ s Q)
    (hdone : ∀ i row, s.branchers.get? i = some row → row.Done s.store) :
    s.store.Assigned ∧ t.Solution s.store.assignment ∧
      e.Sustains δ (t.unreached b (insert s.store.assignment found)) b ⟨trail, none⟩ := by
  have hboxes : t.Rests δ s s.boxes := ⟨hrests.toStands.boxes, hrests.idle⟩
  have hsolves := hboxes.solves hexact (ht.goal ▸ Set.subset_univ _) hdone
  refine ⟨hsolves.assigned, ((hsolves.mem_iff _).2 rfl).2, (h.unreach _).skip fun B hB hw => ?_⟩
  obtain ⟨a, ha, rfl, hnot⟩ := hw.goal
  -- The box is one of the space, so it is the solution itself.
  have hw' : (t.unreached b found).Wanted a.box :=
    ⟨hw.sound, hw.consistent, a, ha, rfl, fun r hr => hnot r (Set.mem_insert_of_mem _ hr)⟩
  have hmem : a.box ∈ s.boxes := ⟨hrests.alive, hrests.frames.kept _ hB hw'⟩
  have hsolution : t.Solution a :=
    ⟨ha, hw.sound, hw.consistent, ht.goal ▸ Set.mem_univ _⟩
  obtain rfl := (hsolves.mem_iff a).1 ⟨hmem, hsolution⟩
  exact hnot _ (Set.mem_insert _ _) Relation.ReflTransGen.refl

/-- Once nothing is left, each solution reaches one that was found. -/
theorem Sustains.exists_reaches (hgoal : t.goal = Set.univ)
    (h : e.Sustains δ (t.unreached b found) b ⟨[], none⟩) (ha : t.Solution a) :
    ∃ r ∈ found, b.Reaches a r := by
  by_contra hnone
  have hnot : ∀ r ∈ found, ¬b.Reaches a r := fun r hr hreaches => hnone ⟨r, hr, hreaches⟩
  have hpending := h.pending
  rw [Frontier.pending_nil] at hpending
  exact (Set.ext_iff.1 hpending a).2 ((Tree.solution_unreached hgoal).2 ⟨ha, hnot⟩)

/-- The exploration begins at the root, unless that has no solutions. -/
theorem start_breaks_law (hs : t.Breaks δ b s t.whole) :
    Journaled.Yields δ (e.start s) fun e' => ∃ F, e'.Prunes δ t b F := by
  unfold start
  refine (statusOf_breaks_law hs _).bind ?_
  rintro ⟨status, s₁, statistics⟩ hreviewed
  dsimp only at hreviewed ⊢
  have hcarries : (Path.empty e.exploration.noGoodsLimit).Carries none [] :=
    Path.carries_empty fun n hn => by cases hn
  by_cases hfailed : status = .failed
  · subst hfailed
    rw [if_pos rfl]
    refine Journaled.Yields.pure ⟨⟨[], none⟩, ⟨hcarries, .nil, fun Q hQ => (by cases hQ), ?_⟩,
      fun s hs => (by cases hs), fun _ => ⟨rfl, fun f hf => by cases hf⟩⟩
    rw [Frontier.pending_nil]
    exact (Set.eq_empty_of_forall_notMem fun a ha =>
      hreviewed.none_wanted _ ha.mem_whole ha.2).symm
  · rw [if_neg hfailed]
    refine Journaled.Yields.pure ⟨⟨[], some t.whole⟩,
      ⟨hcarries, .nil, fun Q hQ f hf => (by cases hf), ?_⟩, fun s hs => ?_,
      fun hnone => by cases hnone⟩
    · exact Set.ext fun a => ⟨And.left, fun ha => ⟨ha, .inl ⟨_, rfl, ha.mem_whole⟩⟩⟩
    · cases hs
      exact ⟨t.whole, rfl, hreviewed.breaks, .inl rfl⟩

end Explorer

/-! ### Searches -/

variable {τ ρ : Type} [StopCondition τ] [CutoffSequence ρ]

namespace Search

/-- A depth-first search without a stop condition that has found some solutions, and that has `n`
nodes to explore at most. -/
def Probes (δ : Prop) (t : Tree) (b : IntBrancher) (n : Nat) (found : Set Assignment) :
    Search τ ρ → Prop
  | complete (.depthFirst d) => d.stop = none ∧ ∃ F,
      d.explorer.Prunes δ (t.unreached b found) b F ∧ F.bound t ≤ n
  | _ => False

/-- What a step of the search does. -/
def Probed (δ : Prop) (t : Tree) (b : IntBrancher) (n : Nat) (found : Set Assignment) :
    Option Outcome × Search τ ρ → Prop
  | (none, search) => ∃ m < n, search.Probes δ t b m found
  | (some (.solution s), search) => s.store.Assigned ∧ t.Solution s.store.assignment ∧
      ∃ m < n, search.Probes δ t b m (insert s.store.assignment found)
  | (some .exhausted, _) => ∀ a, t.Solution a → ∃ r ∈ found, b.Reaches a r
  | (some .stopped, _) => False

variable {search : Search τ ρ} {n : Nat}

theorem step_breaks_law (ht : t.Balanced δ b) (hexact : t.Exact) (hroot : t.Regular δ)
    (h : search.Probes δ t b n found) :
    Journaled.Yields δ search.step (Probed δ t b n found) := by
  match search with
  | complete (.depthFirst d) =>
    obtain ⟨hstop, F, hprunes, hbound⟩ := h
    have hsymmetric := ht.symmetric found
    have hregular : (t.unreached b found).Regular δ := ⟨hroot.root, hroot.objective⟩
    suffices hstep : Journaled.Yields δ d.step
        fun r => Probed δ t b n found (r.1, (complete (.depthFirst r.2) : Search τ ρ)) by
      have hcomplete : Journaled.Yields δ (CompleteSearch.depthFirst d).step
          fun r => Probed δ t b n found (r.1, (complete r.2 : Search τ ρ)) :=
        hstep.bind fun _ hr => Journaled.Yields.pure hr
      exact hcomplete.bind fun _ hr => Journaled.Yields.pure hr
    unfold DepthFirst.step
    refine (Journaled.Yields.lift (polls_none d.stop hstop _)).bind ?_
    rintro ⟨holds, stop⟩ hpoll
    cases holds with
    | true => exact hpoll.elim
    | false =>
      dsimp only
      rw [if_neg Bool.false_ne_true] at hpoll ⊢
      refine (hprunes.nextNode_law hsymmetric hregular).bind ?_
      rintro ⟨node, e, bound⟩ ⟨-, hcurrent, G, hle, hsustains, hnode⟩
      have hbound' := hle.bound.trans hbound
      cases node with
      | none =>
        obtain rfl : G = ⟨[], none⟩ := hnode
        exact Journaled.Yields.pure fun a ha => hsustains.exists_reaches ht.goal ha
      | some s =>
        obtain ⟨Q, hahead, hawaits⟩ := hnode
        obtain ⟨trail, ahead⟩ := G
        obtain rfl : ahead = some Q := hahead
        refine (hsustains.explore_law hsymmetric hregular hcurrent hawaits).bind ?_
        rintro ⟨explored, e'⟩ hmet
        cases explored with
        | solved s =>
          obtain ⟨hcurrent', hpath, s₀, hstore, hrests, hdone⟩ := hmet
          -- From here on, what reaches the solution is not looked for.
          obtain ⟨hassigned, hsolution, hskip⟩ := hsustains.find ht hexact hrests hdone
          rw [hstore] at hassigned hsolution hskip
          have hregular' : (t.unreached b (insert s.store.assignment found)).Regular δ :=
            ⟨hroot.root, hroot.objective⟩
          refine Journaled.Yields.pure ⟨hassigned, hsolution, _, ?_, hpoll, _,
            hskip.advanced hregular' hcurrent' hpath, le_refl _⟩
          exact ((hskip.advanced_le hregular').bound.trans_lt
            (Frontier.bound_lt_of_ahead trail Q)).trans_le hbound'
        | failed | branched =>
          obtain ⟨H, hlt, hprunes'⟩ := hmet
          exact Journaled.Yields.pure ⟨_, hlt.bound.trans_le hbound', hpoll, H, hprunes', le_refl _⟩
  | complete (.branchAndBound d) => exact h.elim
  | complete (.parallel d) => exact h.elim
  | limitedDiscrepancy d => exact h.elim
  | restarts d => exact h.elim

end Search

namespace Engine

variable {e : Engine τ ρ} {n steps count : Nat}

/-- The next solution, after some were found. -/
theorem next_breaks_law (ht : t.Balanced δ b) (hexact : t.Exact) (hroot : t.Regular δ)
    (h : e.search.Probes δ t b n found) (hsteps : n < steps) :
    Journaled.Yields δ (e.next steps) fun r =>
      match r with
      | (some s, e') => s.store.Assigned ∧ t.Solution s.store.assignment ∧
          ∃ m < n, e'.search.Probes δ t b m (insert s.store.assignment found)
      | (none, _) => ∀ a, t.Solution a → ∃ r ∈ found, b.Reaches a r := by
  have hsearch : Journaled.Yields δ (searchWithin Search.step steps e.search) fun r =>
      Search.Probed δ t b n found (some r.1, r.2) := by
    refine searchWithin_law (J := fun m search => m ≤ n ∧ search.Probes δ t b m found)
      (fun m search hm => (Search.step_breaks_law ht hexact hroot hm.2).mono ?_)
      ⟨le_refl n, h⟩ hsteps
    rintro ⟨outcome, search'⟩ hr
    match outcome with
    | none =>
      obtain ⟨k, hk, hprobes⟩ := hr
      exact ⟨k, hk, hk.le.trans hm.1, hprobes⟩
    | some (.solution s) =>
      obtain ⟨hassigned, hsolution, k, hk, hprobes⟩ := hr
      exact ⟨hassigned, hsolution, k, hk.trans_le hm.1, hprobes⟩
    | some .exhausted => exact hr
    | some .stopped => exact hr.elim
  unfold next
  refine hsearch.bind ?_
  rintro ⟨outcome, search⟩ hprobed
  cases outcome with
  | solution s => exact Journaled.Yields.pure hprobed
  | exhausted => exact Journaled.Yields.pure hprobed
  | stopped => exact hprobed.elim

/-- Every solution reaches one of those that are found in the end. -/
theorem take_breaks_law (ht : t.Balanced δ b) (hexact : t.Exact) (hroot : t.Regular δ)
    (h : e.search.Probes δ t b n found) (hsteps : n < steps) (hcount : n < count) :
    Journaled.Yields δ (e.take steps count) fun (spaces, ended, _) => ended = true ∧
      (∀ s ∈ spaces, s.store.Assigned ∧ t.Solution s.store.assignment) ∧
      ∀ a, t.Solution a →
        (∃ r ∈ found, b.Reaches a r) ∨ ∃ s ∈ spaces, b.Reaches a s.store.assignment := by
  induction count generalizing e n found with
  | zero => exact absurd hcount (Nat.not_lt_zero n)
  | succ count ih =>
    unfold take
    refine (next_breaks_law ht hexact hroot h hsteps).bind ?_
    rintro ⟨next, e'⟩ hnext
    cases next with
    | none =>
      exact Journaled.Yields.pure ⟨rfl, fun s hs => (by cases hs), fun a ha => .inl (hnext a ha)⟩
    | some s =>
      obtain ⟨hassigned, hsolution, m, hm, hprobes⟩ := hnext
      refine (ih hprobes (hm.trans hsteps) (by omega)).bind ?_
      rintro ⟨spaces, ended, e''⟩ ⟨hended, hspaces, hreaches⟩
      refine Journaled.Yields.pure
        ⟨hended, List.forall_mem_cons.2 ⟨⟨hassigned, hsolution⟩, hspaces⟩, fun a ha => ?_⟩
      rcases hreaches a ha with ⟨r, hr, hreach⟩ | ⟨s', hs', hreach⟩
      · rcases hr with rfl | hr
        · exact .inr ⟨s, List.mem_cons_self, hreach⟩
        · exact .inl ⟨r, hr, hreach⟩
      · exact .inr ⟨s', List.mem_cons_of_mem _ hs', hreach⟩

omit [StopCondition τ] in
/-- A search with symmetries begins. -/
theorem start_breaks_law {options : SearchOptions τ ρ} (ht : t.Balanced δ b)
    (hwithin : ∀ σ ∈ b.symmetries, σ.within b.vars.size = true) (hs : t.Represents δ s t.whole)
    (hthreads : options.threads = 1) (hstop : options.stop = none) :
    Journaled.Yields δ (start .depthFirst (s.breaking b.symmetries) options).run fun r =>
      ∃ e rest, r = .ok (e, rest) ∧ ∃ n, e.search.Probes δ t b n ∅ := by
  have hsymmetric := ht.symmetric ∅
  have hbreaks : (t.unreached b ∅).Breaks δ b (s.breaking b.symmetries) t.whole := by
    refine ⟨b.symmetries, s, rfl, hs.retarget (ht.goal ▸ Set.subset_univ _), hwithin,
      fun σ hσ e he => ⟨σ, hσ, he⟩, fun σ hσ e he a ha _ => ?_⟩
    obtain ⟨a', ha', hvalue⟩ := hsymmetric.closed a ha σ hσ e he
    exact ⟨a', ha', ha'.mem_whole, hvalue⟩
  have hsearch : Journaled.Yields δ (Search.start .depthFirst (s.breaking b.symmetries) options)
      fun search => ∃ n, search.Probes δ t b n ∅ := by
    have hdepthFirst (tracing : Tracing) : Journaled.Yields δ
        (DepthFirst.start (s.breaking b.symmetries) options.exploration tracing options.stop)
        fun d => ∃ n, (Search.complete (.depthFirst d) : Search τ ρ).Probes δ t b n ∅ :=
      (Explorer.start_breaks_law hbreaks).bind fun e ⟨F, hprunes⟩ =>
        Journaled.Yields.pure ⟨F.bound t, hstop, F, hprunes, le_refl _⟩
    have hcomplete : Journaled.Yields δ (CompleteSearch.start (s.breaking b.symmetries)
        options.threads false options.exploration options.isTraced options.stop)
        fun search => ∃ n, (Search.complete search : Search τ ρ).Probes δ t b n ∅ := by
      unfold CompleteSearch.start
      rw [if_neg (by omega), if_neg Bool.false_ne_true]
      exact (hdepthFirst _).bind fun d hprobes => Journaled.Yields.pure hprobes
    exact hcomplete.bind fun search hprobes => Journaled.Yields.pure hprobes
  rw [start_eq hthreads (fun h => by cases h)]
  exact hsearch.bind fun search hprobes => Journaled.Yields.pure ⟨_, _, rfl, hprobes⟩

end Engine

/-! ### Models with symmetries -/

theorem Brancher.ints_breaking {σ : List Symmetry} (b : Brancher) :
    (b.breaking σ).ints = b.ints := by
  cases b <;> rfl

theorem Brancher.sets_breaking {σ : List Symmetry} (b : Brancher) :
    (b.breaking σ).sets = b.sets := by
  cases b <;> rfl

/-- Symmetries have no part in which variables are decided. -/
theorem Covered.plain {statements : List Statement} {s : Store} (h : Covered statements s) :
    Covered (statements.map Statement.plain) s := by
  have hmem {b : Brancher} (hb : b ∈ branchings statements) :
      b.breaking [] ∈ branchings (statements.map Statement.plain) := by
    rw [branchings_plain]
    exact List.mem_map_of_mem hb
  constructor
  · intro i hi
    obtain ⟨b, hb, x, hx, hproper⟩ := h.ints i hi
    exact ⟨_, hmem hb, x, b.ints_breaking.symm ▸ hx, hproper⟩
  · intro i hi
    obtain ⟨b, hb, hset⟩ := h.sets i hi
    exact ⟨_, hmem hb, b.sets_breaking.symm ▸ hset⟩

/-- What a search that breaks symmetries relies on. Apart from its symmetries, the brancher is
fresh; it is the only one, decides all variables, and splits them into equations. Its symmetries
name positions of its variables, and what they exchange in a solution is a solution again. -/
structure SymmetricModel (δ : Prop) (statements : List Statement) (s : Space) (b : IntBrancher) :
    Prop where
  searchable : Searchable δ (statements.map Statement.plain)
  branchings : branchings statements = [.int b]
  covered : Covered statements s.store
  proper : ∀ x ∈ b.vars.toList, x.Proper ∨ δ
  equates : b.value.equates = true
  within : ∀ σ ∈ b.symmetries, σ.within b.vars.size = true
  closed : ∀ a, SolutionOf statements s a → ∀ σ ∈ b.symmetries, ∀ e, σ.Allows e →
    ∃ a', SolutionOf statements s a' ∧ b.valueAt a' = e.apply (b.valueAt a)

/-- **Symmetry breaking keeps a representative of every orbit.** Unless arithmetic faults, the calls
end, the spaces that they return are solutions, and exchanges turn each solution into one of
them. -/
theorem Built.depthFirst_representatives {policy : Policy} {statements : List Statement} {s : Space}
    {objective : Option Objective} {options : SearchOptions τ ρ} (h : Built policy statements s)
    (hw : SymmetricModel δ statements s b)
    (ho : ∀ o ∈ objective, o.variable.Admissible δ s.store) (hthreads : options.threads = 1)
    (hstop : options.stop = none) :
    Journaled.Yields δ (Engine.start .depthFirst { s with objective } options).run fun r =>
      ∃ e rest, r = .ok (e, rest) ∧ ∃ n, ∀ steps > n, ∀ count > n,
        Journaled.Yields δ (e.take steps count) fun (found, ended, _) => ended = true ∧
          (∀ s' ∈ found, s'.store.Assigned ∧ SolutionOf statements s s'.store.assignment) ∧
          ∀ a, SolutionOf statements s a → ∃ s' ∈ found, b.Reaches a s'.store.assignment := by
  obtain ⟨s₀, rfl, hs₀⟩ := h.exists_breaking (σ := b.symmetries) fun row hrow => by
    rw [hw.branchings, List.mem_singleton] at hrow
    rw [hrow]
    rfl
  obtain ⟨t, hroot, hgoal, -, hstore, hchain, hcompiles, hrepresents⟩ :=
    hs₀.exists_tree hw.searchable.proper hw.searchable.branched ho
  have hexact : t.Exact :=
    Tree.exact_of_covered hcompiles hw.searchable.distinct hchain hstore hw.covered.plain
  rw [branchings_plain, hw.branchings] at hchain
  rw [postings_plain] at hcompiles
  have hsolution (a : Assignment) :
      t.Solution a ↔ SolutionOf statements (s₀.breaking b.symmetries) a :=
    Tree.solution_iff hcompiles hstore hgoal
  have hplain : ((Brancher.int b).breaking []).Plain s₀.store := by
    refine Brancher.plain_base.1 ((hs₀.arranged hw.searchable.branched).lineup.plain _ ?_)
    rw [branchings_plain, hw.branchings]
    exact List.mem_singleton.2 rfl
  have hbalanced : t.Balanced δ b :=
    { goal := hgoal
      chain := hchain
      equates := hw.equates
      admissible := fun x hx => hstore ▸ ⟨hplain.2 x hx, hw.proper x hx⟩
      closed := by simpa only [hsolution] using hw.closed }
  refine (Engine.start_breaks_law hbalanced hw.within hrepresents hthreads hstop).mono ?_
  rintro _ ⟨e, rest, rfl, n, hprobes⟩
  refine ⟨e, rest, rfl, n, fun steps hsteps count hcount => ?_⟩
  refine (Engine.take_breaks_law hbalanced hexact hroot hprobes hsteps hcount).mono ?_
  rintro ⟨found, ended, e'⟩ ⟨hended, hfound, hreaches⟩
  refine ⟨hended, fun s' hs' => ⟨(hfound s' hs').1, (hsolution _).1 (hfound s' hs').2⟩,
    fun a ha => (hreaches a ((hsolution a).2 ha)).resolve_left ?_⟩
  rintro ⟨r, hr, -⟩
  exact hr

/-! ### Two variables that can be exchanged -/

/-- The brancher of two variables that can be exchanged. -/
def IntBrancher.pair : IntBrancher :=
  { ofVariables [.root 0, .root 1] .inputOrder .min with symmetries := [.positions [0, 1]] }

/-- The assignment with the values of the first two variables exchanged. -/
def Assignment.swapped (a : Assignment) : Assignment := { a with ints := a.ints ∘ Equiv.swap 0 1 }

theorem Assignment.Within.swapped {s : Store} (h : a.Within s)
    (hsame : s.box.ints 0 = s.box.ints 1) : a.swapped.Within s := by
  refine ⟨fun i => ?_, h.sets⟩
  show a.ints (Equiv.swap 0 1 i) ∈ s.box.ints i
  have hswap : s.box.ints i = s.box.ints (Equiv.swap 0 1 i) := by
    match i with
    | 0 => exact hsame
    | 1 => exact hsame.symm
    | i + 2 => rw [Equiv.swap_apply_of_ne_of_ne (by omega) (by omega)]
  rw [hswap]
  exact h.ints _

namespace IntBrancher

theorem valueAt_pair_swapped (a : Assignment) (r : Nat) :
    pair.valueAt a.swapped r = pair.valueAt a (Equiv.swap 0 1 r) := by
  match r with
  | 0 => rfl
  | 1 => rfl
  | r + 2 =>
    rw [Equiv.swap_apply_of_ne_of_ne (by omega) (by omega)]
    rfl

/-- Two equal positions need not be exchanged, and others are exchanged with the values. -/
theorem closed_pair {P : Assignment → Prop} (hP : ∀ a, P a → P a.swapped) (ha : P a) {σ : Symmetry}
    (hσ : σ ∈ pair.symmetries) {e : Exchange} (he : σ.Allows e) :
    ∃ a', P a' ∧ pair.valueAt a' = e.apply (pair.valueAt a) := by
  obtain rfl := List.mem_singleton.1 hσ
  cases e with
  | values v w => exact he.elim
  | positions p q =>
    obtain ⟨hp, hq⟩ := he
    have hsplit : p = q ∨ Equiv.swap p q = Equiv.swap 0 1 := by
      simp only [List.mem_cons, List.not_mem_nil, or_false] at hp hq
      rcases hp with rfl | rfl <;> rcases hq with rfl | rfl
      · exact .inl rfl
      · exact .inr rfl
      · exact .inr (Equiv.swap_comm _ _)
      · exact .inl rfl
    rcases hsplit with rfl | hswap
    · refine ⟨a, ha, funext fun r => ?_⟩
      show _ = pair.valueAt a (Equiv.swap p p r)
      rw [Equiv.swap_self]
      rfl
    · refine ⟨a.swapped, hP a ha, funext fun r => ?_⟩
      show _ = pair.valueAt a (Equiv.swap p q r)
      rw [hswap]
      exact valueAt_pair_swapped a r

end IntBrancher

/-- Two variables of `{0, 1}` with different values. -/
def exchangeable : List Statement :=
  [.newIntOfValues [0, 1], .newIntOfValues [0, 1], .post (.notEquals (.root 0) (.root 1) 0),
    .branch (.int .pair)]

theorem SymmetricModel.exchangeable {s : Space} (hcovered : Covered exchangeable s.store)
    (hsame : s.store.box.ints 0 = s.store.box.ints 1) :
    SymmetricModel False exchangeable s .pair where
  searchable := by decide
  branchings := rfl
  covered := hcovered
  proper := by decide
  equates := rfl
  within := by decide
  closed a ha σ hσ e he := by
    refine IntBrancher.closed_pair (P := SolutionOf _ s) ?_ ha hσ he
    rintro a ⟨hwithin, hholds⟩
    refine ⟨hwithin.swapped hsame, fun c hc => ?_⟩
    obtain rfl := List.mem_singleton.1 hc
    have hne : a.ints 0 ≠ a.ints 1 + 0 := (hholds _ hc).1
    refine ⟨?_, trivial⟩
    show a.ints 1 ≠ a.ints 0 + 0
    omega

theorem Built.depthFirst_representatives_exchangeable : ∃ s, ∃ e : Engine, ∃ rest,
    Built .costOrdered exchangeable s ∧
      (Engine.start .depthFirst { s with objective := none } {}).run.Returns (.ok (e, rest)) ∧
      ∃ n, ∀ steps > n, ∀ count > n, Journaled.Yields False (e.take steps count)
        fun (found, ended, _) => ended = true ∧
          (∀ s' ∈ found, s'.store.Assigned ∧ SolutionOf exchangeable s s'.store.assignment) ∧
          ∀ a, SolutionOf exchangeable s a →
            ∃ s' ∈ found, IntBrancher.pair.Reaches a s'.store.assignment := by
  have hcheck : buildsTo .costOrdered exchangeable (fun s =>
      Covered exchangeable s.store && decide (s.store.box.ints 0 = s.store.box.ints 1) &&
        Engine.runsTo .depthFirst {} 9 9 (fun _ _ _ => true) { s with objective := none }) =
      true := by
    decide +kernel
  obtain ⟨s, hs, hproperty⟩ := exists_built_of_buildsTo hcheck
  rw [Bool.and_eq_true, Bool.and_eq_true, decide_eq_true_eq, decide_eq_true_eq] at hproperty
  obtain ⟨⟨hcovered, hsame⟩, hruns⟩ := hproperty
  obtain ⟨e, rest, -, -, -, hstart, -, -⟩ := Engine.exists_of_runsTo hruns
  have hrepresentatives : Journaled.Yields False
      (Engine.start .depthFirst { s with objective := none } ({} : SearchOptions)).run _ :=
    hs.depthFirst_representatives (.exchangeable hcovered hsame) (fun o ho => by cases ho) rfl rfl
  obtain ⟨e', rest', hr, hreaches⟩ := hrepresentatives.of_returns hstart
  cases hr
  exact ⟨s, e, rest, hs, hstart, hreaches⟩

/-- To exchange equal values changes nothing. -/
theorem IntBrancher.eq_of_reaches_pair {a a' : Assignment} {v : Int} (h : pair.Reaches a a')
    (h0 : a.ints 0 = v) (h1 : a.ints 1 = v) : a'.ints 0 = v := by
  suffices hboth : ∀ r < 2, pair.valueAt a' r = some v from
    Option.some.inj (hboth 0 Nat.zero_lt_two)
  induction h with
  | refl =>
    intro r hr
    interval_cases r
    · exact congrArg some h0
    · exact congrArg some h1
  | tail _ hstep ih =>
    obtain ⟨σ, hσ, e, he, hvalue⟩ := hstep
    obtain rfl := List.mem_singleton.1 hσ
    cases e with
    | values v w => exact he.elim
    | positions p q =>
      obtain ⟨hp, hq⟩ := he
      intro r hr
      rw [hvalue]
      refine ih _ ?_
      simp only [List.mem_cons, List.not_mem_nil, or_false] at hp hq
      rw [Equiv.swap_apply_def]
      split_ifs <;> omega

/-- The equation `4 x = 4 z` as two inequations, for `x` and `z` in `{0, 2 ^ 29}`. -/
def balancing : List Statement :=
  [.newIntOfValues [0, 536870912], .newIntOfValues [0, 536870912],
    .post (.weightedAtMost [4, -4] [.root 0, .root 1] 0),
    .post (.weightedAtMost [-4, 4] [.root 0, .root 1] 0), .branch (.int .pair)]

/-- The term `4 x` is bounded by the greatest 32-bit integer, and the orbit of the solution with
`x = z = 2 ^ 29` is missed, though the solutions can be exchanged. -/
theorem Built.exists_missed_orbit_balancing : ∃ s, ∃ e : Engine, ∃ rest found e',
    Built .costOrdered balancing s ∧ Searchable False (balancing.map Statement.plain) ∧
      branchings balancing = [.int .pair] ∧ Covered balancing s.store ∧
      IntBrancher.pair.value.equates = true ∧
      (∀ a : Assignment, (a.Within s.store ∧ ∀ c ∈ postings balancing, c.Holds a) →
        ∀ σ ∈ IntBrancher.pair.symmetries, ∀ e, σ.Allows e →
          ∃ a' : Assignment, (a'.Within s.store ∧ ∀ c ∈ postings balancing, c.Holds a') ∧
            IntBrancher.pair.valueAt a' = e.apply (IntBrancher.pair.valueAt a)) ∧
      (Engine.start .depthFirst s {}).run.Returns (.ok (e, rest)) ∧
      (e.take 9 9).Returns (found, true, e') ∧
      ∃ a : Assignment, a.Within s.store ∧ (∀ c ∈ postings balancing, c.Holds a) ∧
        ∀ s' ∈ found, ¬IntBrancher.pair.Reaches a s'.store.assignment := by
  have hcheck : buildsTo .costOrdered balancing (fun s =>
      Covered balancing s.store && decide (s.store.box.ints 0 = s.store.box.ints 1) &&
        s.store.admits [536870912, 536870912] &&
        Engine.runsTo .depthFirst {} 9 9 (fun found ended _ =>
          ended && decide (∀ s ∈ found, s.store.assignment.ints 0 = 0)) s) = true := by
    decide +kernel
  obtain ⟨s, hs, hproperty⟩ := exists_built_of_buildsTo hcheck
  rw [Bool.and_eq_true, Bool.and_eq_true, Bool.and_eq_true, decide_eq_true_eq,
    decide_eq_true_eq] at hproperty
  obtain ⟨⟨⟨hcovered, hsame⟩, hadmits⟩, hruns⟩ := hproperty
  obtain ⟨e, rest, found, ended, e', hstart, htake, hfound⟩ := Engine.exists_of_runsTo hruns
  rw [Bool.and_eq_true, decide_eq_true_eq] at hfound
  obtain ⟨rfl, hzero⟩ := hfound
  refine ⟨s, e, rest, found, e', hs, by decide, rfl, hcovered, rfl, fun a ha σ hσ e he => ?_,
    hstart, htake, .ofInts [536870912, 536870912], Store.within_of_admits hadmits, by decide,
    fun s' hs' hreaches => ?_⟩
  · refine IntBrancher.closed_pair
      (P := fun a => a.Within s.store ∧ ∀ c ∈ postings balancing, c.Holds a) ?_ ha hσ he
    rintro a ⟨hwithin, hholds⟩
    obtain ⟨hle, hge⟩ : 4 * a.ints 0 + (-4 * a.ints 1 + 0) ≤ 0 ∧
        -4 * a.ints 0 + (4 * a.ints 1 + 0) ≤ 0 :=
      ⟨hholds (.weightedAtMost [4, -4] [.root 0, .root 1] 0) (by decide),
        hholds (.weightedAtMost [-4, 4] [.root 0, .root 1] 0) (by decide)⟩
    refine ⟨hwithin.swapped hsame, List.forall_mem_cons.2 ⟨?_, List.forall_mem_singleton.2 ?_⟩⟩
    · show 4 * a.ints 1 + (-4 * a.ints 0 + 0) ≤ 0
      omega
    · show -4 * a.ints 1 + (4 * a.ints 0 + 0) ≤ 0
      omega
  · have hvalue := IntBrancher.eq_of_reaches_pair hreaches rfl rfl
    rw [hzero s' hs'] at hvalue
    exact absurd hvalue (by decide)

end ConstraintSearch
