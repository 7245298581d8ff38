import ConstraintSearch.Proofs.Search.Serial

/-!
# The end of a search, and the next one

A search by one worker that has returned nothing without being stopped is over: it returns nothing
more until it is reset. After a reset, only solutions of the new tree are returned, whatever the
search has left of the old one. A restart-based search resets its inner search when the first run
begins, and not before.

* `LimitedDiscrepancy.Walks`: the nodes that a probe has at hand belong to a tree;
* `Restarts.Awaits`: a restart-based search that has been reset;
* `Search.Stays`: a search that returns solutions from a set only, and `Search.Over`, one that is
  over;
* `Search.Ending`: how long it takes a search that is over to say so;
* `Engine.reset_exact`: what an engine returns after a reset.
-/

namespace ConstraintSearch

variable {s root : Space} {t : Tree} {S : Set Assignment}

/-! ### The probes of one tree -/

namespace Probe

variable {p p' : Probe}

/-- The nodes that are at hand belong to the tree. -/
structure Walks (t : Tree) (p : Probe) : Prop where
  current : ∀ node ∈ p.current, ∃ Q, t.Represents True node.1 Q
  stack : ∀ node ∈ p.stack, (∃ Q, t.Represents True node.space Q) ∧
    (∃ Q, t.Offers Q node.choice) ∧ node.alternative < node.choice.alternatives

theorem Walks.of_root {s : Option Space} (h : ∀ r ∈ s, ∃ Q, t.Represents True r Q)
    (discrepancy : Nat) : (p.reset s discrepancy).Walks t where
  current node hnode := by
    obtain ⟨r, hr, rfl⟩ := Option.mem_map.1 hnode
    exact h r hr
  stack node hnode := by cases hnode

/-- Only the node on top of the stack is changed by a return to it. -/
theorem Walks.resume {top : ProbeNode} {rest : List ProbeNode} {node : Space × EdgeInfo × Nat}
    (h : p.Walks t) (hstack : p.stack = top :: rest)
    (hresume : p.resume top rest = .ok (node, p')) :
    (∃ Q, t.Represents True node.1 Q) ∧ p'.Walks t := by
  obtain ⟨⟨Q, hrepresents⟩, ⟨R, hoffers⟩, hlt⟩ := h.stack top (hstack ▸ List.mem_cons_self)
  have hrest (other : ProbeNode) (hother : other ∈ rest) :=
    h.stack other (hstack ▸ List.mem_cons_of_mem top hother)
  obtain ⟨s, hcommit, hresume⟩ := Yields.exists_of_bind hresume
  obtain ⟨edge, -, hresume⟩ := Yields.exists_of_bind hresume
  cases hresume
  refine ⟨⟨_, (Tree.commit_law hrepresents hoffers hlt).of_ok hcommit⟩, h.current,
    fun other hother => ?_⟩
  dsimp only at hother
  split at hother
  · exact hrest other hother
  · rcases List.mem_cons.1 hother with rfl | hother
    · exact ⟨⟨Q, hrepresents⟩, ⟨R, hoffers⟩, by dsimp only; omega⟩
    · exact hrest other hother

/-- A node of the tree is explored: a leaf that is reported is a solution, and a split leaves nodes
of the tree. -/
theorem Walks.explore_law {Q : Set Box} (ht : t.Exact) (hgoal : t.goal = Set.univ) (h : p.Walks t)
    (hs : t.Represents True s Q) (edge : EdgeInfo) (depth : Nat) :
    (p.explore s edge depth).Ensures fun r => r.2.Walks t ∧
      ∀ s' ∈ r.1, s'.store.Assigned ∧ t.Solution s'.store.assignment := by
  have hkeeps (statistics : Statistics) (tracing : Tracing) :
      { p with statistics, tracing }.Walks t := ⟨h.current, h.stack⟩
  unfold explore
  refine (statusOf_law hs _).ensures.bind ?_
  rintro ⟨status, s₁, statistics⟩ ⟨hjudged, -⟩
  cases status with
  | failed => exact .pure ⟨hkeeps _ _, fun s' hs' => by cases hs'⟩
  | solved =>
    have hsolves := hjudged.1.solves ht (hgoal ▸ Set.subset_univ Q) hjudged.2
    refine .pure ⟨hkeeps _ _, fun s' hs' => ?_⟩
    dsimp only at hs'
    split at hs'
    · cases hs'
      exact ⟨hsolves.assigned, ((hsolves.mem_iff _).2 rfl).2⟩
    · cases hs'
  | branch =>
    refine (Journaled.Ensures.lift fun r hr =>
      (Tree.choice_law hjudged.1 hjudged.2).of_ok hr).bind ?_
    rintro ⟨choice, s₂⟩ ⟨hoffers, hrepresents⟩
    dsimp only at hoffers hrepresents
    have htwo := hoffers.two_le
    refine (Journaled.Ensures.lift fun q hq => hq).bind fun q hsplit => .pure ⟨?_, fun s' hs' => by
      cases hs'⟩
    obtain ⟨first, hcommit, hsplit⟩ := Yields.exists_of_bind hsplit
    obtain ⟨edge', -, hsplit⟩ := Yields.exists_of_bind hsplit
    cases hsplit
    dsimp only at hcommit
    have hfirst := (Tree.commit_law hrepresents hoffers (by omega)).of_ok hcommit
    refine ⟨fun node hnode => ?_, fun node hnode => ?_⟩
    · cases hnode
      exact ⟨_, hfirst⟩
    · dsimp only at hnode
      split at hnode
      · exact h.stack node hnode
      · rcases List.mem_cons.1 hnode with rfl | hnode
        · exact ⟨⟨Q, hrepresents⟩, ⟨Q, hoffers⟩, by dsimp only; omega⟩
        · exact h.stack node hnode

end Probe

namespace LimitedDiscrepancy

variable {σ : Type} {l : LimitedDiscrepancy σ}

/-- The search is one of the tree. -/
structure Walks (t : Tree) (l : LimitedDiscrepancy σ) : Prop where
  root : ∀ s ∈ l.root, t.Represents True s t.whole
  probe : l.probe.Walks t

theorem walks_of_reset (hs : t.Represents True s t.whole) : (l.reset s).Ensures (Walks t) := by
  refine (statusOf_law hs _).ensures.bind ?_
  rintro ⟨status, s₁, statistics⟩ ⟨hjudged, -⟩
  have hrepresents := hjudged.represents
  dsimp only
  split
  · exact .pure ⟨(fun r hr => by cases hr), .of_root (fun r hr => by cases hr) 0⟩
  · refine .pure ⟨fun r hr => ?_, .of_root (fun r hr => ?_) 0⟩
    · dsimp only at hr
      split at hr
      · cases hr
        exact hrepresents
      · cases hr
    · cases hr
      exact ⟨_, hrepresents⟩

theorem Walks.nextProbe (h : l.Walks t) : l.nextProbe.2.Walks t := by
  unfold LimitedDiscrepancy.nextProbe
  by_cases hlast : l.probe.exhausted = true ∨ l.limit ≤ l.discrepancy
  · rw [if_pos hlast]
    exact h
  · rw [if_neg hlast]
    cases hroot : l.root with
    | none => exact ⟨(fun r hr => by cases hr), h.probe⟩
    | some s =>
      have hs := h.root s hroot
      refine ⟨fun r hr => ?_, .of_root (fun r hr => ?_) _⟩
      · dsimp only at hr
        split at hr
        · cases hr
        · cases hr
          exact hs
      · cases hr
        exact ⟨_, hs⟩

variable [StopCondition σ]

/-- What a search of the tree reports are solutions of the tree. -/
theorem Walks.step_law (ht : t.Exact) (hgoal : t.goal = Set.univ) (h : l.Walks t) :
    l.step.Ensures fun r => r.2.Walks t ∧
      ∀ s, r.1 = some (.solution s) → s.store.Assigned ∧ t.Solution s.store.assignment := by
  have hexplore {l : LimitedDiscrepancy σ} {s : Space} (h : l.Walks t)
      (hs : ∃ Q, t.Represents True s Q) (edge : EdgeInfo) (depth : Nat) :
      (l.explore s edge depth).Ensures fun r => r.2.Walks t ∧
        ∀ s, r.1 = some (.solution s) → s.store.Assigned ∧ t.Solution s.store.assignment := by
    obtain ⟨Q, hs⟩ := hs
    have hprobe : { l.probe with current := none }.Walks t :=
      ⟨(fun node hnode => by cases hnode), h.probe.stack⟩
    refine (hprobe.explore_law ht hgoal hs edge depth).bind ?_
    rintro ⟨solution, probe⟩ ⟨hprobe', hsolution⟩
    cases solution with
    | none => exact .pure ⟨⟨h.root, hprobe'⟩, fun s hs => by cases hs⟩
    | some s' =>
      refine .pure ⟨⟨h.root, hprobe'.current, hprobe'.stack⟩, fun s hs => ?_⟩
      cases hs
      exact hsolution s' rfl
  unfold step
  split
  · rename_i s edge depth hcurrent
    exact hexplore h (h.probe.current _ hcurrent) edge depth
  · refine .pure ⟨h.nextProbe, fun s hs => ?_⟩
    unfold LimitedDiscrepancy.nextProbe at hs
    split at hs
    · cases hs
    · dsimp only at hs
      split at hs <;> cases hs
  · rename_i top rest hcurrent hstack
    refine Journaled.Ensures.trivial.bind ?_
    rintro ⟨holds, stop⟩ -
    dsimp only
    split
    · exact .pure ⟨⟨h.root, h.probe⟩, fun s hs => by cases hs⟩
    · refine (Journaled.Ensures.lift fun r hr => hr).bind ?_
      rintro ⟨⟨s, edge, depth⟩, probe⟩ hresume
      obtain ⟨hs, hprobe⟩ := h.probe.resume hstack hresume
      exact hexplore (l := { l with stop, probe }) ⟨h.root, hprobe⟩ hs edge depth

end LimitedDiscrepancy

section Engines

variable {σ ρ : Type} [StopCondition σ] [CutoffSequence ρ]

/-! ### Restarts -/

namespace Restarts

variable {r : Restarts (Option σ) ρ}

/-- The search has been reset to the tree below its master, and will begin to explore it. -/
structure Awaits (r : Restarts (Option σ) ρ) : Prop where
  restart : r.restart = true
  exploresMaster : r.exploresMaster = false
  optimising : r.optimising = r.master.objective.isSome
  optimises : r.master.objective.isSome = true → r.inner.optimises = true
  explorer : r.inner.explorer?.isSome = true
  userStopped : r.inner.stop.userStopped = false
  roots : ∃ posted chain, r.master.Roots True posted chain ∧ (r.master.tree posted chain).Exact
  alive : ∀ s, ¬r.master.status.Returns (.failed, s)

omit [StopCondition σ] in
/-- The first run begins, whatever the inner search has left of another tree. -/
theorem Awaits.begin_law (h : r.Awaits) : r.begin.Ensures fun p => p.1 = none ∧
    p.2.Seeks True True (fun _ => True) r.master.objective r.master.solutions := by
  obtain ⟨before, hbefore⟩ := CompleteSearch.exists_statistics h.explorer
  obtain ⟨posted, chain, hroots, hexact⟩ := h.roots
  rw [begin_eq, hbefore]
  refine (Journaled.Ensures.lift (P := (· = before)) fun a ha => (Except.ok.inj ha).symm).bind ?_
  intro statistics heq
  rw [heq]
  have hlearn : (r.limited before.fails).learn = pure (true, r.limited before.fails) := by
    unfold Restarts.learn
    rw [if_pos]
    show (!r.exploresMaster) = true
    rw [h.exploresMaster]
    rfl
  rw [hlearn, pure_bind]
  refine (hroots.statusOf_law _).ensures.self.bind ?_
  rintro ⟨status, master, statistics⟩ ⟨hstatus, hreturns⟩
  have halive : status ≠ .failed := by
    rintro rfl
    obtain ⟨⟨status, s⟩, hs, hreturns⟩ := Journaled.exists_of_returns_bind hreturns
    cases Journaled.of_returns_pure hreturns
    exact h.alive _ hs
  dsimp only at hstatus ⊢
  rw [if_neg halive] at hstatus ⊢
  obtain ⟨hroots', hnarrows, hobjective, hsolutions⟩ := hstatus
  set r₂ : Restarts (Option σ) ρ := { r.limited before.fails with master, statistics } with hr₂
  have hstop : r₂.inner.stop = { r.inner.stop with
      failLimit := some (before.fails + (nextLimit r.cutoffs).1) } :=
    CompleteSearch.stop_withStop _
  have hone := one_le_nextLimit r.cutoffs
  refine Journaled.Ensures.trivial.bind fun _ _ => ?_
  refine (reset_inner_law (ε := True) (P := fun _ => True) (r := r₂)
    (h.optimising.trans (congrArg Option.isSome hobjective.symm))
    (fun hsome => (CompleteSearch.optimises_withStop _).trans (h.optimises (hobjective ▸ hsome)))
    trivial (hstop ▸ h.userStopped) (congrArg Cutoff.failLimit hstop)
    ((congrArg Option.isSome (CompleteSearch.explorer?_withStop _)).trans h.explorer)
    ((CompleteSearch.statistics_withStop _).trans hbefore) (by omega) hroots'
    fun _ => hexact.extend hnarrows rfl (n := ∅) rfl).ensures.bind ?_
  rintro inner ⟨G, -, hpending, hruns⟩
  exact .pure ⟨rfl, _, _, G, hruns, hobjective, fun _ => hpending.trans hsolutions⟩

end Restarts

/-! ### The end of a search -/

namespace Search

variable {search : Search σ ρ}

/-- The search returns assignments of the set only. -/
def Stays (S : Set Assignment) : Search σ ρ → Prop
  | complete search => search.Spent ∨ ∃ objective n, ∃ Open ⊆ S,
      (complete search : Search σ ρ).Seeks True (fun _ => True) objective n Open
  | limitedDiscrepancy l => l.Spent ∨ ∃ t : Tree, t.Exact ∧ t.goal = Set.univ ∧
      (∀ a, t.Solution a → a ∈ S) ∧ l.Walks t
  | restarts r => (∃ objective, ∃ Open ⊆ S, r.Seeks True True (fun _ => True) objective Open) ∨
      r.Awaits ∧ r.master.solutions ⊆ S

/-- The search is over. An inner search that has something left to explore then has no solutions
left, since the master has failed. -/
def Over : Search σ ρ → Prop
  | complete search => search.Spent
  | limitedDiscrepancy l => l.Spent
  | restarts r => r.restart = false ∧
      (∃ objective, r.Seeks True True (fun _ => True) objective ∅) ∧
      (r.master.isFailed = true ∨ r.inner.Spent)

omit [StopCondition σ] [CutoffSequence ρ] in
theorem Over.stays (h : search.Over) : search.Stays ∅ := by
  cases search with
  | complete search => exact .inl h
  | limitedDiscrepancy l => exact .inl h
  | restarts r =>
    obtain ⟨objective, hseeks⟩ := h.2.1
    exact .inl ⟨objective, ∅, Set.Subset.rfl, hseeks⟩

/-- What a step of a search in a set does. -/
def Obeys (S : Set Assignment) (r : Option Outcome × Search σ ρ) : Prop :=
  (∀ s, r.1 = some (.solution s) → s.store.Assigned ∧ s.store.assignment ∈ S) ∧ r.2.Stays S ∧
    (r.1 = some .exhausted → r.2.Over)

theorem Stays.step_complete {search : CompleteSearch (Option σ)}
    (h : (complete search : Search σ ρ).Stays S) :
    (complete search : Search σ ρ).step.Ensures (Obeys S) := by
  rcases h with hspent | ⟨objective, n, Open, hsubset, hseeks⟩
  · obtain ⟨statistics, -, hstep⟩ := CompleteSearch.step_of_spent hspent
    show Journaled.Ensures (search.step >>= _) _
    rw [hstep, bind_assoc]
    refine Journaled.Ensures.trivial.bind ?_
    rintro ⟨holds, stop⟩ -
    refine .pure ⟨fun s hs => ?_, .inl (hspent.withStop stop), fun _ => hspent.withStop stop⟩
    cases holds <;> cases hs
  · have hspent : (complete search : Search σ ρ).step.Ensures fun r =>
        r.1 = some .exhausted → r.2.Over := by
      obtain ⟨-, t, since, F, -, -, hsearch, -, -⟩ := hseeks
      exact (CompleteSearch.ensures_step hsearch.isSome_explorer).bind fun r hr => .pure hr.spent
    intro r hr
    have hstepped := Search.ensures_step hseeks r hr
    refine ⟨fun s hs => ?_, ?_, hspent r hr⟩
    · obtain ⟨outcome, search'⟩ := r
      cases hs
      exact ⟨hstepped.1, hsubset hstepped.2.1⟩
    · obtain ⟨outcome, search'⟩ := r
      have hcomplete {m : Nat} {Open' : Set Assignment} (hsubset : Open' ⊆ S)
          (hseeks : search'.Seeks True (fun _ => True) objective m Open') : search'.Stays S := by
        cases search' with
        | complete search' => exact .inr ⟨objective, m, Open', hsubset, hseeks⟩
        | limitedDiscrepancy l => exact hseeks.elim
        | restarts r => exact hseeks.elim
      rcases outcome with _ | s | _ | _
      · obtain ⟨m, -, hseeks'⟩ := hstepped
        exact hcomplete hsubset hseeks'
      · obtain ⟨-, -, m, -, hseeks'⟩ := hstepped
        exact hcomplete ((Set.sep_subset _ _).trans hsubset) hseeks'
      · exact hcomplete hsubset hstepped.2
      · obtain ⟨stop, statistics, -, hseeks'⟩ := hstepped
        exact hcomplete hsubset (hseeks' trivial)

theorem Stays.step_limitedDiscrepancy {l : LimitedDiscrepancy (Option σ)}
    (h : (limitedDiscrepancy l : Search σ ρ).Stays S) :
    (limitedDiscrepancy l : Search σ ρ).step.Ensures (Obeys S) := by
  rcases h with hspent | ⟨t, hexact, hgoal, hsubset, hwalks⟩
  · obtain ⟨l', hspent', hstep⟩ := LimitedDiscrepancy.step_of_spent hspent
    show Journaled.Ensures (l.step >>= _) _
    rw [hstep]
    exact .pure ⟨fun s hs => (by cases hs), .inl hspent', fun _ => hspent'⟩
  · refine Journaled.Ensures.bind (P := fun r => (r.2.Walks t ∧ ∀ s, r.1 = some (.solution s) →
      s.store.Assigned ∧ t.Solution s.store.assignment) ∧ (r.1 = some .exhausted → r.2.Spent)) ?_ ?_
    · exact fun r hr => ⟨hwalks.step_law hexact hgoal r hr, l.spent_of_step r hr⟩
    · rintro ⟨outcome, l'⟩ ⟨⟨hwalks', hsolution⟩, hspent⟩
      exact .pure ⟨fun s hs => ⟨(hsolution s hs).1, hsubset _ (hsolution s hs).2⟩,
        .inr ⟨t, hexact, hgoal, hsubset, hwalks'⟩, hspent⟩

theorem Stays.step_restarts {r : Restarts (Option σ) ρ} (h : (restarts r).Stays S) :
    (restarts r).step.Ensures (Obeys S) := by
  rcases h with ⟨objective, Open, hsubset, hseeks⟩ | ⟨hawaits, hsubset⟩
  · have hreported := Search.ensures_restarts ⟨r, rfl, hseeks⟩
    have hover : r.step.Ensures fun p => p.1 = some .exhausted →
        p.2.restart = false ∧ (p.2.master.isFailed = true ∨ p.2.inner.Spent) := by
      obtain ⟨t, since, F, hruns, -, -⟩ := hseeks
      cases hrestart : r.restart with
      | true =>
        rw [show r.step = r.begin from if_pos hrestart]
        refine (Restarts.begin_law hruns hrestart).ensures.mono ?_
        rintro ⟨outcome, r'⟩ ⟨hrestart', hbegun⟩ rfl
        exact ⟨hrestart', .inl hbegun.2.1⟩
      | false =>
        refine (Restarts.ensures_step_of_running hrestart hruns.seeks.isSome_explorer).mono ?_
        rintro ⟨outcome, r'⟩ hr rfl
        obtain ⟨hrestart', hspent⟩ := (hr fun s => nofun).2 rfl
        exact ⟨hrestart', .inr hspent⟩
    have hlift : (restarts r).step.Ensures fun p => p.1 = some .exhausted → ∀ r',
        p.2 = restarts r' → r'.restart = false ∧ (r'.master.isFailed = true ∨ r'.inner.Spent) := by
      refine hover.bind fun p hp => .pure fun hexhausted r' hr' => ?_
      cases hr'
      exact hp hexhausted
    intro p hp
    have hp' := hreported p hp
    obtain ⟨outcome, search'⟩ := p
    have hstays {Open' : Set Assignment} (hsubset : Open' ⊆ S) (hI : ∃ r', search' = restarts r' ∧
        r'.Seeks True True (fun _ => True) objective Open') : search'.Stays S := by
      obtain ⟨r', rfl, hseeks'⟩ := hI
      exact .inl ⟨objective, Open', hsubset, hseeks'⟩
    rcases outcome with _ | s | _ | _
    · exact ⟨(fun s hs => by cases hs), hstays hsubset hp', fun hx => by cases hx⟩
    · refine ⟨fun s' hs' => ?_, hstays ((Set.sep_subset _ _).trans hsubset) hp'.2.2,
        fun hx => by cases hx⟩
      cases hs'
      exact ⟨hp'.1, hsubset hp'.2.1⟩
    · refine ⟨(fun s hs => by cases hs), hstays hsubset hp'.2, fun _ => ?_⟩
      obtain ⟨rfl, r', rfl, hseeks'⟩ := hp'
      obtain ⟨hrestart, hend⟩ := hlift _ hp rfl r' rfl
      exact ⟨hrestart, ⟨objective, hseeks'⟩, hend⟩
    · exact ⟨(fun s hs => by cases hs), hstays hsubset hp', fun hx => by cases hx⟩
  · show Journaled.Ensures (r.step >>= _) _
    rw [show r.step = r.begin from if_pos hawaits.restart]
    refine hawaits.begin_law.bind ?_
    rintro ⟨outcome, r'⟩ ⟨rfl, hseeks⟩
    exact .pure ⟨(fun s hs => by cases hs), .inl ⟨_, _, hsubset, hseeks⟩, fun hx => by cases hx⟩

/-- A search that stays in a set returns solutions of it only. -/
theorem Stays.step_law (h : search.Stays S) : search.step.Ensures (Obeys S) := by
  cases search with
  | complete search => exact h.step_complete
  | limitedDiscrepancy l => exact h.step_limitedDiscrepancy
  | restarts r => exact h.step_restarts

end Search

/-! ### No call is left without an answer -/

namespace Restarts

variable {r : Restarts (Option σ) ρ} {n : Nat}

/-- The limit of failures is not reached. -/
def BelowLimit (r : Restarts (Option σ) ρ) : Prop :=
  ∀ limit ∈ r.inner.stop.failLimit, ∀ statistics ∈ r.inner.statistics.toOption,
    statistics.fails < limit

instance (r : Restarts (Option σ) ρ) : Decidable r.BelowLimit :=
  inferInstanceAs (Decidable (∀ limit ∈ r.inner.stop.failLimit,
    ∀ statistics ∈ r.inner.statistics.toOption, statistics.fails < limit))

/-- The run is not interrupted for another one. -/
def RunsLast (r : Restarts (Option σ) ρ) : Prop := r.master.isFailed = true ∨ r.BelowLimit

instance (r : Restarts (Option σ) ρ) : Decidable r.RunsLast :=
  inferInstanceAs (Decidable (r.master.isFailed = true ∨ r.BelowLimit))

/-- A bound for the number of steps that an answer takes, once no solutions are left: a step if
nothing is left to explore, or the nodes that are left, and the failed master. -/
inductive Ending (n : Nat) (r : Restarts (Option σ) ρ) : Prop
  | spent (hrestart : r.restart = false) (hstopped : r.inner.stop.userStopped = false)
      (hspent : r.inner.Spent) (hlast : r.BelowLimit)
  | failed {t : Tree} {since : Nat} {F : Frontier}
      (hruns : r.Runs True True (fun _ => True) t since F) (hempty : F.pending t = ∅)
      (hfailed : r.master.isFailed = true) (hbound : r.restart = true ∨ F.bound t < n)

/-- A step without an outcome makes the bound smaller, and there are no solutions. -/
def Ends (n : Nat) (p : Option Outcome × Restarts (Option σ) ρ) : Prop :=
  (∀ s, p.1 ≠ some (.solution s)) ∧ (p.1 = none → ∃ m < n, p.2.Ending m) ∧ ∃ m, p.2.Ending m

theorem ends_of_spent [LawfulStopCondition σ] (hrestart : r.restart = false)
    (hstopped : r.inner.stop.userStopped = false)
    (hspent : r.inner.Spent) (hlast : r.BelowLimit) :
    Journaled.Yields True r.step (Ends n) := by
  obtain ⟨statistics, hstatistics, hstep⟩ := CompleteSearch.step_of_spent hspent
  unfold Restarts.step
  rw [if_neg (by rw [hrestart]; decide), hstep, bind_assoc]
  refine (Journaled.Yields.lift (polls_cutoff polls_any r.inner.stop.failLimit r.inner.stop
    ⟨trivial, rfl, hstopped⟩ statistics).self).bind ?_
  rintro ⟨holds, stop⟩ ⟨-, hpoll⟩
  obtain ⟨hlimit, hnot, hheld⟩ := Cutoff.of_poll hstopped hpoll
  have hending (stop' : Cutoff (Option σ)) (hlimit' : stop'.failLimit = stop.failLimit)
      (hstopped' : stop'.userStopped = false) :
      Ending n { r with inner := r.inner.withStop stop' } := by
    refine .spent hrestart ?_ (hspent.withStop stop') ?_
    · dsimp only
      rw [CompleteSearch.stop_withStop, hstopped']
    · unfold BelowLimit
      dsimp only
      rw [CompleteSearch.stop_withStop, CompleteSearch.statistics_withStop, hlimit', hlimit]
      exact hlast
  rw [pure_bind]
  cases holds with
  | false =>
    have hfalse := hnot rfl
    refine Journaled.Yields.pure ?_
    unfold endRun
    dsimp only
    rw [CompleteSearch.stop_withStop, if_neg (by rw [hfalse]; decide)]
    exact ⟨nofun, nofun, n, hending stop rfl hfalse⟩
  | true =>
    -- The condition of the user holds, since the limit is not reached.
    have htrue : stop.userStopped = true := by
      by_contra hfalse
      obtain ⟨limit, hmem, hle⟩ := hheld rfl (by simpa using hfalse)
      exact absurd hle (not_le.2 (hlast limit hmem statistics (by rw [hstatistics]; rfl)))
    refine Journaled.Yields.pure ?_
    unfold endRun
    dsimp only
    rw [CompleteSearch.stop_withStop, if_pos htrue]
    refine ⟨nofun, nofun, n, ?_⟩
    have hending' := hending { stop with userStopped := false } rfl rfl
    rwa [show (r.inner.withStop stop).withStop { stop with userStopped := false } =
      r.inner.withStop { stop with userStopped := false } by cases r.inner <;> rfl]

theorem ends_of_failed [LawfulStopCondition σ] {since : Nat} {F : Frontier}
    (hruns : r.Runs True True (fun _ => True) t since F) (hempty : F.pending t = ∅)
    (hfailed : r.master.isFailed = true) (hbound : r.restart = true ∨ F.bound t < n) :
    Journaled.Yields True r.step (Ends n) := by
  cases hrestart : r.restart with
  | true =>
    rw [show r.step = r.begin from if_pos hrestart]
    refine (begin_law hruns hrestart).mono ?_
    rintro ⟨outcome, r'⟩ ⟨-, hbegun⟩
    rcases outcome with _ | s | _ | _
    · obtain ⟨-, -, -, -, -, halive, -⟩ := hbegun
      exact absurd (hfailed.symm.trans halive) (by decide)
    · exact hbegun.elim
    · exact ⟨nofun, nofun, _, .failed hbegun.2.2 hempty hbegun.2.1 (.inr (Nat.lt_succ_self _))⟩
    · exact hbegun.elim
  | false =>
    have hlt : F.bound t < n := hbound.resolve_left (by rw [hrestart]; decide)
    refine (step_inner_law polls_any (fun _ _ _ => trivial) hruns hrestart).self.mono ?_
    rintro ⟨outcome, r'⟩ ⟨hadvanced, hreturns⟩
    have hkept := (ensures_step_of_running hrestart hruns.seeks.isSome_explorer).of_returns hreturns
    rcases outcome with _ | s | _ | _
    · have hfailed' : r'.master.isFailed = true := hadvanced.1 ▸ hfailed
      rcases hadvanced.2 with ⟨-, G, hG, hruns'⟩ | ⟨hrestart', hruns', -⟩
      · have hending : r'.Ending (F.bound t) :=
          .failed hruns' (hG.pending.trans hempty) hfailed' (.inr hG.bound)
        exact ⟨nofun, fun _ => ⟨_, hlt, hending⟩, _, hending⟩
      · have hending : r'.Ending (F.bound t) := .failed hruns' hempty hfailed' (.inl hrestart')
        exact ⟨nofun, fun _ => ⟨_, hlt, hending⟩, _, hending⟩
    · have hmem := (hadvanced.1 trivial).2
      rw [hempty] at hmem
      exact hmem.elim
    · have hfailed' : r'.master.isFailed = true := (hkept nofun).1 ▸ hfailed
      exact ⟨nofun, nofun, _, .failed hadvanced.2 (Frontier.pending_nil t) hfailed'
        (.inr (Nat.lt_succ_self _))⟩
    · have hfailed' : r'.master.isFailed = true := (hkept nofun).1 ▸ hfailed
      exact ⟨nofun, nofun, _, .failed hadvanced.1 hempty hfailed' (.inr (Nat.lt_succ_self _))⟩

theorem Ending.step_law [LawfulStopCondition σ] (h : r.Ending n) :
    Journaled.Yields True r.step (Ends n) := by
  cases h with
  | spent hrestart hstopped hspent hlast => exact ends_of_spent hrestart hstopped hspent hlast
  | failed hruns hempty hfailed hbound => exact ends_of_failed hruns hempty hfailed hbound

end Restarts

namespace Search

variable {search : Search σ ρ} {n : Nat}

/-- A restart-based search does not begin again. -/
def RunsLast : Search σ ρ → Prop
  | restarts r => r.RunsLast
  | complete _ | limitedDiscrepancy _ => True

instance : (search : Search σ ρ) → Decidable search.RunsLast
  | restarts r => inferInstanceAs (Decidable r.RunsLast)
  | complete _ | limitedDiscrepancy _ => inferInstanceAs (Decidable True)

/-- A bound for the number of steps that an answer takes, once no solutions are left. -/
def Ending (n : Nat) : Search σ ρ → Prop
  | complete search => search.Spent
  | limitedDiscrepancy l => l.Spent
  | restarts r => r.Ending n

omit [StopCondition σ] [CutoffSequence ρ] in
theorem Over.exists_ending (h : search.Over) (hlast : search.RunsLast) : ∃ n, search.Ending n := by
  cases search with
  | complete search => exact ⟨0, h⟩
  | limitedDiscrepancy l => exact ⟨0, h⟩
  | restarts r =>
    obtain ⟨hrestart, ⟨objective, t, since, F, hruns, -, hempty⟩, hend⟩ := h
    by_cases hfailed : r.master.isFailed = true
    · exact ⟨_, .failed hruns (hempty trivial) hfailed (.inr (Nat.lt_succ_self _))⟩
    · exact ⟨0, .spent hrestart hruns.userStopped (hend.resolve_left hfailed)
        (hlast.resolve_left hfailed)⟩

theorem Ending.step_law [LawfulStopCondition σ] (h : search.Ending n) :
    Journaled.Yields True search.step fun r =>
    (∀ s, r.1 ≠ some (.solution s)) ∧ (r.1 = none → ∃ m < n, r.2.Ending m) ∧
      ∃ m, r.2.Ending m := by
  cases search with
  | complete search =>
    obtain ⟨statistics, -, hstep⟩ := CompleteSearch.step_of_spent h
    show Journaled.Yields True (search.step >>= _) _
    rw [hstep, bind_assoc]
    refine (Journaled.Yields.lift (polls_any _ trivial _)).bind ?_
    rintro ⟨holds, stop⟩ -
    have hspent : (complete (search.withStop stop) : Search σ ρ).Ending 0 :=
      CompleteSearch.Spent.withStop h stop
    refine Journaled.Yields.pure ⟨?_, nofun, 0, hspent⟩
    cases holds <;> nofun
  | limitedDiscrepancy l =>
    obtain ⟨l', hspent, hstep⟩ := LimitedDiscrepancy.step_of_spent h
    show Journaled.Yields True (l.step >>= _) _
    rw [hstep]
    exact Journaled.Yields.pure ⟨nofun, nofun, 0, hspent⟩
  | restarts r => exact (Restarts.Ending.step_law h).bind fun p hp => Journaled.Yields.pure hp

end Search

namespace Engine

variable {e e' : Engine σ ρ} {found : List Space}

/-- A call returns nothing after so many steps. -/
theorem next_of_ending [LawfulStopCondition σ] {n steps : Nat} (h : e.search.Ending n)
    (hsteps : n < steps) :
    Journaled.Yields True (e.next steps) fun r => r.1 = none := by
  have hsearch : Journaled.Yields True (searchWithin Search.step steps e.search)
      fun r => ∀ s, r.1 ≠ .solution s := by
    refine searchWithin_law (J := Search.Ending) (fun m search hm => hm.step_law.mono ?_) h hsteps
    rintro ⟨outcome, search'⟩ ⟨hnot, hless, -⟩
    cases outcome with
    | none => exact hless rfl
    | some outcome => exact fun s hs => hnot s (congrArg some hs)
  unfold next
  refine hsearch.bind ?_
  rintro ⟨outcome, search⟩ hnot
  cases outcome with
  | solution s => exact absurd rfl (hnot s)
  | exhausted => exact Journaled.Yields.pure rfl
  | stopped => exact Journaled.Yields.pure rfl

/-- Calls leave a search that has ended. -/
theorem Calls.exists_ending [LawfulStopCondition σ] (hcalls : Calls e found e')
    (h : ∃ n, e.search.Ending n) :
    ∃ n, e'.search.Ending n := by
  refine (hcalls.ensures (I := fun search => ∃ n, search.Ending n) (K := fun _ => True)
    (P := fun _ => True) (fun search ⟨n, hn⟩ => hn.step_law.ensures.mono fun r hr =>
      ⟨fun _ _ => trivial, hr.2.2, fun _ => trivial⟩) h).2

end Engine

/-! ### The next search -/

/-- What an engine is reset to: a space that was built, with an objective, or one that has
failed. -/
inductive Searched (policy : Policy) (statements : List Statement) : Space → Prop
  | built {s : Space} {objective : Option Objective} (h : Built policy statements s)
      (hw : Searchable True statements) (hcovered : Covered statements s.store)
      (ho : ∀ o ∈ objective, o.variable.index < s.store.ints.size) :
      Searched policy statements { s with objective }
  | failed {s : Space} (h : s.isFailed = true) : Searched policy statements s

omit [StopCondition σ] [CutoffSequence ρ] in
/-- A search that is reset returns solutions of its new root only, unless it is restart-based and
does not reach its new root. -/
theorem Search.Serial.stays_of_reset {policy : Policy} {statements : List Statement}
    {search : Search σ ρ} {kind : EngineKind} {optimises : Bool}
    (h : search.Serial kind optimises)
    (hroot : Searched policy statements root)
    (hrestarts : kind = .restarts → (root.objective.isSome = true → optimises = true) ∧
      ∀ s, ¬root.status.Returns (.failed, s)) :
    (search.reset root).Ensures
      (Stays {a | root.isFailed = false ∧ SolutionOf statements root a}) := by
  cases hroot with
  | failed hfailed =>
    cases search with
    | complete search =>
      exact (CompleteSearch.ensures_reset h.1).bind fun search' hs' =>
        .pure (.inl (hs'.2.2.2 hfailed))
    | limitedDiscrepancy l =>
      exact (LimitedDiscrepancy.spent_of_reset hfailed).bind fun l' hl' => .pure (.inl hl')
    | restarts r =>
      have hstatus : root.status = pure (.failed, root) := by
        unfold Space.status Space.propagate
        rw [if_pos hfailed, pure_bind, if_pos hfailed]
      refine absurd ?_ ((hrestarts h.1).2 root)
      rw [hstatus]
      exact ⟨#[], rfl⟩
  | @built s objective hbuilt hw hcovered ho =>
    obtain ⟨posted, hcompiles, hroots⟩ := hbuilt.exists_roots hw.proper hw.branched fun o hmem =>
      ⟨ho o hmem, .inr trivial⟩
    set root : Space := { s with objective } with hroot
    have halive : root.isFailed = false := hroots.tracks.ready.alive
    have hexact : (root.tree posted ((branchings statements).map Brancher.base)).Exact :=
      Tree.exact_of_covered hcompiles hw.distinct rfl rfl hcovered
    have hsolution (a : Assignment) :
        (root.tree posted ((branchings statements).map Brancher.base)).Solution a ↔
          SolutionOf statements root a := Tree.solution_iff hcompiles rfl rfl
    have hsolutions : root.solutions ⊆ {a | root.isFailed = false ∧ SolutionOf statements root a} :=
      fun a ha => ⟨halive, (hsolution a).1 (hroots.mem_solutions_iff.1 ha)⟩
    cases search with
    | complete search =>
      obtain ⟨statistics, hstatistics⟩ := CompleteSearch.exists_statistics h.1
      refine (CompleteSearch.reset_law hroots.regular rfl hroots.represents h.1
        hstatistics).ensures.bind ?_
      rintro search' ⟨-, -, F, hopens, hseeks⟩
      refine .pure (.inr ⟨_, F.bound _, _, hsolutions, trivial, _, _, F, rfl, hexact, hseeks, ?_,
        le_refl _⟩)
      rw [hopens.pending]
      exact Set.ext fun a => hroots.mem_solutions_iff.symm
    | limitedDiscrepancy l =>
      refine (LimitedDiscrepancy.walks_of_reset hroots.represents).bind fun l' hl' => .pure (.inr
        ⟨_, hexact, rfl, fun a ha => ⟨halive, (hsolution a).1 ha⟩, hl'⟩)
    | restarts r =>
      obtain ⟨hkind, hserial⟩ := h
      exact .pure (.inr ⟨⟨rfl, rfl, rfl, fun hsome => hserial.optimises.trans
        ((hrestarts hkind).1 hsome), hserial.explorer, hserial.userStopped,
        ⟨posted, _, hroots, hexact⟩, (hrestarts hkind).2⟩, hsolutions⟩)

namespace Engine

/-- **A reset begins anew, and the end of a search is final.** Whatever an engine with one worker
has searched, stopped or exhausted, after a reset it returns solutions of the new space only, and
nothing if this has failed. Once a call that was not stopped has returned nothing, all later calls
return nothing, and they do return if the stop condition faults in arithmetic at most. A
restart-based engine is only this reliable if the new space does not fail at its root, and has no
objective unless the first space had one. -/
theorem reset_exact {policy : Policy} {statements : List Statement} {kind : EngineKind}
    {options : SearchOptions σ ρ} {s₀ rest : Space} {e₀ e e₁ e₂ : Engine σ ρ} {found : List Space}
    (hroot : Searched policy statements root) (hthreads : options.threads = 1)
    (hstart : (start kind s₀ options).run.Returns (.ok (e₀, rest))) (hleads : e₀.LeadsTo e)
    (hrestarts : kind = .restarts → (root.objective.isSome = true → s₀.objective.isSome = true) ∧
      ∀ s, ¬root.status.Returns (.failed, s))
    (hreset : (e.reset root).Returns e₁) (hcalls : e₁.Calls found e₂) :
    (∀ s ∈ found, root.isFailed = false ∧ s.store.Assigned ∧
      SolutionOf statements root s.store.assignment) ∧
    ∀ steps e₃, (e₂.next steps).Returns (none, e₃) → e₃.hasStopped = false →
      ∀ found' e₄, e₃.Calls found' e₄ → found' = [] ∧
        (LawfulStopCondition σ → e₃.search.RunsLast →
          ∃ n, ∀ steps > n, Journaled.Yields True (e₄.next steps) fun r => r.1 = none) := by
  obtain ⟨search, hsearch, rfl⟩ := exists_search_of_start hthreads hstart
  have hserial : e.search.Serial kind s₀.objective.isSome :=
    hleads.serial ((Search.serial_of_start hthreads).of_returns hsearch)
  obtain ⟨search', hsearch', hreset⟩ := Journaled.exists_of_returns_bind hreset
  cases Journaled.of_returns_pure hreset
  have hstays := (hserial.stays_of_reset hroot hrestarts).of_returns hsearch'
  obtain ⟨hfound, hstays₂⟩ := hcalls.ensures (fun _ => Search.Stays.step_law) hstays
  refine ⟨fun s hs => ⟨(hfound s hs).2.1, (hfound s hs).1, (hfound s hs).2.2⟩, ?_⟩
  intro steps e₃ hnext hstopped found' e₄ hlater
  have hover : e₃.search.Over :=
    ((ensures_next (fun _ => Search.Stays.step_law) hstays₂ steps).of_returns hnext).2.2 rfl
      hstopped
  constructor
  · obtain ⟨hnone, -⟩ := hlater.ensures (fun _ => Search.Stays.step_law) hover.stays
    exact List.eq_nil_iff_forall_not_mem.2 fun s hs => (hnone s hs).2
  · intro hlawful hlast
    obtain ⟨n, hending⟩ := hlater.exists_ending (hover.exists_ending hlast)
    exact ⟨n, fun steps hsteps => next_of_ending hending hsteps⟩

end Engine

end Engines

namespace Engine

/-- Whether the engine goes on with the space, returns `count` solutions, and is over. -/
def endsAfterReset (e : Engine) (s : Space) (count : Nat) : Bool :=
  (e.reset s).check fun e₁ => (e₁.take 9 count).check fun r =>
    decide (r.1.length = count) && (r.2.2.next 9).check fun r =>
      r.1.isNone && !r.2.hasStopped && decide r.2.search.RunsLast

theorem exists_of_endsAfterReset {e : Engine} {s : Space} {count : Nat}
    (h : e.endsAfterReset s count = true) : ∃ e₁ found e₂ e₃, (e.reset s).Returns e₁ ∧
      e₁.Calls found e₂ ∧ found.length = count ∧ (e₂.next 9).Returns (none, e₃) ∧
      e₃.hasStopped = false ∧ e₃.search.RunsLast := by
  obtain ⟨e₁, hreset, htaken⟩ := Journaled.exists_of_check h
  obtain ⟨⟨found, ended, e₂⟩, htaken, hproperty⟩ := Journaled.exists_of_check htaken
  rw [Bool.and_eq_true, decide_eq_true_eq] at hproperty
  obtain ⟨hfound, hnext⟩ := hproperty
  obtain ⟨⟨r, e₃⟩, hnext, hnone⟩ := Journaled.exists_of_check hnext
  rw [Bool.and_eq_true, Bool.and_eq_true, Option.isNone_iff_eq_none, Bool.not_eq_true',
    decide_eq_true_eq] at hnone
  obtain ⟨⟨rfl, hstopped⟩, hlast⟩ := hnone
  exact ⟨e₁, found, e₂, e₃, hreset, calls_of_take htaken, hfound, hnext, hstopped, hlast⟩

/-- A restart-based search that has found a solution goes on with another space, finds its four
solutions, and is over. -/
theorem reset_exact_differing : ∃ s₀ s, ∃ e₀ : Engine, ∃ rest first e e₁ found e₂ e₃,
    Built .costOrdered saturating s₀ ∧ Built .costOrdered differing s ∧
      (start .restarts s₀ { cutoffs := .constant 9 }).run.Returns (.ok (e₀, rest)) ∧
      e₀.Calls first e ∧ first.length = 1 ∧
      (e.reset { s with objective := none }).Returns e₁ ∧ e₁.Calls found e₂ ∧ found.length = 4 ∧
      (∀ s' ∈ found, SolutionOf differing s s'.store.assignment) ∧
      (e₂.next 9).Returns (none, e₃) ∧ e₃.hasStopped = false ∧
      ∀ found' e₄, e₃.Calls found' e₄ → found' = [] ∧
        ∃ n, ∀ steps > n, Journaled.Yields True (e₄.next steps) fun r => r.1 = none := by
  have hcheck : buildsTo .costOrdered saturating (fun s₀ =>
      buildsTo .costOrdered differing (fun s => Covered differing s.store &&
        (({ s with objective := none } : Space).status.check fun r => r.1 != .failed) &&
        runsTo .restarts { cutoffs := .constant 9 } 9 1 (fun first _ e =>
          decide (first.length = 1) && e.endsAfterReset { s with objective := none } 4) s₀)) =
        true := by
    decide +kernel
  obtain ⟨s₀, hs₀, hcheck⟩ := exists_built_of_buildsTo hcheck
  obtain ⟨s, hs, hproperty⟩ := exists_built_of_buildsTo hcheck
  rw [Bool.and_eq_true, Bool.and_eq_true, decide_eq_true_eq] at hproperty
  obtain ⟨⟨hcovered, hstatus⟩, hruns⟩ := hproperty
  obtain ⟨⟨status, s'⟩, hstatus, halive⟩ := Journaled.exists_of_check hstatus
  obtain ⟨e₀, rest, first, ended₀, e, hstart, htake, hproperty⟩ := exists_of_runsTo hruns
  rw [Bool.and_eq_true, decide_eq_true_eq] at hproperty
  obtain ⟨hfirst, hends⟩ := hproperty
  have hfirsts := calls_of_take htake
  obtain ⟨e₁, found, e₂, e₃, hreset, hfounds, hfound, hnext, hstopped, hlast⟩ :=
    exists_of_endsAfterReset hends
  have hroot : Searched .costOrdered differing { s with objective := none } :=
    .built hs (by decide) hcovered fun o ho => by cases ho
  have hopen (s'' : Space) :
      ¬({ s with objective := none } : Space).status.Returns (.failed, s'') := by
    intro hfailed
    cases (Space.steady_status _).unique hstatus hfailed
    cases halive
  obtain ⟨hsolutions, hfinal⟩ := reset_exact hroot rfl hstart (hfirsts.leadsTo (.refl e₀))
    (fun _ => ⟨nofun, hopen⟩) hreset hfounds
  refine ⟨s₀, s, e₀, rest, first, e, e₁, found, e₂, e₃, hs₀, hs, hstart, hfirsts, hfirst, hreset,
    hfounds, hfound, fun s' hs' => (hsolutions s' hs').2.2, hnext, hstopped,
    fun found' e₄ hlater => ?_⟩
  obtain ⟨hnil, hanswers⟩ := hfinal 9 e₃ hnext hstopped found' e₄ hlater
  exact ⟨hnil, hanswers inferInstance hlast⟩

/-- Two variables that have the same value only. -/
def clashing : List Statement :=
  [.newInt 0 0, .newInt 0 0, .post (.notEquals (.root 0) (.root 1) 0),
    .branch (.int (.ofVariables [.root 0, .root 1] .inputOrder .min))]

/-- When the new space fails at its root, a restart-based search says that it is exhausted, and then
goes on with the old one. -/
theorem exists_stale_clashing : ∃ s₀ s, ∃ e₀ : Engine, ∃ rest first e e₁ e₂ e₃ stale,
    Built .costOrdered differing s₀ ∧ Built .costOrdered clashing s ∧ Searchable True clashing ∧
      Covered clashing s.store ∧
      (start .restarts s₀ { cutoffs := .constant 9 }).run.Returns (.ok (e₀, rest)) ∧
      e₀.Calls first e ∧ (e.reset s).Returns e₁ ∧
      (e₁.next 9).Returns (none, e₂) ∧ e₂.hasStopped = false ∧
      (e₂.next 9).Returns (some stale, e₃) ∧ ∀ a, ¬SolutionOf clashing s a := by
  have hcheck : buildsTo .costOrdered differing (fun s₀ => buildsTo .costOrdered clashing (fun s =>
      Covered clashing s.store && decide (s.store.box.ints 0 = .singleton 0) &&
        decide (s.store.box.ints 1 = .singleton 0) &&
        runsTo .restarts { cutoffs := .constant 9 } 9 1 (fun _ _ e =>
          (e.reset s).check fun e₁ => (e₁.next 9).check fun r => r.1.isNone &&
            !r.2.hasStopped && (r.2.next 9).check fun r => r.1.isSome) s₀)) = true := by
    decide +kernel
  obtain ⟨s₀, hs₀, hcheck⟩ := exists_built_of_buildsTo hcheck
  obtain ⟨s, hs, hproperty⟩ := exists_built_of_buildsTo hcheck
  rw [Bool.and_eq_true, Bool.and_eq_true, Bool.and_eq_true, decide_eq_true_eq, decide_eq_true_eq,
    decide_eq_true_eq] at hproperty
  obtain ⟨⟨⟨hcovered, hzero⟩, hone⟩, hruns⟩ := hproperty
  obtain ⟨e₀, rest, first, ended₀, e, hstart, htake, hreset⟩ := exists_of_runsTo hruns
  obtain ⟨e₁, hreset, hnext⟩ := Journaled.exists_of_check hreset
  obtain ⟨⟨r, e₂⟩, hnext, hproperty⟩ := Journaled.exists_of_check hnext
  rw [Bool.and_eq_true, Bool.and_eq_true, Option.isNone_iff_eq_none, Bool.not_eq_true'] at hproperty
  obtain ⟨⟨rfl, hstopped⟩, hagain⟩ := hproperty
  obtain ⟨⟨r', e₃⟩, hagain, hsome⟩ := Journaled.exists_of_check hagain
  obtain ⟨stale, rfl⟩ := Option.isSome_iff_exists.1 hsome
  refine ⟨s₀, s, e₀, rest, first, e, e₁, e₂, e₃, stale, hs₀, hs, by decide, hcovered, hstart,
    calls_of_take htake, hreset, hnext, hstopped, hagain, fun a ha => ?_⟩
  have hdiffers : a.ints 0 ≠ a.ints 1 + 0 :=
    (ha.2 (.notEquals (.root 0) (.root 1) 0) (List.mem_singleton.2 rfl)).1
  have hfirst := ha.1.ints 0
  have hsecond := ha.1.ints 1
  rw [hzero, IntDomain.mem_singleton] at hfirst
  rw [hone, IntDomain.mem_singleton] at hsecond
  omega

end Engine

end ConstraintSearch
