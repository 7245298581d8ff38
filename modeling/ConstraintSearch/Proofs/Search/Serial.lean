import ConstraintSearch.Proofs.Search.Progress

/-!
# Searches by one worker

What a search by one worker keeps in whatever trees it has been, and when it has nothing left to
explore: it then returns nothing until it is reset.

* `Explorer.Spent`, `CompleteSearch.Spent`, `LimitedDiscrepancy.Spent`: nothing is left to explore;
* `CompleteSearch.Serves`: what a step of the only worker does in any tree;
* `Restarts.Serial`, `Search.Serial`: what steps and resets keep;
* `Engine.ensures_next`, `Engine.Calls.ensures`: what each step ensures, the calls ensure;
* `Engine.LeadsTo`: any number of calls and resets.
-/

namespace ConstraintSearch

variable {s : Space}

/-! ### Nothing left to explore -/

namespace Explorer

variable {e : Explorer} {bound : Option Bound}

/-- Neither a node nor a path is left. -/
structure Spent (e : Explorer) : Prop where
  current : e.current = none
  path : e.path.isEmpty = true

theorem nextNode_of_spent (h : e.Spent) (bound : Option Bound) :
    e.nextNode bound = pure (none, e, bound) := by
  unfold nextNode nextNodeWithin
  rw [h.current]
  exact if_pos h.path

theorem spent_of_nextNodeWithin (steps : Nat) (e : Explorer) (bound : Option Bound) :
    (nextNodeWithin steps e bound).Ensures fun r => r.1 = none → r.2.1.Spent := by
  induction steps generalizing e bound with
  | zero => exact .throw _
  | succ steps ih =>
    unfold nextNodeWithin
    split
    · exact .pure fun hnone => by cases hnone
    rename_i hcurrent
    split
    · rename_i hpath
      exact .pure fun _ => ⟨hcurrent, hpath⟩
    refine Journaled.Ensures.trivial.bind fun r _ => ?_
    obtain ⟨node, e', bound'⟩ := r
    cases node with
    | some s => exact .pure fun hnone => by cases hnone
    | none => exact Journaled.Ensures.trivial.bind fun path _ => ih _ _

/-- A root that has failed leaves nothing to explore. -/
theorem spent_of_start (h : s.isFailed = true) : (e.start s).Ensures Spent := by
  refine (statusOf_failed (δ := True) h e.statistics).ensures.bind ?_
  rintro ⟨status, s', statistics⟩ ⟨rfl, -⟩
  exact .pure ⟨rfl, rfl⟩

end Explorer

section Complete

variable {σ : Type}

namespace CompleteSearch

variable {search search' : CompleteSearch σ} {outcome : Option Outcome}

/-- The only worker has nothing left to explore. -/
def Spent (search : CompleteSearch σ) : Prop := ∃ e ∈ search.explorer?, e.Spent

theorem Spent.withStop (h : search.Spent) (stop : σ) : (search.withStop stop).Spent := by
  cases search <;> exact h

@[simp] theorem explorer?_withStop (stop : σ) :
    (search.withStop stop).explorer? = search.explorer? := by
  cases search <;> rfl

/-- The counters of the only worker. -/
theorem exists_statistics (h : search.explorer?.isSome = true) :
    ∃ statistics, search.statistics = .ok statistics := by
  cases search with
  | depthFirst d => exact ⟨_, rfl⟩
  | branchAndBound b => exact ⟨_, rfl⟩
  | parallel p => cases h

theorem isSome_explorer_noGoods (h : search.explorer?.isSome = true) :
    search.noGoods.2.explorer?.isSome = true ∧ search.noGoods.2.stop = search.stop := by
  cases search with
  | depthFirst d => exact ⟨rfl, rfl⟩
  | branchAndBound b => exact ⟨rfl, rfl⟩
  | parallel p => cases h

/-- A search of another tree is one of the same kind, and if the root has failed, it is over. -/
theorem ensures_reset (h : search.explorer?.isSome = true) :
    (search.reset s).Ensures fun search' => search'.explorer?.isSome = true ∧
      search'.optimises = search.optimises ∧ search'.stop = search.stop ∧
      (s.isFailed = true → search'.Spent) := by
  have hstart (e : Explorer) : (e.start s).Ensures fun e' => s.isFailed = true → e'.Spent :=
    fun e' he' hfailed => Explorer.spent_of_start hfailed e' he'
  cases search with
  | depthFirst d =>
    unfold reset DepthFirst.reset
    dsimp only
    rw [bind_assoc]
    exact (hstart d.explorer).bind fun e he => .pure ⟨rfl, rfl, rfl, fun hf => ⟨e, rfl, he hf⟩⟩
  | branchAndBound b =>
    unfold reset BranchAndBound.reset
    dsimp only
    rw [bind_assoc]
    exact (hstart b.explorer).bind fun e he => .pure ⟨rfl, rfl, rfl, fun hf => ⟨e, rfl, he hf⟩⟩
  | parallel p => cases h

variable [StopCondition σ]

/-- What a step of the only worker keeps, whatever the tree is. The search is stopped if and only if
its condition holds. -/
structure Serves (search : CompleteSearch σ) (outcome : Option Outcome)
    (search' : CompleteSearch σ) : Prop where
  explorer : search'.explorer?.isSome = true
  optimises : search'.optimises = search.optimises
  poll : ∃ statistics holds, StopCondition.poll search.stop statistics = .ok (holds, search'.stop) ∧
    (outcome = some .stopped ↔ holds = true)
  spent : outcome = some .exhausted → search'.Spent

theorem ensures_step (h : search.explorer?.isSome = true) :
    search.step.Ensures fun r => search.Serves r.1 r.2 := by
  cases search with
  | depthFirst d =>
    unfold step DepthFirst.step
    dsimp only
    rw [bind_assoc]
    refine (Journaled.Ensures.lift (P := fun r =>
      StopCondition.poll d.stop d.explorer.reported = .ok r) fun _ => id).bind ?_
    rintro ⟨holds, stop⟩ hpoll
    cases holds with
    | true => exact .pure ⟨rfl, rfl, ⟨_, true, hpoll, by simp⟩, fun hnone => by cases hnone⟩
    | false =>
      dsimp only
      rw [if_neg Bool.false_ne_true, bind_assoc]
      refine (Explorer.spent_of_nextNodeWithin _ d.explorer none).bind ?_
      rintro ⟨node, e, bound⟩ hspent
      cases node with
      | none => exact .pure ⟨rfl, rfl, ⟨_, false, hpoll, by simp⟩, fun _ => ⟨e, rfl, hspent rfl⟩⟩
      | some s =>
        dsimp only
        rw [bind_assoc]
        refine Journaled.Ensures.trivial.bind ?_
        rintro ⟨explored, e'⟩ -
        cases explored <;>
          exact .pure ⟨rfl, rfl, ⟨_, false, hpoll, by simp⟩, fun hnone => by cases hnone⟩
  | branchAndBound b =>
    unfold step BranchAndBound.step
    dsimp only
    rw [bind_assoc]
    refine (Journaled.Ensures.lift (P := fun r =>
      StopCondition.poll b.stop b.explorer.reported = .ok r) fun _ => id).bind ?_
    rintro ⟨holds, stop⟩ hpoll
    cases holds with
    | true => exact .pure ⟨rfl, rfl, ⟨_, true, hpoll, by simp⟩, fun hnone => by cases hnone⟩
    | false =>
      dsimp only
      rw [if_neg Bool.false_ne_true, bind_assoc]
      refine (Explorer.spent_of_nextNodeWithin _ b.explorer _).bind ?_
      rintro ⟨node, e, bound⟩ hspent
      cases node with
      | none => exact .pure ⟨rfl, rfl, ⟨_, false, hpoll, by simp⟩, fun _ => ⟨e, rfl, hspent rfl⟩⟩
      | some s =>
        dsimp only
        rw [bind_assoc]
        refine Journaled.Ensures.trivial.bind ?_
        rintro ⟨explored, e'⟩ -
        cases explored <;>
          exact .pure ⟨rfl, rfl, ⟨_, false, hpoll, by simp⟩, fun hnone => by cases hnone⟩
  | parallel p => cases h

/-- With nothing left to explore, a step polls the stop condition only. -/
theorem step_of_spent (h : search.Spent) : ∃ statistics, search.statistics = .ok statistics ∧
    search.step = (liftM (StopCondition.poll search.stop statistics) : Journaled (Bool × σ)) >>=
      fun r => pure (some (if r.1 then .stopped else .exhausted), search.withStop r.2) := by
  obtain ⟨e, he, hspent⟩ := h
  cases search with
  | depthFirst d =>
    cases he
    refine ⟨_, rfl, ?_⟩
    unfold step DepthFirst.step
    dsimp only
    rw [bind_assoc]
    refine bind_congr ?_
    rintro ⟨holds, stop⟩
    cases holds with
    | true => rfl
    | false =>
      dsimp only
      rw [Explorer.nextNode_of_spent hspent, if_neg Bool.false_ne_true]
      rfl
  | branchAndBound b =>
    cases he
    refine ⟨_, rfl, ?_⟩
    unfold step BranchAndBound.step
    dsimp only
    rw [bind_assoc]
    refine bind_congr ?_
    rintro ⟨holds, stop⟩
    have hmark : (b.bound.map Bound.mark).getD b.mark = b.mark := by
      unfold BranchAndBound.bound
      cases b.best <;> rfl
    cases holds with
    | true => rfl
    | false =>
      dsimp only
      rw [Explorer.nextNode_of_spent hspent, if_neg Bool.false_ne_true, pure_bind]
      dsimp only
      rw [show ({ b with stop } : BranchAndBound σ).bound = b.bound from rfl, hmark]
      rfl
  | parallel p => cases he

end CompleteSearch

end Complete

namespace LimitedDiscrepancy

variable {σ : Type} {l : LimitedDiscrepancy σ}

/-- The probe is finished, and there is none to come. -/
structure Spent (l : LimitedDiscrepancy σ) : Prop where
  current : l.probe.current = none
  stack : l.probe.stack = []
  last : l.probe.exhausted = true ∨ l.limit ≤ l.discrepancy ∨ l.root = none

theorem spent_of_nextProbe (hcurrent : l.probe.current = none) (hstack : l.probe.stack = [])
    (h : l.nextProbe.1 = some .exhausted) : l.nextProbe.2.Spent := by
  unfold nextProbe at h ⊢
  by_cases hlast : l.probe.exhausted = true ∨ l.limit ≤ l.discrepancy
  · rw [if_pos hlast] at h ⊢
    exact ⟨hcurrent, hstack, hlast.imp_right .inl⟩
  · rw [if_neg hlast] at h ⊢
    cases hroot : l.root with
    | none => exact ⟨hcurrent, hstack, .inr (.inr rfl)⟩
    | some s =>
      rw [hroot] at h
      cases h

/-- A root that has failed leaves nothing to explore. -/
theorem spent_of_reset (h : s.isFailed = true) : (l.reset s).Ensures Spent := by
  refine (statusOf_failed (δ := True) h l.probe.statistics).ensures.bind ?_
  rintro ⟨status, s', statistics⟩ ⟨rfl, -⟩
  exact .pure ⟨rfl, rfl, .inl rfl⟩

variable [StopCondition σ]

theorem step_of_spent (h : l.Spent) : ∃ l', l'.Spent ∧ l.step = pure (some .exhausted, l') := by
  have hnext : l.nextProbe.1 = some .exhausted := by
    unfold nextProbe
    by_cases hlast : l.probe.exhausted = true ∨ l.limit ≤ l.discrepancy
    · rw [if_pos hlast]
    · obtain ⟨hexhausted, hlimit⟩ := not_or.1 hlast
      rw [if_neg hlast, (h.last.resolve_left hexhausted).resolve_left hlimit]
  refine ⟨l.nextProbe.2, spent_of_nextProbe h.current h.stack hnext, ?_⟩
  unfold step
  rw [h.current, h.stack, ← hnext]

theorem spent_of_step (l : LimitedDiscrepancy σ) :
    l.step.Ensures fun r => r.1 = some .exhausted → r.2.Spent := by
  have hexplore (l : LimitedDiscrepancy σ) (s : Space) (edge : EdgeInfo) (depth : Nat) :
      (l.explore s edge depth).Ensures fun r => r.1 = some .exhausted → r.2.Spent := by
    refine Journaled.Ensures.trivial.bind ?_
    rintro ⟨solution, probe⟩ -
    cases solution <;> exact .pure fun hexhausted => by cases hexhausted
  unfold step
  split
  · exact hexplore _ _ _ _
  · rename_i hcurrent hstack
    exact .pure fun hexhausted => spent_of_nextProbe hcurrent hstack hexhausted
  · refine Journaled.Ensures.trivial.bind ?_
    rintro ⟨holds, stop⟩ -
    dsimp only
    split
    · exact .pure fun hexhausted => by cases hexhausted
    · refine Journaled.Ensures.trivial.bind ?_
      rintro ⟨⟨s, edge, depth⟩, probe⟩ -
      exact hexplore _ _ _ _

end LimitedDiscrepancy

/-! ### Restarts -/

variable {σ ρ : Type} [condition : StopCondition σ] [CutoffSequence ρ]

/-- A condition that does not hold leaves the limit of failures, and was not stopped. -/
theorem Cutoff.of_poll {c c' : Cutoff (Option σ)} {statistics : Statistics} {holds : Bool}
    (hstopped : c.userStopped = false) (h : StopCondition.poll c statistics = .ok (holds, c')) :
    c'.failLimit = c.failLimit ∧ (holds = false → c'.userStopped = false) ∧
      (holds = true → c'.userStopped = false → ∃ n ∈ c.failLimit, n ≤ statistics.fails) := by
  have hanswered := condition.refines_tamed.option.cutoff c statistics _ h
  have hlawful := condition.lawful_tamed
  let tamed := condition.tamed
  have hpolled := (polls_cutoff polls_any c.failLimit c
    ⟨trivial, rfl, hstopped⟩ statistics).of_ok hanswered
  cases holds with
  | false => exact ⟨hpolled.2.1, fun _ => hpolled.2.2, fun htrue => by cases htrue⟩
  | true =>
    refine ⟨hpolled.1, (fun hfalse => by cases hfalse), fun _ hnot => ?_⟩
    have hlimit := hpolled.2
    rw [if_neg (by rw [hnot]; decide)] at hlimit
    exact hlimit.2

namespace Restarts

variable {r : Restarts (Option σ) ρ} {optimises : Bool}

/-- What a restart-based search by one worker keeps, in whatever trees it has been. -/
structure Serial (optimises : Bool) (r : Restarts (Option σ) ρ) : Prop where
  explorer : r.inner.explorer?.isSome = true
  optimises : r.inner.optimises = optimises
  userStopped : r.inner.stop.userStopped = false

omit [StopCondition σ] [CutoffSequence ρ] in
theorem Serial.setLimit (h : r.Serial optimises) (limit : Option Nat) :
    (r.setLimit limit).Serial optimises := by
  unfold Restarts.setLimit
  refine ⟨?_, ?_, ?_⟩
  · rw [CompleteSearch.explorer?_withStop]
    exact h.explorer
  · rw [CompleteSearch.optimises_withStop]
    exact h.optimises
  · rw [CompleteSearch.stop_withStop]
    exact h.userStopped

omit [StopCondition σ] [CutoffSequence ρ] in
theorem Serial.learn (h : r.Serial optimises) : r.learn.Ensures fun p => p.2.Serial optimises := by
  obtain ⟨hexplorer, hstop⟩ := CompleteSearch.isSome_explorer_noGoods h.explorer
  have hinner : { r with inner := r.inner.noGoods.2 }.Serial optimises :=
    ⟨hexplorer, CompleteSearch.optimises_noGoods.trans h.optimises, hstop ▸ h.userStopped⟩
  unfold Restarts.learn
  split
  · exact .pure h
  · refine Journaled.Ensures.trivial.bind ?_
    rintro (error | master) -
    · exact .pure hinner
    · exact .pure ⟨hinner.explorer, hinner.optimises, hinner.userStopped⟩

omit [StopCondition σ] in
theorem Serial.begin (h : r.Serial optimises) : r.begin.Ensures fun p => p.2.Serial optimises := by
  rw [begin_eq]
  refine Journaled.Ensures.trivial.bind fun before _ => ?_
  have hlimited : (r.limited before.fails).Serial optimises :=
    Serial.setLimit (r := { r with
      restart := false
      statistics := { r.statistics with restarts := r.statistics.restarts + 1 }
      cutoffs := (nextLimit r.cutoffs).2 }) ⟨h.explorer, h.optimises, h.userStopped⟩ _
  refine hlimited.learn.bind ?_
  rintro ⟨learnt, r₁⟩ h₁
  dsimp only at h₁ ⊢
  split
  · exact .pure h₁
  · refine Journaled.Ensures.trivial.bind ?_
    rintro ⟨status, master, statistics⟩ -
    dsimp only
    split
    · exact .pure ⟨h₁.explorer, h₁.optimises, h₁.userStopped⟩
    · refine Journaled.Ensures.trivial.bind fun _ _ => ?_
      refine (CompleteSearch.ensures_reset h₁.explorer).bind ?_
      rintro inner ⟨hexplorer, hoptimises, hstop, -⟩
      exact .pure ⟨hexplorer, hoptimises.trans h₁.optimises, hstop ▸ h₁.userStopped⟩

omit [StopCondition σ] [CutoffSequence ρ] in
theorem serial_endRun (hexplorer : r.inner.explorer?.isSome = true)
    (hoptimises : r.inner.optimises = optimises) (limited : Bool) :
    (r.endRun limited).2.Serial optimises := by
  unfold endRun
  dsimp only
  split
  · refine ⟨?_, ?_, ?_⟩
    · rw [CompleteSearch.explorer?_withStop]
      exact hexplorer
    · rw [CompleteSearch.optimises_withStop]
      exact hoptimises
    · rw [CompleteSearch.stop_withStop]
  · rename_i hstopped
    have hstopped : r.inner.stop.userStopped = false := by simpa using hstopped
    split <;> exact ⟨hexplorer, hoptimises, hstopped⟩

theorem Serial.step (h : r.Serial optimises) : r.step.Ensures fun p => p.2.Serial optimises := by
  cases hrestart : r.restart with
  | true =>
    rw [show r.step = r.begin from if_pos hrestart]
    exact h.begin
  | false =>
    unfold Restarts.step
    rw [if_neg (by rw [hrestart]; decide)]
    refine (CompleteSearch.ensures_step h.explorer).bind ?_
    rintro ⟨outcome, inner⟩ hserves
    obtain ⟨statistics, holds, hpoll, hholds⟩ := hserves.poll
    have hexplorer := hserves.explorer
    have hoptimises := hserves.optimises.trans h.optimises
    have hserial (houtcome : outcome ≠ some .stopped) : { r with inner }.Serial optimises :=
      ⟨hexplorer, hoptimises, (Cutoff.of_poll h.userStopped hpoll).2.1
        (by simpa using mt hholds.2 houtcome)⟩
    rcases outcome with _ | s | _ | _
    · exact .pure (hserial nofun)
    · have hs := hserial nofun
      dsimp only
      split
      · exact Journaled.Ensures.trivial.bind fun master _ =>
          .pure ⟨hs.explorer, hs.optimises, hs.userStopped⟩
      · exact .pure (hs.setLimit none)
    · exact .pure (serial_endRun (r := { r with inner }) hexplorer hoptimises false)
    · exact .pure (serial_endRun (r := { r with inner }) hexplorer hoptimises true)

/-- A step of a run leaves the master, unless a solution is found. When the tree is exhausted,
nothing is left to explore. -/
theorem ensures_step_of_running (hrestart : r.restart = false)
    (hexplorer : r.inner.explorer?.isSome = true) :
    r.step.Ensures fun p => (∀ s, p.1 ≠ some (.solution s)) → p.2.master = r.master ∧
      (p.1 = some .exhausted → p.2.restart = false ∧ p.2.inner.Spent) := by
  unfold Restarts.step
  rw [if_neg (by rw [hrestart]; decide)]
  refine (CompleteSearch.ensures_step hexplorer).bind ?_
  rintro ⟨outcome, inner⟩ hserves
  have hend (limited : Bool) (h : outcome = some .exhausted ∨ limited = true) :
      (endRun { r with inner } limited).2.master = r.master ∧
        ((endRun { r with inner } limited).1 = some .exhausted →
          (endRun { r with inner } limited).2.restart = false ∧
            (endRun { r with inner } limited).2.inner.Spent) := by
    unfold endRun
    dsimp only
    by_cases hstopped : inner.stop.userStopped = true
    · rw [if_pos hstopped]
      exact ⟨rfl, fun hexhausted => by cases hexhausted⟩
    · rw [if_neg hstopped]
      cases limited with
      | true => exact ⟨rfl, fun hexhausted => by cases hexhausted⟩
      | false => exact ⟨rfl, fun _ => ⟨hrestart, hserves.spent (h.resolve_right (by decide))⟩⟩
  rcases outcome with _ | s | _ | _
  · exact .pure fun _ => ⟨rfl, fun hexhausted => by cases hexhausted⟩
  · intro p hp hnot
    dsimp only at hp
    split at hp
    · obtain ⟨master, -, hp⟩ := Journaled.exists_of_returns_bind hp
      cases Journaled.of_returns_pure hp
      exact absurd rfl (hnot s)
    · cases Journaled.of_returns_pure hp
      exact absurd rfl (hnot s)
  · exact .pure fun _ => hend false (.inl rfl)
  · exact .pure fun _ => hend true (.inr rfl)

end Restarts

/-! ### Engines by one worker -/

namespace Search

variable {search : Search σ ρ} {kind : EngineKind} {optimises : Bool}

/-- The search is one of its kind by one worker; one that restarts has an inner search that
optimises or not. -/
def Serial (kind : EngineKind) (optimises : Bool) : Search σ ρ → Prop
  | complete search => search.explorer?.isSome = true ∧
      (kind = .depthFirst ∧ search.optimises = false ∨
        kind = .branchAndBound ∧ search.optimises = true)
  | limitedDiscrepancy _ => kind = .limitedDiscrepancy
  | restarts r => kind = .restarts ∧ r.Serial optimises

theorem Serial.step (h : search.Serial kind optimises) :
    search.step.Ensures fun r => r.2.Serial kind optimises := by
  cases search with
  | complete search =>
    refine (CompleteSearch.ensures_step h.1).bind ?_
    rintro ⟨outcome, search'⟩ hserves
    exact .pure ⟨hserves.explorer, hserves.optimises.symm ▸ h.2⟩
  | limitedDiscrepancy l => exact Journaled.Ensures.trivial.bind fun _ _ => .pure h
  | restarts r => exact h.2.step.bind fun _ hr => .pure ⟨h.1, hr⟩

omit [StopCondition σ] [CutoffSequence ρ] in
theorem Serial.reset (h : search.Serial kind optimises) (s : Space) :
    (search.reset s).Ensures (Serial kind optimises) := by
  cases search with
  | complete search =>
    refine (CompleteSearch.ensures_reset h.1).bind ?_
    rintro search' ⟨hexplorer, hoptimises, -, -⟩
    exact .pure ⟨hexplorer, hoptimises.symm ▸ h.2⟩
  | limitedDiscrepancy l => exact Journaled.Ensures.trivial.bind fun _ _ => .pure h
  | restarts r => exact .pure ⟨h.1, h.2.explorer, h.2.optimises, h.2.userStopped⟩

omit [StopCondition σ] in
theorem serial_of_start {options : SearchOptions σ ρ} (hthreads : options.threads = 1) :
    (start kind s options).Ensures (Serial kind s.objective.isSome) := by
  have hcomplete {σ : Type} (optimising recorded : Bool) (exploration : Exploration) (stop : σ) :
      (CompleteSearch.start s options.threads optimising exploration recorded stop).Ensures
        fun search => search.explorer?.isSome = true ∧ search.optimises = optimising ∧
          search.stop = stop := by
    unfold CompleteSearch.start
    rw [if_neg (by omega)]
    cases optimising
    all_goals
      refine Journaled.Ensures.bind (P := fun d => d.stop = stop) ?_ fun d hd =>
        .pure ⟨rfl, rfl, hd⟩
      exact Journaled.Ensures.trivial.bind fun e _ => .pure rfl
  unfold start
  cases kind with
  | depthFirst =>
    exact (hcomplete _ _ _ _).bind fun search hsearch =>
      .pure ⟨hsearch.1, .inl ⟨rfl, hsearch.2.1⟩⟩
  | branchAndBound =>
    exact (hcomplete _ _ _ _).bind fun search hsearch =>
      .pure ⟨hsearch.1, .inr ⟨rfl, hsearch.2.1⟩⟩
  | limitedDiscrepancy => exact Journaled.Ensures.trivial.bind fun _ _ => .pure rfl
  | restarts =>
    refine Journaled.Ensures.bind (P := Restarts.Serial s.objective.isSome) ?_ fun r hr =>
      .pure ⟨rfl, hr⟩
    refine (hcomplete _ _ _ _).bind fun inner hinner => .pure ⟨hinner.1, hinner.2.1, ?_⟩
    dsimp only
    rw [hinner.2.2]

end Search

namespace Engine

variable {e e' : Engine σ ρ} {found : List Space}

/-- The second engine is what has become of the first one, after any number of calls and resets. -/
inductive LeadsTo : Engine σ ρ → Engine σ ρ → Prop
  | refl (e : Engine σ ρ) : LeadsTo e e
  | next {e e' e'' : Engine σ ρ} {steps : Nat} {r : Option Space} (h : LeadsTo e e')
      (hnext : (e'.next steps).Returns (r, e'')) : LeadsTo e e''
  | reset {e e' e'' : Engine σ ρ} {s : Space} (h : LeadsTo e e')
    (hreset : (e'.reset s).Returns e'') :
      LeadsTo e e''

/-- What each step ensures, a call ensures: `P` of the solutions, `I` after each call, and `K`
after a call that returns nothing without being stopped. -/
theorem ensures_next {I K : Search σ ρ → Prop} {P : Space → Prop}
    (hstep : ∀ search, I search → search.step.Ensures fun r =>
      (∀ s, r.1 = some (.solution s) → P s) ∧ I r.2 ∧ (r.1 = some .exhausted → K r.2))
    (h : I e.search) (steps : Nat) : (e.next steps).Ensures fun r =>
      (∀ s ∈ r.1, P s) ∧ I r.2.search ∧
        (r.1 = none → r.2.hasStopped = false → K r.2.search) := by
  have hsearch : (searchWithin Search.step steps e.search).Ensures fun r =>
      (∀ s, r.1 = .solution s → P s) ∧ I r.2 ∧ (r.1 = .exhausted → K r.2) := by
    refine ensures_searchWithin (I := I) (fun search hsearch => (hstep search hsearch).mono ?_) h
    rintro ⟨outcome, search'⟩ ⟨hpost, hI, hK⟩
    cases outcome with
    | none => exact hI
    | some outcome =>
      exact ⟨fun s hs => hpost s (congrArg some hs), hI, fun hx => hK (congrArg some hx)⟩
  unfold next
  refine hsearch.bind ?_
  rintro ⟨outcome, search⟩ ⟨hpost, hI, hK⟩
  cases outcome with
  | solution s =>
    refine .pure ⟨fun s' hs' => ?_, hI, fun hnone => by cases hnone⟩
    cases hs'
    exact hpost s rfl
  | exhausted => exact .pure ⟨(fun s hs => by cases hs), hI, fun _ _ => hK rfl⟩
  | stopped => exact .pure ⟨(fun s hs => by cases hs), hI, fun _ hstopped => by cases hstopped⟩

/-- What each step ensures, the calls ensure. -/
theorem Calls.ensures {I K : Search σ ρ → Prop} {P : Space → Prop}
    (hstep : ∀ search, I search → search.step.Ensures fun r =>
      (∀ s, r.1 = some (.solution s) → P s) ∧ I r.2 ∧ (r.1 = some .exhausted → K r.2))
    (hcalls : Calls e found e') (h : I e.search) : (∀ s ∈ found, P s) ∧ I e'.search := by
  induction hcalls with
  | refl e => exact ⟨(fun s hs => by cases hs), h⟩
  | found hnext _ ih =>
    obtain ⟨hpost, hI, -⟩ := (ensures_next hstep h _).of_returns hnext
    obtain ⟨hrest, hI⟩ := ih hI
    exact ⟨List.forall_mem_cons.2 ⟨hpost _ rfl, hrest⟩, hI⟩
  | missed hnext _ ih => exact ih ((ensures_next hstep h _).of_returns hnext).2.1

theorem Calls.leadsTo {e₀ : Engine σ ρ} (hcalls : Calls e found e') (h : LeadsTo e₀ e) :
    LeadsTo e₀ e' := by
  induction hcalls with
  | refl => exact h
  | found hnext _ ih => exact ih (h.next hnext)
  | missed hnext _ ih => exact ih (h.next hnext)

theorem LeadsTo.serial {kind : EngineKind} {optimises : Bool} (h : LeadsTo e e')
    (hserial : e.search.Serial kind optimises) : e'.search.Serial kind optimises := by
  induction h with
  | refl => exact hserial
  | next _ hnext ih =>
    exact ((ensures_next (I := Search.Serial kind optimises) (K := fun _ => True)
      (P := fun _ => True) (fun search hsearch => hsearch.step.mono fun r hr =>
        ⟨fun _ _ => trivial, hr, fun _ => trivial⟩) ih _).of_returns hnext).2.1
  | reset _ hreset ih =>
    obtain ⟨search, hsearch, hreset⟩ := Journaled.exists_of_returns_bind hreset
    cases Journaled.of_returns_pure hreset
    exact (ih.reset _).of_returns hsearch

end Engine

end ConstraintSearch
