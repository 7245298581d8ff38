import ConstraintSearch.Proofs.Search.Ending
import ConstraintSearch.Proofs.Search.Engine

/-!
# Stopping and resuming

An engine that is asked again after each stop returns what it returns without its stop condition. A
stop can fall before any node; it changes nothing but the condition. In a finite tree both come to
the end, if nothing faults.

* `Relents`, `Polled`, `Bears`: conditions that do not hold forever;
* `Interrupts`: what a search does under a condition, one step at a time, and
  `Interrupts.concludes` for all of it;
* `SequentialSearch`: the searches by one worker, with conditions of any type;
* `Engine.resume`: repeated calls, which go on after each stop; `Engine.resume_of_concludes`;
* `Engine.exhausts_of_stopped`: the solutions with and without a stop condition.
-/

namespace ConstraintSearch

namespace Journaled

variable {α β : Type}

theorem lift_bind {r : Except Fault α} {g : α → Except Fault β} :
    (liftM (r >>= g) : Journaled β) = liftM r >>= fun a => liftM (g a) := by
  cases r <;> rfl

theorem lift_pure {a : α} : (liftM (pure a : Except Fault α) : Journaled α) = pure a := rfl

end Journaled

variable {σ : Type} [StopCondition σ]

/-! ### Conditions -/

/-- A condition that is polled with the same statistics again and again does not hold at last. -/
inductive Relents (statistics : Statistics) : σ → Prop
  | now {stop stop' : σ} (h : StopCondition.poll stop statistics = .ok (false, stop')) :
      Relents statistics stop
  | later {stop stop' : σ} (h : StopCondition.poll stop statistics = .ok (true, stop'))
      (hrest : Relents statistics stop') : Relents statistics stop

/-- What a condition is after any number of polls. -/
inductive Polled : σ → σ → Prop
  | refl (stop : σ) : Polled stop stop
  | poll {stop stop' stop'' : σ} {statistics : Statistics} {holds : Bool}
      (h : StopCondition.poll stop statistics = .ok (holds, stop')) (hrest : Polled stop' stop'') :
      Polled stop stop''

/-! ### Searches under a condition -/

section Conditions

variable {ε : Type}

/-- What a search is after any number of steps. -/
inductive Reaches (step : ε → Journaled (Option Outcome × ε)) : ε → ε → Prop
  | refl (e : ε) : Reaches step e e
  | step {e e' e'' : ε} {outcome : Option Outcome} (h : (step e).Returns (outcome, e'))
      (hrest : Reaches step e' e'') : Reaches step e e''

/-- A step of the search `e` under a condition that does not matter. -/
def carried (step : ε → Journaled (Option Outcome × ε)) (attach : σ → ε → ε) (stop : σ) (e : ε) :
    Journaled (Option Outcome × ε) := do
  let (outcome, e) ← step e
  return (outcome, attach stop e)

/-- A step of the search `e` under a condition that is polled first. -/
def guarded (step : ε → Journaled (Option Outcome × ε)) (attach : σ → ε → ε)
    (statistics : ε → Statistics) (stop : σ) (e : ε) : Journaled (Option Outcome × ε) := do
  let (holds, stop) ← StopCondition.poll stop (statistics e)
  if holds then return (some .stopped, attach stop e) else carried step attach stop e

/-- The search `attach stop e` is the search `e` under the condition `stop`. Searches without a
condition are `Free`; their steps are the same under a condition, but for those before which it is
polled and holds. -/
structure Interrupts (step : ε → Journaled (Option Outcome × ε)) (attach : σ → ε → ε)
    (statistics : ε → Statistics) (Free : ε → Prop) : Prop where
  free : ∀ e, Free e → ∀ r, (step e).Returns r → Free r.2 ∧ r.1 ≠ some .stopped
  attach : ∀ e, Free e → (∀ stop, step (attach stop e) = carried step attach stop e) ∨
    ∀ stop, step (attach stop e) = guarded step attach statistics stop e

/-- Whatever the search and the condition come to, the condition does not hold forever. -/
def Bears (step : ε → Journaled (Option Outcome × ε)) (statistics : ε → Statistics) (e : ε)
    (stop : σ) : Prop :=
  ∀ e', Reaches step e e' → ∀ stop', Polled stop stop' → Relents (statistics e') stop'

variable {step : ε → Journaled (Option Outcome × ε)} {attach : σ → ε → ε}
  {statistics : ε → Statistics} {Free : ε → Prop} {stop stop' : σ} {e e' : ε}
  {outcome : Option Outcome} {journal journal' : Journal} {r : Except Fault (List Space × ε)}

theorem Bears.of_step (h : Bears step statistics e stop)
    (hstep : step e journal = (.ok (outcome, e'), journal')) : Bears step statistics e' stop :=
  fun e'' he'' => h e'' (.step ⟨journal, congrArg Prod.fst hstep⟩ he'')

theorem Bears.of_poll {holds : Bool} {counters : Statistics} (h : Bears step statistics e stop)
    (hpoll : StopCondition.poll stop counters = .ok (holds, stop')) :
    Bears step statistics e stop' :=
  fun e' he' stop'' hstop'' => h e' he' stop'' (.poll hpoll hstop'')

omit [StopCondition σ] in
theorem carried_of_run (h : step e journal = (.ok (outcome, e'), journal')) :
    carried step attach stop e journal = (.ok (outcome, attach stop e'), journal') := by
  rw [carried, Journaled.bind_of_run h]
  rfl

omit [StopCondition σ] in
theorem carried_of_fault {fault : Fault} (h : step e journal = (.error fault, journal')) :
    carried step attach stop e journal = (.error fault, journal') :=
  Journaled.bind_of_fault h

theorem guarded_of_not_holds (hpoll : StopCondition.poll stop (statistics e) = .ok (false, stop')) :
    guarded step attach statistics stop e journal = carried step attach stop' e journal := by
  rw [guarded, Journaled.bind_of_run (Journaled.lift_of_eq hpoll)]
  rfl

theorem guarded_of_holds (hpoll : StopCondition.poll stop (statistics e) = .ok (true, stop')) :
    guarded step attach statistics stop e journal =
      (.ok (some .stopped, attach stop' e), journal) := by
  rw [guarded, Journaled.bind_of_run (Journaled.lift_of_eq hpoll)]
  rfl

/-- A solution is listed whatever becomes of the search. -/
theorem map_solution {ε' : Type} (s : Space) (f : ε → ε') (r : Except Fault (List Space × ε)) :
    (r.map (Prod.map id f)).map (Prod.map (s :: ·) id) =
      (r.map (Prod.map (s :: ·) id)).map (Prod.map id f) := by
  cases r <;> rfl

namespace Interrupts

/-- A search under a condition is stopped a number of times, and then it makes its step. -/
theorem exists_concludes (h : Interrupts step attach statistics Free) (hfree : Free e)
    (hbears : Bears step statistics e stop)
    (hcarried : ∀ stop₁ stop₂, Bears step statistics e stop₂ →
      step (attach stop₁ e) journal = carried step attach stop₂ e journal →
        ∃ stop', Concludes step (attach stop₁ e) journal (r.map (Prod.map id (attach stop')))
          journal') :
    ∃ stop', Concludes step (attach stop e) journal (r.map (Prod.map id (attach stop')))
      journal' := by
  rcases h.attach e hfree with hattach | hattach
  · exact hcarried stop stop hbears (by rw [hattach])
  · induction hbears e (.refl e) stop (.refl stop) with
    | @now stop stop' hpoll =>
      exact hcarried stop stop' (hbears.of_poll hpoll) (by rw [hattach, guarded_of_not_holds hpoll])
    | @later stop stop' hpoll _ ih =>
      obtain ⟨stop'', hrest⟩ := ih (hbears.of_poll hpoll)
      exact ⟨stop'', .stopped (by rw [hattach, guarded_of_holds hpoll]) hrest⟩

/-- A search comes to the same under a condition that does not hold forever. -/
theorem concludes (h : Interrupts step attach statistics Free) (hfree : Free e)
    (hbears : Bears step statistics e stop) (hr : Concludes step e journal r journal') :
    ∃ stop', Concludes step (attach stop e) journal (r.map (Prod.map id (attach stop')))
      journal' := by
  induction hr generalizing stop with
  | fault hstep =>
    refine h.exists_concludes hfree hbears fun stop₁ stop₂ _ hcarried => ?_
    rw [carried_of_fault hstep] at hcarried
    exact ⟨stop₂, .fault hcarried⟩
  | exhausted hstep =>
    refine h.exists_concludes hfree hbears fun stop₁ stop₂ _ hcarried => ?_
    rw [carried_of_run hstep] at hcarried
    exact ⟨stop₂, .exhausted hcarried⟩
  | @next e e' journal between _ _ hstep _ ih =>
    have hfree' := (h.free e hfree _ ⟨journal, congrArg Prod.fst hstep⟩).1
    refine h.exists_concludes hfree hbears fun stop₁ stop₂ hbears₂ hcarried => ?_
    rw [carried_of_run hstep] at hcarried
    obtain ⟨stop', hrest⟩ := ih hfree' (hbears₂.of_step hstep)
    exact ⟨stop', .next hcarried hrest⟩
  | @stopped e e' journal _ _ _ hstep _ _ =>
    exact absurd rfl (h.free e hfree _ ⟨journal, congrArg Prod.fst hstep⟩).2
  | @solution e e' s journal _ _ r hstep _ ih =>
    have hfree' := (h.free e hfree _ ⟨journal, congrArg Prod.fst hstep⟩).1
    refine h.exists_concludes hfree hbears fun stop₁ stop₂ hbears₂ hcarried => ?_
    rw [carried_of_run hstep] at hcarried
    obtain ⟨stop', hrest⟩ := ih hfree' (hbears₂.of_step hstep)
    exact ⟨stop', map_solution s (attach stop') r ▸ .solution hcarried hrest⟩

end Interrupts

/-! Steps of a search that is a part of another one. -/

section Parts

variable {ε' : Type} {step' : ε' → Journaled (Option Outcome × ε')} {attach' : σ → ε' → ε'}
  {statistics' : ε' → Statistics} (whole : ε → ε')
  (hstep : ∀ e, step' (whole e) = do let (outcome, e) ← step e; return (outcome, whole e))

include hstep

omit [StopCondition σ] in
theorem carried_part (hattach : ∀ stop e, attach' stop (whole e) = whole (attach stop e))
    (h : step (attach stop e) = carried step attach stop e) :
    step' (attach' stop (whole e)) = carried step' attach' stop (whole e) := by
  rw [hattach, hstep, h]
  simp only [carried, hstep, bind_assoc, pure_bind, hattach]

theorem guarded_part (hattach : ∀ stop e, attach' stop (whole e) = whole (attach stop e))
    (hstatistics : ∀ e, statistics' (whole e) = statistics e)
    (h : step (attach stop e) = guarded step attach statistics stop e) :
    step' (attach' stop (whole e)) = guarded step' attach' statistics' stop (whole e) := by
  rw [hattach, hstep, h]
  simp only [guarded, hstatistics, bind_assoc]
  congr 1
  funext ⟨holds, stop'⟩
  cases holds with
  | true => simp only [if_true, pure_bind, hattach]
  | false =>
    simp only [Bool.false_eq_true, if_false, carried, hstep, bind_assoc, pure_bind, hattach]

/-- What comes of a search that is a part of another one. -/
theorem Concludes.part (h : Concludes step e journal r journal') :
    Concludes step' (whole e) journal (r.map (Prod.map id whole)) journal' := by
  induction h with
  | fault h => exact .fault (by rw [hstep, Journaled.bind_of_fault h])
  | exhausted h => exact .exhausted (by rw [hstep, Journaled.bind_of_run h]; rfl)
  | next h _ ih => exact .next (by rw [hstep, Journaled.bind_of_run h]; rfl) ih
  | stopped h _ ih => exact .stopped (by rw [hstep, Journaled.bind_of_run h]; rfl) ih
  | @solution e e' s _ _ _ r h _ ih =>
    exact map_solution s whole r ▸ .solution (by rw [hstep, Journaled.bind_of_run h]; rfl) ih

theorem Terminates.part {P : Fault → Prop} (h : Terminates P step e) :
    Terminates P step' (whole e) := by
  intro journal
  obtain ⟨r, journal', hr, hfault⟩ := h journal
  refine ⟨_, journal', hr.part whole hstep, ?_⟩
  cases r with
  | error fault => exact hfault
  | ok found => exact trivial

theorem Reaches.part (h : Reaches step e e') : Reaches step' (whole e) (whole e') := by
  induction h with
  | refl e => exact .refl _
  | @step e e' _ outcome h _ ih =>
    obtain ⟨journal, h⟩ := h
    rcases hr : step e journal with ⟨r, between⟩
    rw [hr] at h
    cases h
    have hreturns : (step' (whole e)).Returns (outcome, whole e') := by
      refine ⟨journal, ?_⟩
      rw [hstep, Journaled.bind_of_run hr]
      rfl
    exact .step hreturns ih

end Parts

end Conditions

/-! ### One step -/

theorem poll_some (stop : σ) (statistics : Statistics) :
    StopCondition.poll (some stop) statistics =
      (do let (holds, stop) ← StopCondition.poll stop statistics; return (holds, some stop)) := rfl

theorem poll_none (statistics : Statistics) :
    StopCondition.poll (none : Option σ) statistics = pure (false, none) := rfl

namespace DepthFirst

variable {d : DepthFirst (Option σ)}

theorem step_attach (hd : d.stop = none) (stop : σ) : step { d with stop := some stop } =
    guarded step (fun stop d => { d with stop := some stop }) (·.explorer.reported) stop d := by
  obtain ⟨explorer, _⟩ := d
  cases hd
  simp only [guarded, carried, step, poll_some, poll_none, Journaled.lift_bind,
    Journaled.lift_pure, bind_assoc, pure_bind]
  congr 1
  funext ⟨holds, stop⟩
  cases holds with
  | true => rfl
  | false =>
    simp only [Bool.false_eq_true, if_false, bind_assoc]
    congr 1
    funext ⟨node, explorer', bound⟩
    cases node with
    | none => rfl
    | some s =>
      simp only [bind_assoc]
      congr 1
      funext ⟨explored, e⟩
      cases explored <;> rfl

theorem free_of_step (hd : d.stop = none) {r : Option Outcome × DepthFirst (Option σ)}
    (h : d.step.Returns r) : r.2.stop = none ∧ r.1 ≠ some .stopped := by
  obtain ⟨explorer, _⟩ := d
  cases hd
  unfold step at h
  obtain ⟨_, hpoll, h⟩ := Journaled.exists_of_returns_bind h
  cases Journaled.of_returns_lift hpoll
  obtain ⟨⟨node, explorer', bound⟩, -, h⟩ := Journaled.exists_of_returns_bind h
  cases node with
  | none =>
    cases Journaled.of_returns_pure h
    exact ⟨rfl, nofun⟩
  | some s =>
    obtain ⟨⟨explored, e⟩, -, h⟩ := Journaled.exists_of_returns_bind h
    cases explored <;> cases Journaled.of_returns_pure h <;> exact ⟨rfl, nofun⟩

end DepthFirst

namespace BranchAndBound

variable {b : BranchAndBound (Option σ)}

theorem step_attach (hb : b.stop = none) (stop : σ) : step { b with stop := some stop } =
    guarded step (fun stop b => { b with stop := some stop }) (·.explorer.reported) stop b := by
  obtain ⟨explorer, best, mark, _⟩ := b
  cases hb
  simp only [guarded, carried, step, poll_some, poll_none, Journaled.lift_bind,
    Journaled.lift_pure, bind_assoc, pure_bind]
  congr 1
  funext ⟨holds, stop⟩
  cases holds with
  | true => rfl
  | false =>
    simp only [Bool.false_eq_true, if_false, bind_assoc]
    congr 1
    funext ⟨node, explorer', bound⟩
    cases node with
    | none => rfl
    | some s =>
      simp only [bind_assoc]
      congr 1
      funext ⟨explored, e⟩
      cases explored <;> rfl

theorem free_of_step (hb : b.stop = none) {r : Option Outcome × BranchAndBound (Option σ)}
    (h : b.step.Returns r) : r.2.stop = none ∧ r.1 ≠ some .stopped := by
  obtain ⟨explorer, best, mark, _⟩ := b
  cases hb
  unfold step at h
  obtain ⟨_, hpoll, h⟩ := Journaled.exists_of_returns_bind h
  cases Journaled.of_returns_lift hpoll
  obtain ⟨⟨node, explorer', bound⟩, -, h⟩ := Journaled.exists_of_returns_bind h
  cases node with
  | none =>
    cases Journaled.of_returns_pure h
    exact ⟨rfl, nofun⟩
  | some s =>
    obtain ⟨⟨explored, e⟩, -, h⟩ := Journaled.exists_of_returns_bind h
    cases explored <;> cases Journaled.of_returns_pure h <;> exact ⟨rfl, nofun⟩

end BranchAndBound

namespace LimitedDiscrepancy

variable {l : LimitedDiscrepancy (Option σ)} {s : Space} {edge : EdgeInfo} {depth : Nat}

omit [StopCondition σ] in
theorem explore_attach (stop : Option σ) : explore { l with stop } s edge depth =
    (do let (outcome, l) ← l.explore s edge depth; return (outcome, { l with stop })) := by
  simp only [explore, bind_assoc]
  congr 1
  funext ⟨solution, probe⟩
  cases solution <;> rfl

omit [StopCondition σ] in
theorem nextProbe_attach (stop : Option σ) :
    nextProbe { l with stop } = ((nextProbe l).1, { (nextProbe l).2 with stop }) := by
  unfold nextProbe
  split
  · rfl
  · dsimp only
    split <;> rfl

/-- The condition is polled only when the search returns to a node. -/
theorem step_attach (hl : l.stop = none) :
    (∀ stop, step { l with stop := some stop } =
      carried step (fun stop l => { l with stop := some stop }) stop l) ∨
    ∀ stop, step { l with stop := some stop } =
      guarded step (fun stop l => { l with stop := some stop }) (·.probe.statistics) stop l := by
  obtain ⟨⟨stack, current, remaining, exhausted, statistics, tracing⟩, root, discrepancy, limit, _⟩
    := l
  cases hl
  cases current with
  | some node =>
    obtain ⟨s, edge, depth⟩ := node
    exact .inl fun stop => explore_attach (some stop)
  | none =>
    cases stack with
    | nil => exact .inl fun stop => congrArg pure (nextProbe_attach (some stop))
    | cons top rest =>
      refine .inr fun stop => ?_
      simp only [guarded, carried, step, poll_some, poll_none, Journaled.lift_bind,
        Journaled.lift_pure, bind_assoc, pure_bind]
      congr 1
      funext ⟨holds, stop⟩
      cases holds with
      | true => rfl
      | false =>
        simp only [Bool.false_eq_true, if_false, bind_assoc]
        congr 1
        funext ⟨⟨s, edge, depth⟩, probe⟩
        exact explore_attach (l := ⟨probe, root, discrepancy, limit, none⟩) (some stop)

omit [StopCondition σ] in
theorem stop_of_explore {r : Option Outcome × LimitedDiscrepancy (Option σ)}
    (h : (l.explore s edge depth).Returns r) : r.2.stop = l.stop ∧ r.1 ≠ some .stopped := by
  unfold explore at h
  obtain ⟨⟨solution, probe⟩, -, h⟩ := Journaled.exists_of_returns_bind h
  cases solution <;> cases Journaled.of_returns_pure h <;> exact ⟨rfl, nofun⟩

omit [StopCondition σ] in
theorem stop_nextProbe : (nextProbe l).2.stop = l.stop ∧ (nextProbe l).1 ≠ some .stopped := by
  unfold nextProbe
  split
  · exact ⟨rfl, nofun⟩
  · dsimp only
    split <;> exact ⟨rfl, nofun⟩

theorem free_of_step (hl : l.stop = none) {r : Option Outcome × LimitedDiscrepancy (Option σ)}
    (h : l.step.Returns r) : r.2.stop = none ∧ r.1 ≠ some .stopped := by
  rw [← hl]
  unfold step at h
  split at h
  · exact stop_of_explore h
  · cases Journaled.of_returns_pure h
    exact stop_nextProbe
  · rw [hl] at h ⊢
    obtain ⟨_, hpoll, h⟩ := Journaled.exists_of_returns_bind h
    cases Journaled.of_returns_lift hpoll
    obtain ⟨⟨⟨s, edge, depth⟩, probe⟩, -, h⟩ := Journaled.exists_of_returns_bind h
    exact stop_of_explore h

end LimitedDiscrepancy

/-! ### Searches by one worker -/

/-- The engines whose searches have one worker and one run. -/
inductive SequentialKind
  | depthFirst
  | branchAndBound
  | limitedDiscrepancy

/-- Whether spaces are asked to lead to something better than a solution. -/
def SequentialKind.Improves (kind : SequentialKind) : Prop := kind = .branchAndBound

def SequentialKind.engine : SequentialKind → EngineKind
  | depthFirst => .depthFirst
  | branchAndBound => .branchAndBound
  | limitedDiscrepancy => .limitedDiscrepancy

/-- A search of such an engine, with conditions of any type. -/
inductive SequentialSearch (σ : Type)
  | depthFirst (search : DepthFirst (Option σ))
  | branchAndBound (search : BranchAndBound (Option σ))
  | limitedDiscrepancy (search : LimitedDiscrepancy (Option σ))

namespace SequentialSearch

variable {τ ρ : Type}

/-- A search of the tree below a root. -/
def start (kind : SequentialKind) (root : Space) (options : SearchOptions τ ρ) (stop : Option σ) :
    Journaled (SequentialSearch σ) := do
  let tracing := Tracing.start 0 options.isTraced
  match kind with
  | .depthFirst => return depthFirst (← DepthFirst.start root options.exploration tracing stop)
  | .branchAndBound =>
      return branchAndBound (← BranchAndBound.start root options.exploration tracing stop)
  | .limitedDiscrepancy =>
      return limitedDiscrepancy
        (← LimitedDiscrepancy.start root options.discrepancyLimit tracing stop)

def step : SequentialSearch σ → Journaled (Option Outcome × SequentialSearch σ)
  | depthFirst search => do
      let (outcome, search) ← search.step
      return (outcome, depthFirst search)
  | branchAndBound search => do
      let (outcome, search) ← search.step
      return (outcome, branchAndBound search)
  | limitedDiscrepancy search => do
      let (outcome, search) ← search.step
      return (outcome, limitedDiscrepancy search)

/-- The statistics that a condition is polled with. -/
def statistics : SequentialSearch σ → Statistics
  | depthFirst search => search.explorer.reported
  | branchAndBound search => search.explorer.reported
  | limitedDiscrepancy search => search.probe.statistics

def stop : SequentialSearch σ → Option σ
  | depthFirst search => search.stop
  | branchAndBound search => search.stop
  | limitedDiscrepancy search => search.stop

/-- The search under a condition. -/
def attach (stop : σ) : SequentialSearch σ → SequentialSearch σ
  | depthFirst search => depthFirst { search with stop := some stop }
  | branchAndBound search => branchAndBound { search with stop := some stop }
  | limitedDiscrepancy search => limitedDiscrepancy { search with stop := some stop }

/-- The same search, among those that an engine can have. -/
def toSearch : SequentialSearch σ → Search σ ρ
  | depthFirst search => .complete (.depthFirst search)
  | branchAndBound search => .complete (.branchAndBound search)
  | limitedDiscrepancy search => .limitedDiscrepancy search

omit [StopCondition σ] in
theorem start_eq [CutoffSequence ρ] {kind : SequentialKind} {root : Space}
    {options : SearchOptions σ ρ} (hthreads : options.threads = 1) :
    Search.start kind.engine root options =
      toSearch <$> start kind root options options.stop := by
  cases kind with
  | depthFirst =>
    simp only [Search.start, SequentialKind.engine, CompleteSearch.start, hthreads,
      lt_self_iff_false, if_false, Bool.false_eq_true, start, map_bind, map_pure, bind_assoc,
      pure_bind]
    rfl
  | branchAndBound =>
    simp only [Search.start, SequentialKind.engine, CompleteSearch.start, hthreads,
      lt_self_iff_false, if_false, if_true, start, map_bind, map_pure, bind_assoc, pure_bind]
    rfl
  | limitedDiscrepancy =>
    simp only [Search.start, SequentialKind.engine, start, map_bind, map_pure]
    rfl

theorem step_toSearch [CutoffSequence ρ] (e : SequentialSearch σ) :
    (e.toSearch : Search σ ρ).step = (do
      let (outcome, e) ← e.step
      return (outcome, e.toSearch)) := by
  cases e <;> simp only [toSearch, Search.step, CompleteSearch.step, step, bind_assoc, pure_bind]

omit [StopCondition σ] in
theorem statistics_toSearch [CutoffSequence ρ] (e : SequentialSearch σ) :
    (e.toSearch : Search σ ρ).statistics = .ok e.statistics := by
  cases e <;> rfl

omit [StopCondition σ] in
theorem start_attach (kind : SequentialKind) (root : Space) (options : SearchOptions τ ρ)
    (stop : σ) :
    start kind root options (some stop) = attach stop <$> start kind root options none := by
  cases kind with
  | depthFirst =>
    simp only [start, DepthFirst.start, map_bind, map_pure, bind_assoc, pure_bind]
    rfl
  | branchAndBound =>
    simp only [start, BranchAndBound.start, map_bind, map_pure, bind_assoc, pure_bind]
    rfl
  | limitedDiscrepancy =>
    simp only [start, LimitedDiscrepancy.start, LimitedDiscrepancy.reset, map_bind, map_pure,
      bind_assoc]
    congr 1
    funext ⟨status, root, statistics⟩
    split <;> rfl

theorem interrupts : Interrupts (step (σ := σ)) attach statistics (stop · = none) where
  free e he r hr := by
    cases e with
    | depthFirst search =>
      obtain ⟨r', hr', hr⟩ := Journaled.exists_of_returns_bind hr
      cases Journaled.of_returns_pure hr
      exact DepthFirst.free_of_step he hr'
    | branchAndBound search =>
      obtain ⟨r', hr', hr⟩ := Journaled.exists_of_returns_bind hr
      cases Journaled.of_returns_pure hr
      exact BranchAndBound.free_of_step he hr'
    | limitedDiscrepancy search =>
      obtain ⟨r', hr', hr⟩ := Journaled.exists_of_returns_bind hr
      cases Journaled.of_returns_pure hr
      exact LimitedDiscrepancy.free_of_step he hr'
  attach e he := by
    cases e with
    | depthFirst search =>
      exact .inr fun stop => guarded_part depthFirst (fun _ => rfl) (fun _ _ => rfl)
        (fun _ => rfl) (DepthFirst.step_attach he stop)
    | branchAndBound search =>
      exact .inr fun stop => guarded_part branchAndBound (fun _ => rfl) (fun _ _ => rfl)
        (fun _ => rfl) (BranchAndBound.step_attach he stop)
    | limitedDiscrepancy search =>
      exact (LimitedDiscrepancy.step_attach he).imp
        (fun hattach stop => carried_part limitedDiscrepancy (fun _ => rfl)
          (fun _ _ => rfl) (hattach stop))
        fun hattach stop => guarded_part limitedDiscrepancy (fun _ => rfl)
          (fun _ _ => rfl) (fun _ => rfl) (hattach stop)

/-- Without a stop condition, a search of a finite tree comes to its end, or an operation on a space
of the tree faults. -/
theorem start_meets {kind : SequentialKind} {root : Space}
    (hfinite : root.HasFiniteTree kind.Improves) (options : SearchOptions τ ρ) :
    Journaled.Meets (root.Faults kind.Improves) (start kind root options (none : Option σ)) fun e =>
      e.stop = none ∧ Terminates (root.Faults kind.Improves) step e := by
  obtain ⟨depth, hdepth⟩ := hfinite
  have hM := root.closed_chart kind.Improves
  have hroot : (root.chart kind.Improves).stands [] root := .root
  cases kind with
  | depthFirst =>
    exact (DepthFirst.start_meets hM hdepth hroot _ _).bind fun d ⟨hstop, hterminates⟩ =>
      Journaled.Meets.pure ⟨hstop, hterminates.part depthFirst fun _ => rfl⟩
  | branchAndBound =>
    exact (BranchAndBound.start_meets hM hdepth hroot _ _ rfl).bind fun b ⟨hstop, hterminates⟩ =>
      Journaled.Meets.pure ⟨hstop, hterminates.part branchAndBound fun _ => rfl⟩
  | limitedDiscrepancy =>
    exact (LimitedDiscrepancy.start_meets hM hdepth hroot _ _).bind fun l ⟨hstop, hterminates⟩ =>
      Journaled.Meets.pure ⟨hstop, hterminates.part limitedDiscrepancy fun _ => rfl⟩

end SequentialSearch

/-! ### Repeated calls -/

theorem searchWithin_of_none {ε : Type} {step : ε → Journaled (Option Outcome × ε)} {e e' : ε}
    {journal journal' : Journal} (h : step e journal = (.ok (none, e'), journal')) (steps : Nat) :
    searchWithin step (steps + 1) e journal = searchWithin step steps e' journal' := by
  rw [searchWithin, Journaled.bind_of_run h]

theorem searchWithin_of_some {ε : Type} {step : ε → Journaled (Option Outcome × ε)} {e e' : ε}
    {outcome : Outcome} {journal journal' : Journal}
    (h : step e journal = (.ok (some outcome, e'), journal')) (steps : Nat) :
    searchWithin step (steps + 1) e journal = (.ok (outcome, e'), journal') := by
  rw [searchWithin, Journaled.bind_of_run h]
  rfl

theorem searchWithin_of_fault {ε : Type} {step : ε → Journaled (Option Outcome × ε)} {e : ε}
    {fault : Fault} {journal journal' : Journal} (h : step e journal = (.error fault, journal'))
    (steps : Nat) : searchWithin step (steps + 1) e journal = (.error fault, journal') := by
  rw [searchWithin, Journaled.bind_of_fault h]

/-- The options with another stop condition. -/
def SearchOptions.withStop {ρ : Type} (options : SearchOptions σ ρ) (stop : Option σ) :
    SearchOptions σ ρ := { options with stop }

namespace Engine

variable {ρ : Type} [CutoffSequence ρ] {e : Engine σ ρ} {search : Search σ ρ}
  {steps calls : Nat} {journal journal' : Journal}
  {r : Except Fault (List Space × Search σ ρ)}

/-- The solutions of an engine that is called again after each solution and each stop, in so many
calls at most, until there is no further one. -/
def resume (steps : Nat) : Nat → Engine σ ρ → Journaled (List Space × Engine σ ρ)
  | 0, _ => throw .unfinished
  | calls + 1, e => do
      match ← e.next steps with
      | (some s, e) =>
          let (found, e) ← resume steps calls e
          return (s :: found, e)
      | (none, e) => if e.hasStopped then resume steps calls e else return ([], e)

/-- What follows a call with an outcome. -/
def conclude (steps calls : Nat) (e : Engine σ ρ) :
    Outcome × Search σ ρ → Journaled (List Space × Engine σ ρ)
  | (.solution s, search) => do
      let (found, e) ← resume steps calls { e with search, hasStopped := false }
      return (s :: found, e)
  | (.exhausted, search) => return ([], { e with search, hasStopped := false })
  | (.stopped, search) => resume steps calls { e with search, hasStopped := true }

theorem resume_succ : resume steps (calls + 1) e =
    searchWithin Search.step steps e.search >>= conclude steps calls e := by
  rw [resume, next, bind_assoc]
  congr 1
  funext ⟨outcome, search⟩
  cases outcome <;> simp only [conclude, pure_bind, if_true, Bool.false_eq_true, if_false]

/-- The engine at the end of its tree. -/
def ended (e : Engine σ ρ) : List Space × Search σ ρ → List Space × Engine σ ρ :=
  Prod.map id fun search => { e with search, hasStopped := false }

/-- With enough steps and calls an engine comes to what its search comes to. -/
theorem resume_of_concludes (h : Concludes Search.step search journal r journal') :
    ∃ n, ∀ steps ≥ n, ∀ calls ≥ n, ∀ e : Engine σ ρ, e.search = search →
      resume steps calls e journal = (r.map e.ended, journal') := by
  -- A call begins with `steps` steps, of which `fuel` are left.
  suffices hfuel : ∃ n, ∀ fuel ≥ n, ∀ steps ≥ n, ∀ calls ≥ n, ∀ e : Engine σ ρ,
      (searchWithin Search.step fuel search >>= conclude steps calls e) journal =
        (r.map e.ended, journal') by
    obtain ⟨n, hn⟩ := hfuel
    refine ⟨n + 1, fun steps hsteps calls hcalls e he => ?_⟩
    obtain ⟨calls, rfl⟩ := Nat.exists_eq_add_of_le' (Nat.one_le_of_lt hcalls)
    rw [resume_succ, he]
    exact hn steps (by omega) steps (by omega) calls (by omega) e
  induction h with
  | fault h =>
    refine ⟨1, fun fuel hfuel steps _ calls _ e => ?_⟩
    obtain ⟨fuel, rfl⟩ := Nat.exists_eq_add_of_le' hfuel
    exact Journaled.bind_of_fault (searchWithin_of_fault h fuel)
  | exhausted h =>
    refine ⟨1, fun fuel hfuel steps _ calls _ e => ?_⟩
    obtain ⟨fuel, rfl⟩ := Nat.exists_eq_add_of_le' hfuel
    exact Journaled.bind_of_run (searchWithin_of_some h fuel)
  | next h _ ih =>
    obtain ⟨n, hn⟩ := ih
    refine ⟨n + 1, fun fuel hfuel steps hsteps calls hcalls e => ?_⟩
    obtain ⟨fuel, rfl⟩ := Nat.exists_eq_add_of_le' (Nat.one_le_of_lt hfuel)
    rw [Journaled.bind_congr_run (searchWithin_of_none h fuel)]
    exact hn fuel (by omega) steps (by omega) calls (by omega) e
  | @stopped _ search' _ _ _ _ h _ ih =>
    obtain ⟨n, hn⟩ := ih
    refine ⟨n + 1, fun fuel hfuel steps hsteps calls hcalls e => ?_⟩
    obtain ⟨fuel, rfl⟩ := Nat.exists_eq_add_of_le' (Nat.one_le_of_lt hfuel)
    obtain ⟨calls, rfl⟩ := Nat.exists_eq_add_of_le' (Nat.one_le_of_lt hcalls)
    rw [Journaled.bind_of_run (searchWithin_of_some h fuel), conclude, resume_succ]
    exact hn steps (by omega) steps (by omega) calls (by omega)
      { e with search := search', hasStopped := true }
  | @solution _ search' s _ _ _ r h _ ih =>
    obtain ⟨n, hn⟩ := ih
    refine ⟨n + 1, fun fuel hfuel steps hsteps calls hcalls e => ?_⟩
    obtain ⟨fuel, rfl⟩ := Nat.exists_eq_add_of_le' (Nat.one_le_of_lt hfuel)
    obtain ⟨calls, rfl⟩ := Nat.exists_eq_add_of_le' (Nat.one_le_of_lt hcalls)
    have hrest := hn steps (by omega) steps (by omega) calls (by omega)
      { e with search := search', hasStopped := false }
    rw [Journaled.bind_of_run (searchWithin_of_some h fuel), conclude, resume_succ]
    cases r with
    | error fault => exact Journaled.bind_of_fault hrest
    | ok found => exact Journaled.bind_of_run hrest

/-- All solutions of a space, by an engine that is called again after each solution and each
stop. -/
def exhaust (kind : EngineKind) (root : Space) (options : SearchOptions σ ρ) (steps calls : Nat) :
    JournaledRequest (List Space × Engine σ ρ) := do
  let (e, _) ← start kind root options
  e.resume steps calls

/-- What comes of an engine that is called again with enough steps and often enough. -/
def Exhausts (kind : EngineKind) (root : Space) (options : SearchOptions σ ρ) (journal : Journal)
    (r : Except Fault (List Space × Engine σ ρ)) (after : Journal) : Prop :=
  ∃ n, ∀ steps ≥ n, ∀ calls ≥ n,
    (exhaust kind root options steps calls).run journal = (r.map .ok, after)

/-- Whatever an engine without a stop condition and the condition come to, the condition does not
hold forever. -/
def Bears (e : Engine σ ρ) (stop : σ) : Prop :=
  ∀ search, Reaches Search.step e.search search → ∀ statistics, search.statistics = .ok statistics →
    ∀ stop', Polled stop stop' → Relents statistics stop'

variable {kind : SequentialKind} {root : Space} {options : SearchOptions σ ρ} {stop : σ}

section Sequential

variable (options : SearchOptions σ ρ) (hthreads : options.threads = 1)
  (hobjective : kind = .branchAndBound → root.objective.isSome = true)

include hthreads hobjective

omit [StopCondition σ] in
theorem start_sequential :
    (start kind.engine root options).run = (do
      let search ← SequentialSearch.start kind root options options.stop
      return .ok (⟨search.toSearch, false, options.isTraced⟩,
        if options.copiesSpace then root else default)) := by
  have hkind : kind.engine = .branchAndBound → root.objective.isSome = true := by
    cases kind <;> simp [SequentialKind.engine]
    exact hobjective rfl
  rw [start_eq hthreads hkind, SequentialSearch.start_eq hthreads, bind_map_left]

theorem exhaust_sequential (steps calls : Nat) :
    (exhaust kind.engine root options steps calls).run = (do
      let search ← SequentialSearch.start kind root options options.stop
      return .ok (← resume steps calls ⟨search.toSearch, false, options.isTraced⟩)) := by
  unfold exhaust
  rw [ExceptT.run_bind, start_sequential options hthreads hobjective, bind_assoc]
  rfl

theorem exhausts_of_fault {fault : Fault} {after : Journal}
    (h : SequentialSearch.start kind root options options.stop journal = (.error fault, after)) :
    Exhausts kind.engine root options journal (.error fault) after :=
  ⟨0, fun steps _ calls _ => by
    rw [exhaust_sequential options hthreads hobjective]
    exact Journaled.bind_of_fault h⟩

/-- An engine comes to what its search comes to. -/
theorem exhausts_of_concludes {search : SequentialSearch σ} {between after : Journal}
    {r : Except Fault (List Space × SequentialSearch σ)}
    (h : SequentialSearch.start kind root options options.stop journal = (.ok search, between))
    (hr : Concludes SequentialSearch.step search between r after) :
    Exhausts kind.engine root options journal (r.map fun (found, search) =>
      (found, ⟨search.toSearch, false, options.isTraced⟩)) after := by
  obtain ⟨n, hn⟩ := resume_of_concludes (ρ := ρ) (hr.part _ SequentialSearch.step_toSearch)
  refine ⟨n, fun steps hsteps calls hcalls => ?_⟩
  have hresume := hn steps hsteps calls hcalls ⟨search.toSearch, false, options.isTraced⟩ rfl
  rw [exhaust_sequential options hthreads hobjective, Journaled.bind_of_run h]
  cases r with
  | error fault => exact Journaled.bind_of_fault hresume
  | ok found => exact Journaled.bind_of_run hresume

end Sequential

/-- **Stopping and resuming is transparent.** However often an engine is stopped in a finite tree,
it returns the solutions that it returns without a stop condition, in the same order, and then it
ends without having been stopped, provided that the condition does not hold forever. If an operation
on a space of the tree faults, then in both cases. -/
theorem exhausts_of_stopped (options : SearchOptions σ ρ) (hthreads : options.threads = 1)
    (hobjective : kind = .branchAndBound → root.objective.isSome = true)
    (hfinite : root.HasFiniteTree kind.Improves)
    (hstop : ∀ e rest, (start kind.engine root (options.withStop none)).run.Returns
      (.ok (e, rest)) → e.Bears stop) (journal : Journal) :
    ∃ after,
      (∃ found e₁ e₂, e₁.hasStopped = false ∧ e₂.hasStopped = false ∧
        Exhausts kind.engine root (options.withStop none) journal (.ok (found, e₁)) after ∧
        Exhausts kind.engine root (options.withStop (some stop)) journal (.ok (found, e₂)) after) ∨
      ∃ fault, root.Faults kind.Improves fault ∧
        Exhausts kind.engine root (options.withStop none) journal (.error fault) after ∧
        Exhausts kind.engine root (options.withStop (some stop)) journal (.error fault) after := by
  have hattach : SequentialSearch.start kind root (options.withStop (some stop)) (some stop) =
      SequentialSearch.attach stop <$>
        SequentialSearch.start kind root (options.withStop none) none :=
    SequentialSearch.start_attach kind root options stop
  rw [← bind_pure_comp] at hattach
  have hmeets := SequentialSearch.start_meets (σ := σ) hfinite (options.withStop none) journal
  rcases hstart : SequentialSearch.start kind root (options.withStop none) none journal with
    ⟨fault | search, between⟩ <;> rw [hstart] at hmeets
  · have hstarted : SequentialSearch.start kind root (options.withStop (some stop)) (some stop)
        journal = (.error fault, between) := by
      rw [hattach, Journaled.bind_of_fault hstart]
    exact ⟨between, .inr ⟨fault, hmeets,
      exhausts_of_fault (options.withStop none) hthreads hobjective hstart,
      exhausts_of_fault (options.withStop (some stop)) hthreads hobjective hstarted⟩⟩
  obtain ⟨hfree, hterminates⟩ := hmeets
  have hstarted : SequentialSearch.start kind root (options.withStop (some stop)) (some stop)
      journal = (.ok (search.attach stop), between) := by
    rw [hattach, Journaled.bind_of_run hstart]
    rfl
  have hbears : ConstraintSearch.Bears SequentialSearch.step SequentialSearch.statistics search
      stop := by
    intro search' hreaches stop' hpolled
    have hreturns : (start kind.engine root (options.withStop none)).run.Returns
        (.ok (⟨search.toSearch, false, options.isTraced⟩,
          if options.copiesSpace then root else default)) := by
      rw [start_sequential (options.withStop none) hthreads hobjective]
      exact ⟨journal, congrArg Prod.fst (Journaled.bind_of_run hstart)⟩
    have hreached := hreaches.part _ (SequentialSearch.step_toSearch (ρ := ρ))
    exact hstop _ _ hreturns _ hreached _ search'.statistics_toSearch stop' hpolled
  obtain ⟨r, after, hr, hfault⟩ := hterminates between
  obtain ⟨stop', hr'⟩ := SequentialSearch.interrupts.concludes hfree hbears hr
  have hplain := exhausts_of_concludes (options.withStop none) hthreads hobjective hstart hr
  have hstopped := exhausts_of_concludes (options.withStop (some stop)) hthreads hobjective
    hstarted hr'
  cases r with
  | error fault => exact ⟨after, .inr ⟨fault, hfault, hplain, hstopped⟩⟩
  | ok found => exact ⟨after, .inl ⟨found.1, _, _, rfl, rfl, hplain, hstopped⟩⟩

/-! More steps and more calls change nothing. -/

theorem searchWithin_mono {ε : Type} {step : ε → Journaled (Option Outcome × ε)} {e : ε}
    {r : Outcome × ε} {steps' : Nat} (h : searchWithin step steps e journal = (.ok r, journal'))
    (hle : steps ≤ steps') : searchWithin step steps' e journal = (.ok r, journal') := by
  induction steps generalizing e journal steps' with
  | zero => cases h
  | succ steps ih =>
    obtain ⟨steps', rfl⟩ := Nat.exists_eq_add_of_le' (Nat.one_le_of_lt hle)
    rw [searchWithin] at h
    obtain ⟨⟨outcome, e'⟩, between, hstep, h⟩ := Journaled.exists_run_of_bind h
    cases outcome with
    | none =>
      rw [searchWithin_of_none hstep]
      exact ih h (by omega)
    | some outcome =>
      rw [searchWithin_of_some hstep]
      exact h

theorem resume_mono {found : List Space × Engine σ ρ} {steps' calls' : Nat}
    (h : resume steps calls e journal = (.ok found, journal')) (hsteps : steps ≤ steps')
    (hcalls : calls ≤ calls') : resume steps' calls' e journal = (.ok found, journal') := by
  induction calls generalizing e journal journal' calls' found with
  | zero => cases h
  | succ calls ih =>
    obtain ⟨calls', rfl⟩ := Nat.exists_eq_add_of_le' (Nat.one_le_of_lt hcalls)
    rw [resume_succ] at h ⊢
    obtain ⟨⟨outcome, search⟩, between, hsearch, h⟩ := Journaled.exists_run_of_bind h
    rw [Journaled.bind_of_run (searchWithin_mono hsearch hsteps)]
    cases outcome with
    | solution s =>
      obtain ⟨rest, between', hrest, h⟩ := Journaled.exists_run_of_bind h
      rw [conclude, Journaled.bind_of_run (ih hrest (by omega))]
      exact h
    | exhausted => exact h
    | stopped => exact ih h (by omega)

/-- An engine that has come to the end of its tree comes to the same with more steps and calls. -/
theorem exhausts_of_exhaust {kind : EngineKind} {found : List Space × Engine σ ρ}
    {after : Journal}
    (h : (exhaust kind root options steps calls).run journal = (.ok (.ok found), after)) :
    Exhausts kind root options journal (.ok found) after := by
  refine ⟨max steps calls, fun steps' hsteps calls' hcalls => ?_⟩
  unfold exhaust at h ⊢
  rw [ExceptT.run_bind] at h ⊢
  obtain ⟨started, between, hstart, h⟩ := Journaled.exists_run_of_bind h
  rw [Journaled.bind_of_run hstart]
  cases started with
  | error error => cases h
  | ok started =>
    obtain ⟨found', after', hresume, h⟩ := Journaled.exists_run_of_bind h
    cases h
    have hmore := resume_mono hresume (le_of_max_le_left hsteps) (le_of_max_le_right hcalls)
    exact Journaled.bind_of_run hmore

theorem Exhausts.unique {kind : EngineKind} {r r' : Except Fault (List Space × Engine σ ρ)}
    {after after' : Journal} (h : Exhausts kind root options journal r after)
    (h' : Exhausts kind root options journal r' after') : r = r' ∧ after = after' := by
  obtain ⟨n, hn⟩ := h
  obtain ⟨n', hn'⟩ := h'
  have hmax := hn (max n n') (le_max_left _ _) (max n n') (le_max_left _ _)
  rw [hn' (max n n') (le_max_right _ _) (max n n') (le_max_right _ _)] at hmax
  cases r <;> cases r' <;> cases hmax <;> exact ⟨rfl, rfl⟩

end Engine

namespace Stop

variable {period last : Nat} {counters : Statistics}

theorem poll_interrupt (h : 0 < period) : poll (interrupt period last) counters =
    if counters.nodes ≠ 0 ∧ counters.nodes % period = 0 ∧ counters.nodes ≠ last then
      .ok (true, interrupt period counters.nodes)
    else .ok (false, interrupt period last) := by
  unfold poll
  by_cases hzero : counters.nodes = 0
  · rw [if_pos hzero, if_neg fun hall => hall.1 hzero]
    rfl
  · rw [if_neg hzero, if_neg h.ne']
    simp only [hzero, ne_eq, not_false_eq_true, true_and]
    rfl

theorem relents_interrupt (h : 0 < period) : Relents counters (interrupt period last) := by
  by_cases hholds :
      counters.nodes ≠ 0 ∧ counters.nodes % period = 0 ∧ counters.nodes ≠ last
  · -- Polled again, it remembers the number of nodes.
    have hagain : poll (interrupt period counters.nodes) counters =
        .ok (false, interrupt period counters.nodes) :=
      (poll_interrupt h).trans (if_neg fun hall => hall.2.2 rfl)
    exact .later ((poll_interrupt h).trans (if_pos hholds)) (.now hagain)
  · exact .now ((poll_interrupt h).trans (if_neg hholds))

theorem eq_interrupt_of_polled {stop : Stop} (h : Polled (interrupt period last) stop)
    (hperiod : 0 < period) : ∃ last', stop = interrupt period last' := by
  generalize hfirst : interrupt period last = first at h
  induction h generalizing last with
  | refl => exact ⟨last, hfirst.symm⟩
  | poll hpoll _ ih =>
    subst hfirst
    change poll _ _ = _ at hpoll
    rw [poll_interrupt hperiod] at hpoll
    split at hpoll <;> cases hpoll <;> exact ih rfl

/-- A condition that interrupts a search once at some of its nodes does not hold forever. -/
theorem bears_interrupt {ρ : Type} [CutoffSequence ρ] (e : Engine Stop ρ) (h : 0 < period) :
    e.Bears (interrupt period last) := by
  intro _ _ statistics _ stop hstop
  obtain ⟨last', rfl⟩ := eq_interrupt_of_polled hstop h
  exact relents_interrupt h

end Stop

/-- A limited discrepancy search that is stopped wherever it can be returns its four solutions. -/
theorem Engine.exhausts_of_stopped_differing : ∃ s, ∃ found, ∃ e₁ e₂ : Engine, ∃ after,
    Built .costOrdered differing s ∧ found.length = 4 ∧
      e₁.hasStopped = false ∧ e₂.hasStopped = false ∧
      Exhausts .limitedDiscrepancy { s with objective := none }
        (SearchOptions.withStop {} none) #[] (.ok (found, e₁)) after ∧
      Exhausts .limitedDiscrepancy { s with objective := none }
        (SearchOptions.withStop {} (some (.interrupt 1 0))) #[] (.ok (found, e₂)) after := by
  have hcheck : buildsTo .costOrdered differing (fun s =>
      (exhaust .limitedDiscrepancy { s with objective := none }
        (SearchOptions.withStop ({} : SearchOptions) none) 99 9).run.check fun
          | .ok (found, _) => found.length == 4
          | .error _ => false) = true := by
    decide +kernel
  obtain ⟨s, hs, hruns⟩ := exists_built_of_buildsTo hcheck
  obtain ⟨r, after, hrun, hproperty⟩ := Journaled.exists_run_of_check hruns
  rcases r with error | ⟨found, e⟩
  · cases hproperty
  have hfour : found.length = 4 := beq_iff_eq.1 hproperty
  have hnone : ∀ o ∈ (none : Option Objective), o.variable.Admissible True s.store := nofun
  have hfinite := hs.hasFiniteTree (by decide) hnone SequentialKind.limitedDiscrepancy.Improves
  have hplain := exhausts_of_exhaust hrun
  have hobjective : SequentialKind.limitedDiscrepancy = .branchAndBound →
      Option.isSome (none : Option Objective) = true := nofun
  have hstop (e : Engine) : e.Bears (.interrupt 1 0) := Stop.bears_interrupt e Nat.one_pos
  obtain ⟨after', ⟨found', e₁, e₂, h₁, h₂, hplain', hstopped⟩ | ⟨fault, -, hplain', -⟩⟩ :=
    exhausts_of_stopped ({} : SearchOptions) rfl hobjective hfinite (fun e _ _ => hstop e) #[]
  · obtain ⟨hsame, rfl⟩ := hplain.unique hplain'
    cases hsame
    exact ⟨s, found, e, e₂, after, hs, hfour, h₁, h₂, hplain, hstopped⟩
  · cases (hplain.unique hplain').1

end ConstraintSearch
