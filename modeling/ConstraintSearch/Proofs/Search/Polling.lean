import ConstraintSearch.Proofs.Search.Resuming
import ConstraintSearch.Proofs.Search.SpaceTree

/-!
# How often a stop condition is polled

A condition can keep a log of its polls: with which statistics it was polled, and whether it held.
Between two polls a depth-first search and a branch and bound explore one node at most, and none
before the first poll. A limited discrepancy search polls only when it returns to a node: in between
it explores two branches of the tree at most, down to a leaf each.

* `Metered`: a condition with a log, and `SequentialSearch.step_forget`: the log does not matter;
* `Paced`: how many nodes there are between the polls of a log;
* `Probe.Stretch`: where a probe can be after a number of nodes without a poll;
* `SequentialSearch.paced_of_reaches`: the logs of all searches by one worker.
-/

namespace ConstraintSearch

open Journaled (Ensures)

/-! ### Conditions with a log -/

/-- A poll of a condition. -/
structure Poll where
  statistics : Statistics
  held : Bool

/-- A condition that keeps a log of its polls. -/
structure Metered (σ : Type) where
  stop : σ
  /-- The polls so far, the last one first. -/
  polls : List Poll

/-- A condition that was not polled yet. -/
def Metered.fresh {σ : Type} (stop : σ) : Metered σ := ⟨stop, []⟩

variable {σ : Type} [StopCondition σ]

instance : StopCondition (Metered σ) where
  poll metered statistics := do
    let (holds, stop) ← StopCondition.poll metered.stop statistics
    return (holds, ⟨stop, ⟨statistics, holds⟩ :: metered.polls⟩)

/-- A poll of a condition that may be missing, but is there, is logged. -/
theorem Metered.exists_of_poll {metered : Metered σ} {statistics : Statistics} {holds : Bool}
    {stop : Option (Metered σ)}
    (h : StopCondition.poll (some metered) statistics = .ok (holds, stop)) :
    ∃ metered', stop = some metered' ∧ metered'.polls = ⟨statistics, holds⟩ :: metered.polls ∧
      StopCondition.poll metered statistics = .ok (holds, metered') := by
  obtain ⟨⟨_, metered'⟩, hmetered, h⟩ := Yields.exists_of_bind h
  cases h
  obtain ⟨⟨_, _⟩, -, h⟩ := Yields.exists_of_bind hmetered
  cases h
  exact ⟨_, rfl, rfl, hmetered⟩

theorem Polled.trans {stop stop' stop'' : σ} (h : Polled stop stop') (h' : Polled stop' stop'') :
    Polled stop stop'' := by
  induction h with
  | refl => exact h'
  | poll hpoll _ ih => exact .poll hpoll (ih h')

/-- A condition that holds from a number of nodes on, whenever it is polled. -/
def LimitsNodes (limit : Nat) (stop : σ) : Prop :=
  ∀ statistics, StopCondition.poll stop statistics = .ok (decide (limit ≤ statistics.nodes), stop)

theorem Stop.limitsNodes (limit : Nat) : LimitsNodes limit (nodes limit) := fun _ => rfl

theorem LimitsNodes.held {limit : Nat} {stop : σ} {first metered : Metered σ}
    (h : LimitsNodes limit stop) (hpolled : Polled first metered) (hstart : first.stop = stop)
    (hheld : ∀ p ∈ first.polls, p.held = decide (limit ≤ p.statistics.nodes)) :
    ∀ p ∈ metered.polls, p.held = decide (limit ≤ p.statistics.nodes) := by
  induction hpolled with
  | refl => exact hheld
  | poll hpoll _ ih =>
    obtain ⟨⟨_, _⟩, hstop, hpoll⟩ := Yields.exists_of_bind hpoll
    rw [hstart, h] at hstop
    cases hstop
    cases hpoll
    exact ih rfl (List.forall_mem_cons.2 ⟨rfl, hheld⟩)

/-! ### Logs and nodes -/

/-- After each poll of a log the search has explored up to `stride` nodes, and none if the condition
held; before the first poll, up to `lead`. The log is complete up to a number of nodes. -/
def Paced (lead stride : Nat) : List Poll → Nat → Prop
  | [], nodes => nodes ≤ lead
  | poll :: polls, nodes => poll.statistics.nodes ≤ nodes ∧
      nodes ≤ poll.statistics.nodes + (if poll.held then 0 else stride) ∧
      Paced lead stride polls poll.statistics.nodes

namespace Paced

variable {lead lead' stride stride' nodes : Nat} {polls : List Poll}

theorem mono (h : Paced lead stride polls nodes) (hlead : lead ≤ lead')
    (hstride : stride ≤ stride') : Paced lead' stride' polls nodes := by
  induction polls generalizing nodes with
  | nil => exact h.trans hlead
  | cons poll polls ih =>
    obtain ⟨hle, hnodes, hpast⟩ := h
    refine ⟨hle, hnodes.trans ?_, ih hpast⟩
    split <;> omega

theorem poll (h : Paced lead stride polls nodes) {statistics : Statistics}
    (hnodes : statistics.nodes = nodes) (held : Bool) :
    Paced lead stride (⟨statistics, held⟩ :: polls) nodes :=
  ⟨hnodes.le, hnodes ▸ Nat.le_add_right _ _, hnodes ▸ h⟩

/-- If a condition limits the nodes, their number exceeds the limit by less than a stride. -/
theorem le_of_limit {limit : Nat} (h : Paced lead stride polls nodes)
    (hheld : ∀ p ∈ polls, p.held = decide (limit ≤ p.statistics.nodes)) :
    nodes ≤ max lead (if limit = 0 then 0 else limit - 1 + stride) := by
  induction polls generalizing nodes with
  | nil => exact le_max_of_le_left h
  | cons poll polls ih =>
    obtain ⟨hle, hnodes, hpast⟩ := h
    obtain ⟨hhead, htail⟩ := List.forall_mem_cons.1 hheld
    rw [hhead] at hnodes
    by_cases hholds : limit ≤ poll.statistics.nodes
    · rw [decide_eq_true hholds, if_pos rfl] at hnodes
      exact hnodes.trans (ih hpast htail)
    · rw [decide_eq_false hholds, if_neg Bool.false_ne_true] at hnodes
      rw [if_neg (by omega)]
      omega

end Paced

/-- The condition of a search keeps the log `first` up to date. -/
def Logs (first : Metered σ) (lead stride : Nat) (stop : Option (Metered σ)) (nodes : Nat) : Prop :=
  ∃ metered, stop = some metered ∧ Polled first metered ∧ Paced lead stride metered.polls nodes

variable {first : Metered σ} {stop stop' : Option (Metered σ)} {nodes : Nat}

/-- A search that polls before each node. -/
theorem Logs.poll {statistics : Statistics} {holds : Bool} (h : Logs first 0 1 stop nodes)
    (hnodes : statistics.nodes = nodes)
    (hpoll : StopCondition.poll stop statistics = .ok (holds, stop')) :
    Logs first 0 1 stop' nodes ∧ (holds = false → Logs first 0 1 stop' (nodes + 1)) := by
  obtain ⟨metered, rfl, hpolled, hpaced⟩ := h
  obtain ⟨metered', rfl, hpolls, hpoll⟩ := Metered.exists_of_poll hpoll
  have hpolled' := hpolled.trans (.poll hpoll (.refl _))
  refine ⟨⟨metered', rfl, hpolled', hpolls ▸ hpaced.poll hnodes holds⟩, ?_⟩
  rintro rfl
  refine ⟨metered', rfl, hpolled', ?_⟩
  rw [hpolls, ← hnodes]
  exact ⟨Nat.le_succ _, le_refl _, hnodes ▸ hpaced⟩

/-- A call makes a number of steps. -/
theorem reaches_of_searchWithin {ε : Type} {step : ε → Journaled (Option Outcome × ε)} {steps : Nat}
    {e e' : ε} {outcome : Outcome} (h : (searchWithin step steps e).Returns (outcome, e')) :
    Reaches step e e' := by
  induction steps generalizing e with
  | zero =>
    obtain ⟨journal, h⟩ := h
    cases h
  | succ steps ih =>
    obtain ⟨⟨outcome', e₁⟩, hstep, h⟩ := Journaled.exists_of_returns_bind h
    cases outcome' with
    | none => exact .step hstep (ih h)
    | some outcome' =>
      cases Journaled.of_returns_pure h
      exact .step hstep (.refl _)

/-! ### Nodes of an exploration -/

theorem ensures_statusOf (s : Space) (statistics : Statistics) :
    (statusOf s statistics).Ensures fun r =>
      r.2.2.nodes = statistics.nodes ∧ r.2.2.depth = statistics.depth :=
  Ensures.trivial.bind fun _ _ => .pure ⟨rfl, rfl⟩

namespace Explorer

variable (e : Explorer) (bound : Option Bound)

/-- The node that comes next is not explored yet. -/
abbrev KeepsNodes (r : Option Space × Explorer × Option Bound) : Prop :=
  r.2.1.statistics.nodes = e.statistics.nodes

theorem nodes_failAt (depth : Nat) : (e.failAt depth bound).Ensures e.KeepsNodes :=
  Ensures.trivial.bind fun _ _ => .pure rfl

theorem nodes_reuseTop (top : Edge) (copy : Space) (edges : List Edge) :
    (e.reuseTop top copy edges bound).Ensures e.KeepsNodes := by
  rw [reuseTop_eq]
  exact Ensures.trivial.bind fun _ _ => Ensures.trivial.bind fun _ _ =>
    Ensures.trivial.bind fun _ _ => .pure rfl

theorem nodes_replayHalfway (s : Space) (segment above : List Edge) :
    (e.replayHalfway s segment above bound).Ensures e.KeepsNodes := by
  refine Ensures.trivial.bind fun s _ => ?_
  split
  · refine (ensures_statusOf _ _).bind fun r hr => ?_
    dsimp only
    split
    · exact (nodes_failAt _ _ _).mono fun _ h => h.trans hr.1
    · exact Ensures.trivial.bind fun _ _ => Ensures.trivial.bind fun _ _ => .pure hr.1
  · exact Ensures.trivial.bind fun _ _ => .pure rfl

theorem nodes_refreshCopy (below : List Edge) (edge : Edge) (copy : Space) (above : List Edge) :
    (refreshCopy e below edge copy above bound).Ensures fun r =>
      r.2.2.1.statistics.nodes = e.statistics.nodes := by
  unfold refreshCopy
  split
  · exact .pure rfl
  split
  · exact Ensures.trivial.bind fun _ _ => (ensures_statusOf _ _).bind fun _ hr => .pure hr.1
  · exact .pure rfl

theorem nodes_rebuild : (e.rebuild bound).Ensures e.KeepsNodes := by
  obtain ⟨fault, h⟩ | ⟨top, copy, edges, -, -, -, h⟩ |
    ⟨top, edges, below, edge, copy, above, hedges, hfar, hsplit⟩ := e.rebuild_cases bound
  · rw [h]
    exact .throw _
  · rw [h]
    exact nodes_reuseTop _ _ _ _ _
  · rw [rebuild_eq hedges hfar hsplit]
    refine (nodes_refreshCopy _ _ _ _ _ _).bind fun r hr => ?_
    dsimp only
    split
    · exact (nodes_failAt _ _ _).mono fun _ h => h.trans hr
    · split
      · exact Ensures.trivial.bind fun _ _ => .pure hr
      · exact (nodes_replayHalfway _ _ _ _ _).mono fun _ h => h.trans hr

theorem nodes_nextNodeWithin (steps : Nat) :
    (nextNodeWithin steps e bound).Ensures e.KeepsNodes := by
  induction steps generalizing e bound with
  | zero => exact .throw _
  | succ steps ih =>
    unfold nextNodeWithin
    split
    · exact .pure rfl
    split
    · exact .pure rfl
    refine (nodes_rebuild _ _).bind fun r hr => ?_
    dsimp only
    split
    · exact .pure hr
    · exact Ensures.trivial.bind fun _ _ => (ih _ _).mono fun _ h => h.trans hr

theorem nodes_reported : e.reported.nodes = e.statistics.nodes := rfl

/-- Exploring a node counts it. -/
theorem nodes_explore (s : Space) :
    (e.explore s).Ensures fun r => r.2.statistics.nodes = e.statistics.nodes + 1 := by
  unfold explore
  extract_lets statistics visit
  have hvisit (edge : Option EdgeInfo) :
      (visit edge).Ensures fun r => r.2.statistics.nodes = e.statistics.nodes + 1 := by
    refine (ensures_statusOf _ _).bind fun r hr => ?_
    have hreport (e' : Explorer) (id : NodeId) (kind : NodeKind) :
        (e'.reportNode edge id kind).statistics = e'.statistics := by
      obtain ⟨tracing, h⟩ := e'.exists_reportNode edge id kind
      rw [h]
    dsimp only
    split
    · exact Ensures.trivial.bind fun _ _ => .pure ((congrArg _ (hreport _ _ _)).trans hr.1)
    · exact Ensures.trivial.bind fun _ _ => .pure ((congrArg _ (hreport _ _ _)).trans hr.1)
    · exact Ensures.trivial.bind fun _ _ => Ensures.trivial.bind fun _ _ =>
        Ensures.trivial.bind fun _ _ => .pure ((congrArg _ (hreport _ _ _)).trans hr.1)
  split
  · refine Ensures.trivial.bind fun edge _ => ?_
    rw [pure_bind]
    exact hvisit (some edge)
  · rw [pure_bind]
    exact hvisit none

end Explorer

theorem DepthFirst.logs_step {d : DepthFirst (Option (Metered σ))}
    (h : Logs first 0 1 d.stop d.explorer.statistics.nodes) :
    d.step.Ensures fun r => Logs first 0 1 r.2.stop r.2.explorer.statistics.nodes := by
  refine (Ensures.lift fun _ hpoll => h.poll (Explorer.nodes_reported _) hpoll).bind ?_
  rintro ⟨holds, stop⟩ ⟨hheld, hrest⟩
  cases holds with
  | true => exact .pure hheld
  | false =>
    refine (Explorer.nodes_nextNodeWithin _ _ _).bind ?_
    rintro ⟨node, explorer, bound⟩ hnodes
    cases node with
    | none => exact .pure (hnodes ▸ hheld)
    | some s =>
      refine (Explorer.nodes_explore _ _).bind ?_
      rintro ⟨explored, explorer'⟩ hnodes'
      have hlogs : Logs first 0 1 stop explorer'.statistics.nodes :=
        (hnodes'.trans (congrArg Nat.succ hnodes)) ▸ hrest rfl
      cases explored <;> exact .pure hlogs

theorem BranchAndBound.logs_step {b : BranchAndBound (Option (Metered σ))}
    (h : Logs first 0 1 b.stop b.explorer.statistics.nodes) :
    b.step.Ensures fun r => Logs first 0 1 r.2.stop r.2.explorer.statistics.nodes := by
  refine (Ensures.lift fun _ hpoll => h.poll (Explorer.nodes_reported _) hpoll).bind ?_
  rintro ⟨holds, stop⟩ ⟨hheld, hrest⟩
  cases holds with
  | true => exact .pure hheld
  | false =>
    refine (Explorer.nodes_nextNodeWithin _ _ _).bind ?_
    rintro ⟨node, explorer, bound⟩ hnodes
    cases node with
    | none => exact .pure (hnodes ▸ hheld)
    | some s =>
      refine (Explorer.nodes_explore _ _).bind ?_
      rintro ⟨explored, explorer'⟩ hnodes'
      have hlogs : Logs first 0 1 stop explorer'.statistics.nodes :=
        (hnodes'.trans (congrArg Nat.succ hnodes)) ▸ hrest rfl
      cases explored <;> exact .pure hlogs

/-! ### Nodes of probes -/

/-- The nodes at the last poll of a log. Before the first poll it is the root that counts: the node
that is explored after a poll lies below a node that was explored before. -/
def lastNodes : List Poll → Nat
  | [] => 1
  | poll :: _ => poll.statistics.nodes

/-- A node that is explored without a poll, within a stride. -/
theorem Paced.explore {lead stride nodes nodes' : Nat} {polls : List Poll}
    (h : Paced lead stride polls nodes) (hheld : ∀ p ∈ polls.head?, p.held = false)
    (hlead : lead = stride + 1) (hle : nodes ≤ nodes')
    (hnodes : nodes' ≤ lastNodes polls + stride) :
    Paced lead stride polls nodes' := by
  cases polls with
  | nil =>
    have hnodes : nodes' ≤ 1 + stride := hnodes
    show nodes' ≤ lead
    omega
  | cons poll polls =>
    obtain ⟨hlast, -, hpast⟩ := h
    refine ⟨hlast.trans hle, ?_, hpast⟩
    rw [hheld poll rfl]
    exact hnodes

namespace Probe

variable {p : Probe} {base depth : Nat}

/-- A probe is about to explore a node at a depth. Since the last poll it has explored one branch of
the tree down to that depth, or one branch down to a leaf and then a second one from the root. Only
a probe with discrepancies left begins a second branch; it returns to a node of it, unless it has
seen the whole tree. -/
def Descends (p : Probe) (base depth : Nat) : Prop :=
  depth ≤ p.statistics.depth ∧ (p.statistics.nodes + 1 ≤ base + depth ∨
    p.statistics.nodes ≤ base + p.statistics.depth + depth ∧
      (p.stack ≠ [] ∨ 0 < p.discrepancy ∧ p.exhausted = true))

/-- What a probe has explored since the last poll, at which so many nodes were explored. -/
structure Stretch (base : Nat) (p : Probe) : Prop where
  stack : ∀ node ∈ p.stack, node.depth < p.statistics.depth
  current : ∀ node ∈ p.current, p.Descends base node.2.2
  leaf : p.current = none → p.statistics.nodes ≤ base + 2 * p.statistics.depth + 1
  done : p.current = none → p.stack = [] →
    p.statistics.nodes ≤ base + p.statistics.depth ∨ p.exhausted = true

theorem Stretch.nodes_le (h : p.Stretch base) :
    p.statistics.nodes ≤ base + 2 * p.statistics.depth + 1 := by
  cases hcurrent : p.current with
  | none => exact h.leaf hcurrent
  | some node =>
    obtain ⟨hdepth, hnodes⟩ := h.current node hcurrent
    omega

/-- The probe returns to a node on the stack for an alternative below it. -/
theorem of_resume {top : ProbeNode} {rest : List ProbeNode} {node : Space × EdgeInfo × Nat}
    {p' : Probe} (h : p.resume top rest = .ok (node, p')) : node.2.2 = top.depth + 1 ∧
      p'.statistics = p.statistics ∧ p'.current = p.current ∧
      ∀ node' ∈ p'.stack, node'.depth = top.depth ∨ node' ∈ rest := by
  obtain ⟨s, -, h⟩ := Yields.exists_of_bind h
  obtain ⟨edge, -, h⟩ := Yields.exists_of_bind h
  cases h
  refine ⟨rfl, rfl, rfl, fun node' hnode' => ?_⟩
  dsimp only at hnode'
  split at hnode'
  · exact .inr hnode'
  · exact (List.mem_cons.1 hnode').imp_left fun heq => by rw [heq]

theorem explore_law (hstack : ∀ node ∈ p.stack, node.depth < p.statistics.depth)
    (h : p.Descends base depth) (s : Space) (edge : EdgeInfo) :
    ({ p with current := none }.explore s edge depth).Ensures fun r => r.2.Stretch base ∧
      p.statistics.nodes ≤ r.2.statistics.nodes ∧ p.statistics.depth ≤ r.2.statistics.depth := by
  obtain ⟨hdepth, hnodes⟩ := h
  -- A leaf of the tree, or of the part that the discrepancies allow.
  have hleaf (p' : Probe) (hstack' : p'.stack = p.stack) (hcurrent : p'.current = none)
      (hnodes' : p'.statistics.nodes = p.statistics.nodes + 1)
      (hdepth' : p'.statistics.depth = p.statistics.depth)
      (hexhausted : p'.exhausted = p.exhausted) :
      p'.Stretch base ∧ p.statistics.nodes ≤ p'.statistics.nodes ∧
        p.statistics.depth ≤ p'.statistics.depth := by
    refine ⟨⟨by rwa [hstack', hdepth'], by simp [hcurrent], fun _ => by omega, fun _ hnil => ?_⟩,
      by omega, hdepth'.ge⟩
    rw [hstack'] at hnil
    rw [hexhausted]
    exact hnodes.imp (fun hfirst => by omega) fun hsecond =>
      (hsecond.2.resolve_left (absurd hnil)).2
  refine (ensures_statusOf _ _).bind ?_
  rintro ⟨status, s', statistics⟩ ⟨hcounted, hsame⟩
  cases status with
  | failed | solved => exact .pure (hleaf _ rfl rfl hcounted hsame rfl)
  | branch =>
    refine (Ensures.lift fun r hr => Space.two_le_alternatives hr).bind ?_
    rintro ⟨choice, s''⟩ htwo
    refine (Ensures.lift fun p' hp' => ?_).bind fun p' hp' => .pure hp'
    obtain ⟨first, -, hp'⟩ := Yields.exists_of_bind hp'
    obtain ⟨edge', -, hp'⟩ := Yields.exists_of_bind hp'
    cases hp'
    have htwo : 2 ≤ choice.alternatives := htwo
    have hcounted : statistics.nodes = p.statistics.nodes + 1 := hcounted
    have hsame : statistics.depth = p.statistics.depth := hsame
    have hstack' (node : ProbeNode) (hnode : node ∈ p.stack) :
        node.depth < max statistics.depth (depth + 1) :=
      (hsame ▸ hstack node hnode).trans_le (le_max_left _ _)
    refine ⟨⟨?_, ?_, nofun, nofun⟩, by simp [hcounted], by simp [hsame]⟩
    · dsimp only
      split
      · exact hstack'
      · exact List.forall_mem_cons.2
          ⟨Nat.lt_of_lt_of_le (Nat.lt_succ_self depth) (le_max_right _ _), hstack'⟩
    · rintro _ ⟨⟩
      refine ⟨le_max_right _ _, ?_⟩
      dsimp only
      refine hnodes.imp (fun hfirst => by omega) fun hsecond => ⟨by omega, .inl ?_⟩
      split
      · rename_i htaken
        refine hsecond.2.resolve_right fun hspend => ?_
        have hpos := hspend.1
        omega
      · exact List.cons_ne_nil _ _

end Probe

namespace LimitedDiscrepancy

variable {l : LimitedDiscrepancy (Option (Metered σ))} {metered : Metered σ} {s : Space}
  {edge : EdgeInfo} {depth : Nat}

/-- The log of a limited discrepancy search, which began with the log `first`. A search that was
stopped polls before it explores another node. -/
structure Paces (first metered : Metered σ) (l : LimitedDiscrepancy (Option (Metered σ))) :
    Prop where
  stop : l.stop = some metered
  polled : Polled first metered
  paced : Paced (2 * l.probe.statistics.depth + 2) (2 * l.probe.statistics.depth + 1) metered.polls
    l.probe.statistics.nodes
  stretch : l.probe.Stretch (lastNodes metered.polls)
  waits : ∀ p ∈ metered.polls.head?, p.held = true → l.probe.current = none ∧ l.probe.stack ≠ []

theorem Paces.explore_law (h : l.Paces first metered)
    (hheld : ∀ p ∈ metered.polls.head?, p.held = false)
    (hdescends : l.probe.Descends (lastNodes metered.polls) depth) (s : Space) (edge : EdgeInfo) :
    (l.explore s edge depth).Ensures fun r => r.2.Paces first metered := by
  refine (Probe.explore_law h.stretch.stack hdescends s edge).bind ?_
  rintro ⟨solution, probe⟩ ⟨hstretch, hnodes, hdepth⟩
  have hdepth : l.probe.statistics.depth ≤ probe.statistics.depth := hdepth
  have hpaced :
      Paced (2 * probe.statistics.depth + 2) (2 * probe.statistics.depth + 1) metered.polls
      probe.statistics.nodes :=
    (h.paced.mono (by omega) (by omega)).explore hheld rfl hnodes (by
      have := hstretch.nodes_le
      omega)
  have hwaits (p : Poll) (hp : p ∈ metered.polls.head?) (hholds : p.held = true) :
      False := Bool.false_ne_true ((hheld p hp).symm.trans hholds)
  cases solution with
  | none => exact .pure ⟨h.stop, h.polled, hpaced, hstretch, fun p hp hh => (hwaits p hp hh).elim⟩
  | some s =>
    exact .pure ⟨h.stop, h.polled, hpaced, ⟨hstretch.stack, hstretch.current, hstretch.leaf,
      hstretch.done⟩, fun p hp hh => (hwaits p hp hh).elim⟩

theorem Paces.nextProbe_law (h : l.Paces first metered) (hcurrent : l.probe.current = none)
    (hstack : l.probe.stack = []) : l.nextProbe.2.Paces first metered := by
  have hwaits (p : Poll) (hp : p ∈ metered.polls.head?) (hholds : p.held = true) : False :=
    (h.waits p hp hholds).2 hstack
  unfold nextProbe
  split
  · exact h
  · rename_i hmore
    dsimp only
    split
    · exact ⟨h.stop, h.polled, h.paced, h.stretch, h.waits⟩
    · rename_i root _
      refine ⟨h.stop, h.polled, h.paced, ⟨List.forall_mem_nil _, ?_, nofun, nofun⟩,
        fun p hp hh => (hwaits p hp hh).elim⟩
      rintro _ ⟨⟩
      have hfirst := (h.stretch.done hcurrent hstack).resolve_right fun hall => hmore (.inl hall)
      exact ⟨Nat.zero_le _, .inr ⟨hfirst, .inr ⟨Nat.succ_pos _, rfl⟩⟩⟩

/-- A poll: the node that comes next lies below a node on the stack. -/
theorem Paces.poll_law {metered' : Metered σ} {holds : Bool} (h : l.Paces first metered)
    (hcurrent : l.probe.current = none) (hstack : l.probe.stack ≠ [])
    (hpolls : metered'.polls = ⟨l.probe.statistics, holds⟩ :: metered.polls)
    (hpoll : StopCondition.poll metered l.probe.statistics = .ok (holds, metered')) :
    Paces first metered' { l with stop := some metered' } where
  stop := rfl
  polled := h.polled.trans (.poll hpoll (.refl _))
  paced := hpolls ▸ h.paced.poll rfl holds
  stretch := by
    rw [hpolls]
    refine ⟨h.stretch.stack, by simp [hcurrent], fun _ => ?_, fun _ hnil => absurd hnil hstack⟩
    exact (Nat.le_add_right l.probe.statistics.nodes _).trans (Nat.le_succ _)
  waits _ _ _ := ⟨hcurrent, hstack⟩

theorem Paces.resume_law {top : ProbeNode} {rest : List ProbeNode} (h : l.Paces first metered)
    (hheld : ∀ p ∈ metered.polls.head?, p.held = false)
    (hlast : lastNodes metered.polls = l.probe.statistics.nodes)
    (hcurrent : l.probe.current = none) (hstack : l.probe.stack = top :: rest) :
    Ensures (do
      let ((s, edge, depth), probe) ← l.probe.resume top rest
      { l with probe }.explore s edge depth : Journaled _) fun r => r.2.Paces first metered := by
  obtain ⟨htop, hrest⟩ := List.forall_mem_cons.1 (hstack ▸ h.stretch.stack)
  refine (Ensures.lift fun _ hr => Probe.of_resume hr).bind ?_
  rintro ⟨⟨s, edge, depth⟩, probe⟩ ⟨hdepth, hstatistics, hnone, hbelow⟩
  have hdepth : depth = top.depth + 1 := hdepth
  have hstatistics : probe.statistics = l.probe.statistics := hstatistics
  have hnone : probe.current = none := hnone.trans hcurrent
  have hpaces : Paces first metered { l with probe } := by
    refine ⟨h.stop, h.polled, hstatistics ▸ h.paced, ⟨fun node hnode => ?_, by simp [hnone],
      fun _ => ?_, fun _ _ => .inl ?_⟩, fun p hp hholds => ?_⟩
    · rw [hstatistics]
      rcases hbelow node hnode with heq | hmem
      · exact heq ▸ htop
      · exact hrest node hmem
    · rw [hlast, hstatistics]
      omega
    · rw [hlast, hstatistics]
      omega
    · exact absurd ((hheld p hp).symm.trans hholds) Bool.false_ne_true
  refine hpaces.explore_law hheld ⟨?_, .inl ?_⟩ s edge
  · rw [hdepth, hstatistics]
    exact htop
  · rw [hdepth, hlast, hstatistics]
    omega

theorem Paces.step_law (h : l.Paces first metered) :
    l.step.Ensures fun r => ∃ metered', r.2.Paces first metered' := by
  unfold step
  split
  · rename_i s edge depth hcurrent
    have hheld (p : Poll) (hp : p ∈ metered.polls.head?) : p.held = false := by
      by_contra hholds
      have hnone := (h.waits p hp (Bool.of_not_eq_false hholds)).1
      cases hcurrent.symm.trans hnone
    exact (h.explore_law hheld (h.stretch.current _ hcurrent) s edge).mono fun r hr => ⟨metered, hr⟩
  · rename_i hcurrent hstack
    exact .pure ⟨metered, h.nextProbe_law hcurrent hstack⟩
  · rename_i top rest hcurrent hstack
    rw [h.stop]
    refine (Ensures.lift fun _ hr => Metered.exists_of_poll hr).bind ?_
    rintro ⟨holds, _⟩ ⟨metered', rfl, hpolls, hpoll⟩
    have hpaces := h.poll_law hcurrent (hstack ▸ List.cons_ne_nil _ _) hpolls hpoll
    cases holds with
    | true => exact .pure ⟨metered', hpaces⟩
    | false =>
      have hlast : lastNodes metered'.polls = l.probe.statistics.nodes := by
        rw [hpolls]
        rfl
      exact (hpaces.resume_law (by simp [hpolls]) hlast hcurrent hstack).mono fun r hr =>
        ⟨metered', hr⟩

end LimitedDiscrepancy

/-! ### Searches by one worker -/

/-- The nodes that a search can explore before its first poll, if its longest path has a length. -/
def SequentialKind.lead (depth : Nat) : SequentialKind → Nat
  | depthFirst | branchAndBound => 0
  | limitedDiscrepancy => 2 * depth + 2

/-- The nodes that a search can explore between two polls. -/
def SequentialKind.stride (depth : Nat) : SequentialKind → Nat
  | depthFirst | branchAndBound => 1
  | limitedDiscrepancy => 2 * depth + 1

/-! The log does not matter for the steps of a search. -/

theorem poll_forget (stop : Option (Metered σ)) (statistics : Statistics) :
    StopCondition.poll (stop.map Metered.stop) statistics = (do
      let (holds, stop) ← StopCondition.poll stop statistics
      return (holds, stop.map Metered.stop)) := by
  cases stop with
  | none => rfl
  | some metered =>
    rw [Option.map_some, poll_some, poll_some]
    show _ = (do
      let (holds, stop) ← (do
        let (holds, stop) ← (do
          let (holds, stop) ← StopCondition.poll metered.stop statistics
          return (holds, (⟨stop, ⟨statistics, holds⟩ :: metered.polls⟩ : Metered σ)))
        return (holds, some stop))
      return (holds, stop.map Metered.stop))
    simp only [bind_assoc, pure_bind, Option.map_some]

theorem DepthFirst.step_forget (d : DepthFirst (Option (Metered σ))) :
    step { d with stop := d.stop.map Metered.stop } = (do
      let (outcome, d) ← d.step
      return (outcome, { d with stop := d.stop.map Metered.stop })) := by
  simp only [step, poll_forget, Journaled.lift_bind, Journaled.lift_pure, bind_assoc, pure_bind]
  refine bind_congr ?_
  rintro ⟨holds, stop⟩
  cases holds with
  | true => rfl
  | false =>
    simp only [Bool.false_eq_true, if_false, bind_assoc]
    refine bind_congr ?_
    rintro ⟨node, explorer, bound⟩
    cases node with
    | none => rfl
    | some s =>
      simp only [bind_assoc]
      refine bind_congr ?_
      rintro ⟨explored, explorer'⟩
      cases explored <;> rfl

theorem BranchAndBound.step_forget (b : BranchAndBound (Option (Metered σ))) :
    step { b with stop := b.stop.map Metered.stop } = (do
      let (outcome, b) ← b.step
      return (outcome, { b with stop := b.stop.map Metered.stop })) := by
  simp only [step, poll_forget, Journaled.lift_bind, Journaled.lift_pure, bind_assoc, pure_bind]
  refine bind_congr ?_
  rintro ⟨holds, stop⟩
  cases holds with
  | true => rfl
  | false =>
    simp only [Bool.false_eq_true, if_false, bind_assoc]
    refine bind_congr ?_
    rintro ⟨node, explorer, bound⟩
    cases node with
    | none => rfl
    | some s =>
      simp only [bind_assoc]
      refine bind_congr ?_
      rintro ⟨explored, explorer'⟩
      cases explored <;> rfl

theorem LimitedDiscrepancy.step_forget (l : LimitedDiscrepancy (Option (Metered σ))) :
    step { l with stop := l.stop.map Metered.stop } = (do
      let (outcome, l) ← l.step
      return (outcome, { l with stop := l.stop.map Metered.stop })) := by
  have hexplore (l : LimitedDiscrepancy (Option (Metered σ))) (s : Space) (edge : EdgeInfo)
      (depth : Nat) : explore { l with stop := l.stop.map Metered.stop } s edge depth = (do
        let (outcome, l) ← l.explore s edge depth
        return (outcome, { l with stop := l.stop.map Metered.stop })) := by
    simp only [explore, bind_assoc]
    refine bind_congr ?_
    rintro ⟨solution, probe⟩
    cases solution <;> rfl
  obtain ⟨⟨stack, current, remaining, exhausted, statistics, tracing⟩, root, discrepancy, limit,
    stop⟩ := l
  cases current with
  | some node => exact hexplore _ _ _ _
  | none =>
    cases stack with
    | nil =>
      simp only [step, pure_bind, nextProbe]
      split
      · rfl
      · cases root <;> rfl
    | cons top rest =>
      simp only [step, poll_forget, Journaled.lift_bind, Journaled.lift_pure, bind_assoc, pure_bind]
      refine bind_congr ?_
      rintro ⟨holds, stop⟩
      cases holds with
      | true => rfl
      | false =>
        simp only [Bool.false_eq_true, if_false, bind_assoc]
        refine bind_congr ?_
        rintro ⟨⟨s, edge, depth⟩, probe⟩
        exact hexplore ⟨probe, root, discrepancy, limit, stop⟩ s edge depth

/-- The nodes that a search explores at most under a limit. -/
def SequentialKind.nodesWithin (limit depth : Nat) : SequentialKind → Nat
  | depthFirst | branchAndBound => limit
  | limitedDiscrepancy => max 2 limit + 2 * depth

theorem SequentialKind.le_nodesWithin (limit depth : Nat) (kind : SequentialKind) :
    max (kind.lead depth) (if limit = 0 then 0 else limit - 1 + kind.stride depth) ≤
      kind.nodesWithin limit depth := by
  cases kind <;> simp only [lead, stride, nodesWithin] <;> split <;> omega

namespace SequentialSearch

variable {τ ρ : Type}

def kind : SequentialSearch σ → SequentialKind
  | depthFirst _ => .depthFirst
  | branchAndBound _ => .branchAndBound
  | limitedDiscrepancy _ => .limitedDiscrepancy

omit [StopCondition σ] in
theorem kind_start (kind : SequentialKind) (root : Space) (options : SearchOptions τ ρ)
    (stop : Option σ) : (start kind root options stop).Ensures fun e => e.kind = kind := by
  cases kind <;> exact Ensures.trivial.bind fun _ _ => .pure rfl

theorem kind_step (e : SequentialSearch σ) : e.step.Ensures fun r => r.2.kind = e.kind := by
  cases e <;> exact Ensures.trivial.bind fun _ _ => .pure rfl

theorem kind_of_reaches {e e' : SequentialSearch σ} (h : Reaches step e e') : e'.kind = e.kind := by
  induction h with
  | refl => rfl
  | step hstep _ ih => exact ih.trans ((kind_step _).of_returns hstep)

/-- The search without the log of its condition. -/
def forget : SequentialSearch (Metered σ) → SequentialSearch σ
  | depthFirst search => depthFirst { search with stop := search.stop.map Metered.stop }
  | branchAndBound search => branchAndBound { search with stop := search.stop.map Metered.stop }
  | limitedDiscrepancy search =>
      limitedDiscrepancy { search with stop := search.stop.map Metered.stop }

/-- The log of the condition. -/
def polls (e : SequentialSearch (Metered σ)) : List Poll := (e.stop.map Metered.polls).getD []

theorem step_forget (e : SequentialSearch (Metered σ)) : e.forget.step = (do
    let (outcome, e) ← e.step
    return (outcome, e.forget)) := by
  cases e with
  | depthFirst search => simp only [forget, step, search.step_forget, bind_assoc, pure_bind]
  | branchAndBound search => simp only [forget, step, search.step_forget, bind_assoc, pure_bind]
  | limitedDiscrepancy search => simp only [forget, step, search.step_forget, bind_assoc, pure_bind]

/-- What a search can be after any number of steps, it can be with a log. -/
theorem exists_reaches_of_forget {e : SequentialSearch (Metered σ)} {f' : SequentialSearch σ}
    (h : Reaches step e.forget f') : ∃ e', Reaches step e e' ∧ e'.forget = f' := by
  generalize hf : e.forget = f at h
  induction h generalizing e with
  | refl => exact ⟨e, .refl e, hf⟩
  | step hstep _ ih =>
    subst hf
    rw [step_forget] at hstep
    obtain ⟨⟨outcome, e'⟩, hstep', hpure⟩ := Journaled.exists_of_returns_bind hstep
    cases Journaled.of_returns_pure hpure
    obtain ⟨e'', hreaches, hforget⟩ := ih rfl
    exact ⟨e'', .step hstep' hreaches, hforget⟩

omit [StopCondition σ] in
theorem start_forget (kind : SequentialKind) (root : Space) (options : SearchOptions τ ρ)
    (stop : σ) :
    start kind root options (some stop) =
      forget <$> start kind root options (some (Metered.fresh stop)) := by
  rw [start_attach, start_attach]
  cases kind with
  | depthFirst | branchAndBound =>
    simp only [start, DepthFirst.start, BranchAndBound.start, map_bind, map_pure, bind_assoc,
      pure_bind]
    rfl
  | limitedDiscrepancy =>
    simp only [start, LimitedDiscrepancy.start, LimitedDiscrepancy.reset, map_bind, map_pure,
      bind_assoc]
    refine bind_congr ?_
    rintro ⟨status, root, statistics⟩
    split <;> rfl

/-- The log of a search, which began with the log `first`, and where the search is. -/
def Paces (first metered : Metered σ) : SequentialSearch (Metered σ) → Prop
  | depthFirst search => search.stop = some metered ∧ Polled first metered ∧
      Paced 0 1 metered.polls search.explorer.statistics.nodes
  | branchAndBound search => search.stop = some metered ∧ Polled first metered ∧
      Paced 0 1 metered.polls search.explorer.statistics.nodes
  | limitedDiscrepancy search => search.Paces first metered

theorem paces_of_start {kind : SequentialKind} {root : Space} {options : SearchOptions τ ρ}
    {stop : σ} {e : SequentialSearch (Metered σ)}
    (h : (start kind root options (some (Metered.fresh stop))).Returns e) :
    e.Paces (Metered.fresh stop) (Metered.fresh stop) := by
  cases kind with
  | depthFirst | branchAndBound =>
    obtain ⟨search, hsearch, h⟩ := Journaled.exists_of_returns_bind h
    cases Journaled.of_returns_pure h
    obtain ⟨explorer, hexplorer, hsearch⟩ := Journaled.exists_of_returns_bind hsearch
    cases Journaled.of_returns_pure hsearch
    have hnodes : explorer.statistics.nodes = 0 := by
      obtain ⟨⟨status, root', statistics⟩, hstatus, hexplorer⟩ :=
        Journaled.exists_of_returns_bind hexplorer
      have hstatistics := (ensures_statusOf _ _).of_returns hstatus
      dsimp only at hexplorer
      split at hexplorer <;> cases Journaled.of_returns_pure hexplorer <;> exact hstatistics.1
    exact ⟨rfl, .refl _, hnodes.le⟩
  | limitedDiscrepancy =>
    obtain ⟨search, hsearch, h⟩ := Journaled.exists_of_returns_bind h
    cases Journaled.of_returns_pure h
    obtain ⟨⟨status, root', statistics⟩, hstatus, hsearch⟩ :=
      Journaled.exists_of_returns_bind hsearch
    obtain ⟨hnodes, hdepth⟩ := (ensures_statusOf _ _).of_returns hstatus
    have hnodes : statistics.nodes = 0 := hnodes
    dsimp only at hsearch
    split at hsearch <;> cases Journaled.of_returns_pure hsearch
    · exact ⟨rfl, .refl _, hnodes.trans_le (Nat.zero_le _),
        ⟨List.forall_mem_nil _, nofun, fun _ => hnodes.trans_le (Nat.zero_le _),
          fun _ _ => .inl (hnodes.trans_le (Nat.zero_le _))⟩, nofun⟩
    · refine ⟨rfl, .refl _, hnodes.trans_le (Nat.zero_le _),
        ⟨List.forall_mem_nil _, ?_, nofun, nofun⟩, nofun⟩
      rintro _ ⟨⟩
      exact ⟨Nat.zero_le _, .inl (congrArg Nat.succ hnodes).le⟩

theorem Paces.step_law {first metered : Metered σ} {e : SequentialSearch (Metered σ)}
    (h : e.Paces first metered) : e.step.Ensures fun r => ∃ metered', r.2.Paces first metered' := by
  cases e with
  | depthFirst search =>
    refine (DepthFirst.logs_step ⟨metered, h⟩).bind fun r hr => .pure hr
  | branchAndBound search =>
    refine (BranchAndBound.logs_step ⟨metered, h⟩).bind fun r hr => .pure hr
  | limitedDiscrepancy search =>
    exact (LimitedDiscrepancy.Paces.step_law h).bind fun r hr => .pure hr

theorem Paces.of_reaches {first metered : Metered σ} {e e' : SequentialSearch (Metered σ)}
    (h : e.Paces first metered) (hreaches : Reaches step e e') :
    ∃ metered', e'.Paces first metered' := by
  induction hreaches generalizing metered with
  | refl => exact ⟨metered, h⟩
  | step hstep _ ih =>
    obtain ⟨metered', h'⟩ := h.step_law.of_returns hstep
    exact ih h'

theorem Paces.logs {first metered : Metered σ} {e : SequentialSearch (Metered σ)}
    (h : e.Paces first metered) : e.polls = metered.polls ∧ Polled first metered ∧
      Paced (e.kind.lead e.statistics.depth) (e.kind.stride e.statistics.depth) metered.polls
        e.statistics.nodes := by
  unfold polls
  cases e with
  | depthFirst search | branchAndBound search =>
    obtain ⟨hstop, hpolled, hpaced⟩ := h
    exact ⟨congrArg (fun stop => (stop.map Metered.polls).getD []) hstop, hpolled, hpaced⟩
  | limitedDiscrepancy search =>
    exact ⟨congrArg (fun stop => (stop.map Metered.polls).getD [])
      (LimitedDiscrepancy.Paces.stop h),
      LimitedDiscrepancy.Paces.polled h, LimitedDiscrepancy.Paces.paced h⟩

omit [StopCondition σ] in
theorem statistics_forget (e : SequentialSearch (Metered σ)) :
    e.forget.statistics = e.statistics := by
  cases e <;> rfl

/-- **How often a stop condition is polled.** With a log of its polls a search goes the same way.
A depth-first search and a branch and bound explore one node at most between two polls, and none
before the first one; a limited discrepancy search explores two branches at most. If the condition
limits the nodes, the first two explore no more than that, and the third one exceeds the limit by
two branches at most. -/
theorem paced_of_reaches {kind : SequentialKind} {root : Space} {options : SearchOptions τ ρ}
    {stop : σ} {e e' : SequentialSearch σ}
    (hstart : (start kind root options (some stop)).Returns e)
    (hreaches : Reaches step e e') :
    (∃ f f' : SequentialSearch (Metered σ),
      (start kind root options (some (Metered.fresh stop))).Returns f ∧ Reaches step f f' ∧
      f'.forget = e' ∧ Paced (kind.lead e'.statistics.depth) (kind.stride e'.statistics.depth)
        f'.polls e'.statistics.nodes) ∧
    ∀ limit, LimitsNodes limit stop →
      e'.statistics.nodes ≤ kind.nodesWithin limit e'.statistics.depth := by
  rw [start_forget, ← bind_pure_comp] at hstart
  obtain ⟨f, hf, hstart⟩ := Journaled.exists_of_returns_bind hstart
  cases Journaled.of_returns_pure hstart
  obtain ⟨f', hreaches', rfl⟩ := exists_reaches_of_forget hreaches
  obtain ⟨metered, hpaces⟩ := (paces_of_start hf).of_reaches hreaches'
  obtain ⟨hpolls, hpolled, hpaced⟩ := hpaces.logs
  have hkind : f'.kind = kind :=
    (kind_of_reaches hreaches').trans ((kind_start _ _ _ _).of_returns hf)
  rw [hkind] at hpaced
  rw [statistics_forget]
  refine ⟨⟨f, f', hf, hreaches', rfl, hpolls ▸ hpaced⟩, fun limit hlimit => ?_⟩
  exact (hpaced.le_of_limit (hlimit.held hpolled rfl nofun)).trans (kind.le_nodesWithin _ _)

/-- Whether a search under a condition begins and comes to an outcome, with a property that can be
evaluated. -/
def callsTo (kind : SequentialKind) (stop : σ) (steps : Nat) (property : SequentialSearch σ → Bool)
    (s : Space) : Bool :=
  Journaled.check (do
    let e ← start kind s ({} : SearchOptions) (some stop)
    let (_, e') ← searchWithin step steps e
    return e') property

theorem exists_of_callsTo {kind : SequentialKind} {stop : σ} {steps : Nat}
    {property : SequentialSearch σ → Bool} {s : Space}
    (h : callsTo kind stop steps property s = true) :
    ∃ e e', (start kind s ({} : SearchOptions) (some stop)).Returns e ∧ Reaches step e e' ∧
      property e' = true := by
  obtain ⟨e', hreturns, hproperty⟩ := Journaled.exists_of_check h
  obtain ⟨e, hstart, hreturns⟩ := Journaled.exists_of_returns_bind hreturns
  obtain ⟨⟨outcome, e''⟩, hcall, hreturns⟩ := Journaled.exists_of_returns_bind hreturns
  cases Journaled.of_returns_pure hreturns
  exact ⟨e, e', hstart, reaches_of_searchWithin hcall, hproperty⟩

/-- A depth-first search under a limit of three nodes explores three. -/
theorem paced_of_reaches_differing : ∃ s e e', Built .costOrdered differing s ∧
    (start .depthFirst s ({} : SearchOptions) (some (Stop.nodes 3))).Returns e ∧
    Reaches step e e' ∧ e'.statistics.nodes = 3 ∧
    (∃ f f' : SequentialSearch (Metered Stop),
      (start .depthFirst s ({} : SearchOptions) (some (Metered.fresh (Stop.nodes 3)))).Returns f ∧
      Reaches step f f' ∧ f'.forget = e' ∧ Paced 0 1 f'.polls 3) ∧
    e'.statistics.nodes ≤ 3 := by
  have hcheck : buildsTo .costOrdered differing
      (callsTo .depthFirst (Stop.nodes 3) 9 fun e' => e'.statistics.nodes == 3) = true := by
    decide +kernel
  obtain ⟨s, hs, hcalls⟩ := exists_built_of_buildsTo hcheck
  obtain ⟨e, e', hstart, hreaches, hnodes⟩ := exists_of_callsTo hcalls
  have hnodes := beq_iff_eq.1 hnodes
  obtain ⟨hlogs, hlimit⟩ := paced_of_reaches hstart hreaches
  exact ⟨s, e, e', hs, hstart, hreaches, hnodes, hnodes ▸ hlogs, hlimit 3 (Stop.limitsNodes 3)⟩

/-- A limited discrepancy search under a limit of no nodes explores three, and never polls. -/
theorem exists_unpolled_differing : ∃ s e e', Built .costOrdered differing s ∧
    (start .limitedDiscrepancy s ({} : SearchOptions)
      (some (Metered.fresh (Stop.nodes 0)))).Returns e ∧
    Reaches step e e' ∧ e'.polls = [] ∧ e'.statistics.nodes = 3 := by
  have hcheck : buildsTo .costOrdered differing
      (callsTo .limitedDiscrepancy (Metered.fresh (Stop.nodes 0)) 9 fun e' =>
        e'.polls.isEmpty && e'.statistics.nodes == 3) = true := by
    decide +kernel
  obtain ⟨s, hs, hcalls⟩ := exists_built_of_buildsTo hcheck
  obtain ⟨e, e', hstart, hreaches, hproperty⟩ := exists_of_callsTo hcalls
  rw [Bool.and_eq_true, List.isEmpty_iff, beq_iff_eq] at hproperty
  exact ⟨s, e, e', hs, hstart, hreaches, hproperty⟩

end SequentialSearch

end ConstraintSearch
