import ConstraintSearch.Proofs.Search.SpaceTree

/-!
# Limited discrepancy search enumerates by discrepancies

The cost of a node is the sum of the numbers of the alternatives on its path. Probe number `d`
reports the solved leaves of cost `d`, and it notices whether there are nodes of a greater cost.

* `Proceeds`, `Ends`: the steps of a search, with the solutions on the way;
* `Space.LeavesByCost`: the solved leaves in a range of costs, each once, in the order of their
  costs;
* `LimitedDiscrepancy.Explorable`: what a probe makes of a subtree. It leaves the stack and the
  discrepancies that are left as they were;
* `Space.HasTree.limitedDiscrepancy_exact`: all probes together.
-/

namespace ConstraintSearch

/-! ### Steps without faults -/

section Steps

variable {ε : Type} {step : ε → Journaled (Option Outcome × ε)} {e e' e'' : ε}
  {found found' : List Space} {s : Space}

/-- One or more steps, with the solutions on the way. -/
inductive Proceeds (step : ε → Journaled (Option Outcome × ε)) : ε → List Space → ε → Prop
  | quiet {e e' : ε} (h : (step e).Always (none, e')) : Proceeds step e [] e'
  | found {e e' : ε} {s : Space} (h : (step e).Always (some (.solution s), e')) :
      Proceeds step e [s] e'
  | trans {e e' e'' : ε} {found found' : List Space} (h : Proceeds step e found e')
      (h' : Proceeds step e' found' e'') : Proceeds step e (found ++ found') e''

/-- Steps up to the end of the tree, with the solutions on the way. -/
inductive Ends (step : ε → Journaled (Option Outcome × ε)) : ε → List Space → ε → Prop
  | exhausted {e e' : ε} (h : (step e).Always (some .exhausted, e')) : Ends step e [] e'
  | quiet {e e' e'' : ε} {found : List Space} (h : (step e).Always (none, e'))
      (hrest : Ends step e' found e'') : Ends step e found e''
  | found {e e' e'' : ε} {s : Space} {found : List Space}
      (h : (step e).Always (some (.solution s), e')) (hrest : Ends step e' found e'') :
      Ends step e (s :: found) e''

/-- Only the first step depends on where the search begins. -/
theorem Proceeds.of_step_eq (h : Proceeds step e' found e'') (heq : step e = step e') :
    Proceeds step e found e'' := by
  induction h with
  | quiet h => exact .quiet (heq ▸ h)
  | found h => exact .found (heq ▸ h)
  | trans _ h' ih _ => exact .trans (ih heq) h'

theorem Proceeds.ends (h : Proceeds step e found e') (h' : Ends step e' found' e'') :
    Ends step e (found ++ found') e'' := by
  induction h generalizing found' with
  | quiet h => exact .quiet h h'
  | found h => exact .found h h'
  | trans _ _ ih ih' =>
    rw [List.append_assoc]
    exact ih (ih' h')

/-- What the next call comes to. -/
theorem Ends.next (h : Ends step e found e'') : ∃ n, match found with
    | [] => ∀ steps > n, (searchWithin step steps e).Always (.exhausted, e'')
    | s :: found => ∃ e', Ends step e' found e'' ∧
        ∀ steps > n, (searchWithin step steps e).Always (.solution s, e') := by
  have hsucc {steps : Nat} (hlt : 0 < steps) : ∃ n, steps = n + 1 := ⟨steps - 1, by omega⟩
  induction h with
  | exhausted h =>
    refine ⟨0, fun steps hsteps => ?_⟩
    obtain ⟨m, rfl⟩ := hsucc hsteps
    exact h.bind .pure
  | found h hrest =>
    refine ⟨0, _, hrest, fun steps hsteps => ?_⟩
    obtain ⟨m, rfl⟩ := hsucc hsteps
    exact h.bind .pure
  | @quiet e e' e'' found h _ ih =>
    obtain ⟨n, ih⟩ := ih
    refine ⟨n + 1, ?_⟩
    cases found with
    | nil =>
      intro steps hsteps
      obtain ⟨m, rfl⟩ := hsucc (by omega : 0 < steps)
      exact h.bind (ih m (by omega))
    | cons s found =>
      obtain ⟨e₁, hends, ih⟩ := ih
      refine ⟨e₁, hends, fun steps hsteps => ?_⟩
      obtain ⟨m, rfl⟩ := hsucc (by omega : 0 < steps)
      exact h.bind (ih m (by omega))

end Steps

variable {σ ρ : Type} [StopCondition σ] [CutoffSequence ρ]

namespace Engine

variable {e : Engine σ ρ} {search' : Search σ ρ} {found : List Space}

/-- An engine whose search ends finds its solutions, and then nothing. -/
theorem take_of_ends (h : Ends Search.step e.search found search') :
    ∃ n, ∀ steps > n, ∀ count > n, (e.take steps count).Always
      (found, true, { e with search := search', hasStopped := false }) := by
  induction found generalizing e with
  | nil =>
    obtain ⟨n, hnext⟩ := h.next
    refine ⟨n, fun steps hsteps count hcount => ?_⟩
    obtain ⟨m, rfl⟩ : ∃ m, count = m + 1 := ⟨count - 1, by omega⟩
    have hnone : (e.next steps).Always
        (none, { e with search := search', hasStopped := false }) :=
      (hnext steps hsteps).bind .pure
    exact hnone.bind .pure
  | cons s found ih =>
    obtain ⟨n, search₁, hends, hnext⟩ := h.next
    obtain ⟨m, htake⟩ := ih (e := { e with search := search₁, hasStopped := false }) hends
    refine ⟨max n m + 1, fun steps hsteps count hcount => ?_⟩
    obtain ⟨k, rfl⟩ : ∃ k, count = k + 1 := ⟨count - 1, by omega⟩
    have hsome : (e.next steps).Always
        (some s, { e with search := search₁, hasStopped := false }) :=
      (hnext steps (by omega)).bind .pure
    exact hsome.bind ((htake steps (by omega) k (by omega)).bind .pure)

end Engine

/-! ### Leaves and their costs -/

namespace Space

variable {s s₁ s₂ : Space} {c : Choice} {child : Nat → Space} {low middle high : Nat}
  {leaves leaves' : List (List Nat × Space)}

/-- The solved leaves with a cost from `low` to `high`, each once, in the order of their costs. -/
structure LeavesByCost (s : Space) (low high : Nat) (leaves : List (List Nat × Space)) : Prop where
  nodup : (leaves.map Prod.fst).Nodup
  mem_iff : ∀ path leaf, (path, leaf) ∈ leaves ↔
    s.Reaches path (.solved, leaf) ∧ low ≤ path.sum ∧ path.sum ≤ high
  sorted : leaves.Pairwise fun a b => a.1.sum ≤ b.1.sum

/-- No node of the tree costs more. -/
def CostsAtMost (s : Space) (limit : Nat) : Prop := ∀ path r, s.Reaches path r → path.sum ≤ limit

/-- The alternatives of every choice have a description. -/
def Described (s : Space) : Prop :=
  ∀ path s₁ c s₂, s.Reaches path (.branch, s₁) → s₁.choice = .ok (c, s₂) →
    ∀ i < c.alternatives, ∃ text, c.describe i = .ok text

theorem HasTree.exists_status (h : s.HasTree) : ∃ r, s.status.Returns r := by
  cases h with
  | leaf h => exact ⟨_, h⟩
  | branch h => exact ⟨_, h⟩

/-- Leaves of one cost are in order. -/
theorem LeavesByCost.of_cost {cost : Nat} (hnodup : (leaves.map Prod.fst).Nodup)
    (hmem : ∀ path leaf, (path, leaf) ∈ leaves ↔
      s.Reaches path (.solved, leaf) ∧ path.sum = cost) : s.LeavesByCost cost cost leaves where
  nodup := hnodup
  mem_iff path leaf := by
    rw [hmem]
    exact and_congr_right fun _ => ⟨fun h => ⟨h.ge, h.le⟩, fun h => le_antisymm h.2 h.1⟩
  sorted := by
    refine List.pairwise_of_forall_mem_list fun a ha b hb => ?_
    rw [((hmem a.1 a.2).1 ha).2, ((hmem b.1 b.2).1 hb).2]

theorem LeavesByCost.append (h : s.LeavesByCost low middle leaves)
    (h' : s.LeavesByCost (middle + 1) high leaves') (hle : low ≤ middle + 1)
    (hle' : middle ≤ high) :
    s.LeavesByCost low high (leaves ++ leaves') where
  nodup := by
    rw [List.map_append, List.nodup_append]
    refine ⟨h.nodup, h'.nodup, fun path hpath path' hpath' => ?_⟩
    obtain ⟨⟨_, leaf⟩, hmem, rfl⟩ := List.mem_map.1 hpath
    obtain ⟨⟨_, leaf'⟩, hmem', rfl⟩ := List.mem_map.1 hpath'
    rintro rfl
    have := ((h.mem_iff _ leaf).1 hmem).2.2
    have := ((h'.mem_iff _ leaf').1 hmem').2.1
    dsimp only at *
    omega
  mem_iff path leaf := by
    rw [List.mem_append, h.mem_iff, h'.mem_iff, ← and_or_left]
    exact and_congr_right fun _ => by omega
  sorted := by
    refine List.pairwise_append.2 ⟨h.sorted, h'.sorted, fun a ha b hb => ?_⟩
    have := ((h.mem_iff a.1 a.2).1 ha).2.2
    have := ((h'.mem_iff b.1 b.2).1 hb).2.1
    omega

/-- If nothing costs more than `low`, a range of costs may as well end there. -/
theorem LeavesByCost.of_costsAtMost (h : s.LeavesByCost low low leaves) (hcosts : s.CostsAtMost low)
    (hle : low ≤ high) : s.LeavesByCost low high leaves where
  nodup := h.nodup
  mem_iff path leaf := by
    rw [h.mem_iff]
    refine and_congr_right fun hreaches => and_congr_right fun _ => ?_
    have := hcosts path _ hreaches
    omega
  sorted := h.sorted

/-! The alternatives of a node. -/

/-- The solved leaves of cost `cost` below the alternatives with numbers less than `bound`, and
whether no node below these alternatives costs more. -/
structure Covers (child : Nat → Space) (bound cost : Nat) (leaves : List (List Nat × Space))
    (whole : Bool) : Prop where
  nodup : (leaves.map Prod.fst).Nodup
  mem_iff : ∀ path leaf, (path, leaf) ∈ leaves ↔ ∃ i < bound, ∃ rest, path = i :: rest ∧
    (child i).Reaches rest (.solved, leaf) ∧ i + rest.sum = cost
  whole_iff : whole = true ↔ ∀ i < bound, (child i).CostsAtMost (cost - i)

theorem Covers.zero (child : Nat → Space) (cost : Nat) : Covers child 0 cost [] true where
  nodup := List.nodup_nil
  mem_iff path leaf := by simp
  whole_iff := by simp

theorem Covers.succ {bound cost : Nat} {whole whole' : Bool} (hle : bound ≤ cost)
    (h : (child bound).LeavesByCost (cost - bound) (cost - bound) leaves)
    (hwhole : whole = true ↔ (child bound).CostsAtMost (cost - bound))
    (h' : Covers child bound cost leaves' whole') :
    Covers child (bound + 1) cost
      (leaves.map (fun leaf => (bound :: leaf.1, leaf.2)) ++ leaves') (whole && whole') where
  nodup := by
    rw [List.map_append, List.map_map, List.nodup_append]
    refine ⟨?_, h'.nodup, fun path hpath path' hpath' => ?_⟩
    · rw [show Prod.fst ∘ (fun leaf : List Nat × Space => (bound :: leaf.1, leaf.2)) =
        (bound :: ·) ∘ Prod.fst from rfl, ← List.map_map]
      exact h.nodup.map (List.cons_injective)
    · obtain ⟨leaf, -, rfl⟩ := List.mem_map.1 hpath
      obtain ⟨leaf', hmem', rfl⟩ := List.mem_map.1 hpath'
      obtain ⟨i, hi, rest, heq, -⟩ := (h'.mem_iff leaf'.1 leaf'.2).1 hmem'
      rw [heq]
      rintro hcons
      obtain ⟨rfl, -⟩ := List.cons.inj hcons
      exact absurd hi (lt_irrefl _)
  mem_iff path leaf := by
    rw [List.mem_append, h'.mem_iff, List.mem_map]
    constructor
    · rintro (⟨⟨rest, leaf'⟩, hmem, heq⟩ | ⟨i, hi, hrest⟩)
      · cases heq
        obtain ⟨hreaches, hlow, hhigh⟩ := (h.mem_iff rest leaf').1 hmem
        exact ⟨bound, Nat.lt_succ_self bound, rest, rfl, hreaches, by omega⟩
      · exact ⟨i, Nat.lt_succ_of_lt hi, hrest⟩
    · rintro ⟨i, hi, rest, rfl, hreaches, hcost⟩
      rcases Nat.lt_succ_iff_lt_or_eq.1 hi with hi | rfl
      · exact .inr ⟨i, hi, rest, rfl, hreaches, hcost⟩
      · exact .inl ⟨(rest, leaf), (h.mem_iff rest leaf).2 ⟨hreaches, by omega⟩, rfl⟩
  whole_iff := by
    rw [Bool.and_eq_true, hwhole, h'.whole_iff, Nat.forall_lt_succ_right, and_comm]

section Node

variable {d : Nat} {whole : Bool} (hstatus : s.status.Returns (.branch, s₁))
  (hchoice : s₁.choice = .ok (c, s₂))
  (hcommit : ∀ i < c.alternatives, s₂.commit c i = .ok (child i))

include hstatus hchoice hcommit

/-- The leaves of a node are those below its alternatives. -/
theorem Covers.leavesByCost (h : Covers child (min d (c.alternatives - 1) + 1) d leaves whole) :
    s.LeavesByCost d d leaves := by
  have htwo := two_le_alternatives hchoice
  refine .of_cost h.nodup fun path leaf => ?_
  rw [h.mem_iff]
  constructor
  · rintro ⟨i, hi, rest, rfl, hreaches, hcost⟩
    have hi : i < c.alternatives := by omega
    exact ⟨(reaches_cons hstatus hchoice hi (hcommit i hi)).2 hreaches, hcost⟩
  · rintro ⟨hreaches, hcost⟩
    cases path with
    | nil => cases (reaches_nil hstatus).1 hreaches
    | cons i rest =>
      rw [List.sum_cons] at hcost
      have hi := lt_of_reaches_cons hstatus hchoice hreaches
      exact ⟨i, by omega, rest, rfl,
        (reaches_cons hstatus hchoice hi (hcommit i hi)).1 hreaches, hcost⟩

/-- A node has no nodes of a greater cost below it if there are discrepancies enough for its last
alternative, and the nodes below the alternatives cost no more. -/
theorem Covers.costsAtMost_iff (htree : ∀ i < c.alternatives, (child i).HasTree)
    (h : Covers child (min d (c.alternatives - 1) + 1) d leaves whole) :
    (decide (c.alternatives - 1 ≤ d) && whole) = true ↔ s.CostsAtMost d := by
  have htwo := two_le_alternatives hchoice
  rw [Bool.and_eq_true, decide_eq_true_eq, h.whole_iff]
  constructor
  · rintro ⟨hle, hchildren⟩ path r hreaches
    cases path with
    | nil => exact Nat.zero_le d
    | cons i rest =>
      have hi := lt_of_reaches_cons hstatus hchoice hreaches
      have hcost := hchildren i (by omega) rest r
        ((reaches_cons hstatus hchoice hi (hcommit i hi)).1 hreaches)
      rw [List.sum_cons]
      omega
  · intro hcosts
    have hbelow (i : Nat) (hi : i < c.alternatives) (rest : List Nat) (r : SpaceStatus × Space)
        (hreaches : (child i).Reaches rest r) : i + rest.sum ≤ d :=
      hcosts (i :: rest) r ((reaches_cons hstatus hchoice hi (hcommit i hi)).2 hreaches)
    constructor
    · have hlast : c.alternatives - 1 < c.alternatives := by omega
      obtain ⟨r, hr⟩ := (htree _ hlast).exists_status
      simpa using hbelow _ hlast [] r (.root hr)
    · intro i hi rest r hreaches
      have := hbelow i (by omega) rest r hreaches
      omega

end Node

end Space

/-! ### One node -/

namespace Tracing

variable {t : Tracing} {c : Choice} {alternative : Nat}

theorem isActive_node (t : Tracing) (edge : EdgeInfo) (id : NodeId) (kind : NodeKind) :
    (t.node edge id kind).isActive = t.isActive := by
  simp [node, record, isActive]

theorem isActive_round (t : Tracing) : t.round.isActive = t.isActive := by
  simp [round, record, isActive]

theorem exists_edge (parent : NodeId)
    (h : t.isActive = true → ∃ text, c.describe alternative = .ok text) :
    ∃ edge, t.edge parent c alternative = .ok edge := by
  unfold edge
  split
  · rename_i hactive
    obtain ⟨text, htext⟩ := h hactive
    exact ⟨_, by rw [EdgeInfo.ofChoice, htext]; rfl⟩
  · exact ⟨_, rfl⟩

end Tracing

theorem always_statusOf {s s' : Space} {status : SpaceStatus} (statistics : Statistics)
    (h : s.status.Returns (status, s')) :
    ∃ statistics', (statusOf s statistics).Always (status, s', statistics') :=
  ⟨_, (s.steady_status.always h).bind .pure⟩

namespace Probe

variable (p : Probe) (edge : EdgeInfo) (depth : Nat) {s s₁ s₂ s₃ : Space} {c : Choice}

/-- The probe `q` differs from `p` in its counters and events at most. -/
structure Agrees (p q : Probe) : Prop where
  stack : q.stack = p.stack
  current : q.current = p.current
  discrepancy : q.discrepancy = p.discrepancy
  exhausted : q.exhausted = p.exhausted
  active : q.tracing.isActive = p.tracing.isActive

theorem explore_failed (h : s.status.Returns (.failed, s₁)) :
    ∃ q, p.Agrees q ∧ (p.explore s edge depth).Always (none, q) := by
  obtain ⟨statistics, hstatus⟩ := always_statusOf _ h
  exact ⟨{ p with
    tracing := p.tracing.nextNode.2.node edge p.tracing.nextNode.1 .failed
    statistics := { statistics with fails := statistics.fails + 1 } },
    ⟨rfl, rfl, rfl, rfl, Tracing.isActive_node ..⟩, hstatus.bind .pure⟩

theorem explore_solved (h : s.status.Returns (.solved, s₁)) :
    ∃ q, p.Agrees q ∧
      (p.explore s edge depth).Always (if p.discrepancy = 0 then some s₁ else none, q) := by
  obtain ⟨statistics, hstatus⟩ := always_statusOf _ h
  exact ⟨{ p with
    tracing := p.tracing.nextNode.2.node edge p.tracing.nextNode.1 .solved
    statistics }, ⟨rfl, rfl, rfl, rfl, Tracing.isActive_node ..⟩, hstatus.bind .pure⟩

/-- A node is split at as many discrepancies as it has alternatives for. -/
theorem explore_branch (h : s.status.Returns (.branch, s₁)) (hchoice : s₁.choice = .ok (c, s₂))
    (hcommit : s₂.commit c (min p.discrepancy (c.alternatives - 1)) = .ok s₃)
    (htraced : p.tracing.isActive = true → ∀ i < c.alternatives, ∃ text, c.describe i = .ok text) :
    ∃ q id edge', p.Agrees q ∧ (p.explore s edge depth).Always (none, { q with
      exhausted := p.exhausted && c.alternatives - 1 ≤ p.discrepancy
      stack := if min p.discrepancy (c.alternatives - 1) = 0 then p.stack
        else ⟨s₂, c, min p.discrepancy (c.alternatives - 1) - 1, id, depth⟩ :: p.stack
      discrepancy := p.discrepancy - min p.discrepancy (c.alternatives - 1)
      current := some (s₃, edge', depth + 1) }) := by
  have htwo := Space.two_le_alternatives hchoice
  obtain ⟨statistics, hstatus⟩ :=
    always_statusOf { p.statistics with nodes := p.statistics.nodes + 1 } h
  let id := p.tracing.nextNode.1
  let q : Probe := { p with
    tracing := p.tracing.nextNode.2.node edge id (.branch c.alternatives)
    statistics := { statistics with depth := max statistics.depth (depth + 1) } }
  have hactive : q.tracing.isActive = p.tracing.isActive := Tracing.isActive_node ..
  obtain ⟨edge', hedge⟩ := Tracing.exists_edge id fun htracing =>
    htraced (hactive ▸ htracing) (min p.discrepancy (c.alternatives - 1)) (by omega)
  refine ⟨q, id, edge', ⟨rfl, rfl, rfl, rfl, hactive⟩, hstatus.bind ?_⟩
  refine (Journaled.Always.lift hchoice).bind ?_
  have hsplit : q.split s₂ c id depth = .ok { q with
      exhausted := p.exhausted && c.alternatives - 1 ≤ p.discrepancy
      stack := if min p.discrepancy (c.alternatives - 1) = 0 then p.stack
        else ⟨s₂, c, min p.discrepancy (c.alternatives - 1) - 1, id, depth⟩ :: p.stack
      discrepancy := p.discrepancy - min p.discrepancy (c.alternatives - 1)
      current := some (s₃, edge', depth + 1) } := by
    unfold split
    dsimp only [q]
    rw [hcommit, hedge]
    rfl
  exact (Journaled.Always.lift hsplit).bind .pure

end Probe

namespace LimitedDiscrepancy

variable {l l' : LimitedDiscrepancy (Option σ)} {s s₁ : Space} {edge : EdgeInfo} {depth : Nat}
  {whole : Bool}

/-- A subtree has been explored; `whole` says whether nothing in it was left out. -/
structure Passes (l l' : LimitedDiscrepancy (Option σ)) (whole : Bool) : Prop where
  current : l'.probe.current = none
  stack : l'.probe.stack = l.probe.stack
  remaining : l'.probe.discrepancy = l.probe.discrepancy
  exhausted : l'.probe.exhausted = (l.probe.exhausted && whole)
  active : l'.probe.tracing.isActive = l.probe.tracing.isActive
  root : l'.root = l.root
  discrepancy : l'.discrepancy = l.discrepancy
  limit : l'.limit = l.limit
  stop : l'.stop = l.stop

/-- Exploring the subtree of a space with some discrepancies left to spend finds the solved leaves
of that cost, and notices whether there are nodes of a greater cost. -/
def Explorable (σ : Type) [StopCondition σ] (s : Space) : Prop :=
  ∀ (l : LimitedDiscrepancy (Option σ)) (edge : EdgeInfo) (depth : Nat), l.stop = none →
    l.probe.current = some (s, edge, depth) → (l.probe.tracing.isActive = true → s.Described) →
    ∃ leaves whole l', s.LeavesByCost l.probe.discrepancy l.probe.discrepancy leaves ∧
      (whole = true ↔ s.CostsAtMost l.probe.discrepancy) ∧
      Proceeds step l (leaves.map Prod.snd) l' ∧ l.Passes l' whole

theorem step_of_current (h : l.probe.current = some (s, edge, depth)) :
    l.step = l.explore s edge depth := by
  unfold step
  rw [h]

/-- To return to a node is to explore its next alternative. -/
theorem step_of_stack {top : ProbeNode} {rest : List ProbeNode} (hstop : l.stop = none)
    (hcurrent : l.probe.current = none) (hstack : l.probe.stack = top :: rest)
    (hcommit : top.space.commit top.choice top.alternative = .ok s)
    (hedge : l.probe.tracing.edge top.id top.choice top.alternative = .ok edge) :
    l.step = step { l with probe := { l.probe with
      stack := if top.alternative = 0 then rest
        else { top with alternative := top.alternative - 1 } :: rest
      discrepancy := l.probe.discrepancy + 1
      current := some (s, edge, top.depth + 1) } } := by
  obtain ⟨⟨stack, current, remaining, exhausted, statistics, tracing⟩, root, discrepancy, limit,
    stop⟩ := l
  cases hstop
  cases hcurrent
  cases hstack
  have hresume : Probe.resume ⟨top :: rest, none, remaining, exhausted, statistics, tracing⟩ top
      rest = .ok ((s, edge, top.depth + 1), ⟨if top.alternative = 0 then rest
        else { top with alternative := top.alternative - 1 } :: rest, none, remaining + 1,
          exhausted, statistics, tracing⟩) := by
    unfold Probe.resume
    rw [hcommit]
    dsimp only at hedge
    rw [hedge]
    rfl
  refine Eq.trans ?_ (step_of_current rfl).symm
  show ((liftM (Probe.resume _ top rest) : Journaled _) >>= _) = _
  rw [hresume]
  rfl

omit [StopCondition σ] in
/-- A leaf has been explored. -/
theorem passes_of_agrees {q : Probe}
    (h : Probe.Agrees { l.probe with current := none } q) : l.Passes { l with probe := q } true :=
  ⟨h.current, h.stack, h.discrepancy, by simp [h.exhausted], h.active, rfl, rfl, rfl, rfl⟩

theorem costsAtMost_of_leaf {status : SpaceStatus} (h : s.status.Returns (status, s₁))
    (hleaf : status ≠ .branch) (d : Nat) : s.CostsAtMost d := by
  intro path r hr
  obtain ⟨rfl, -⟩ := (Space.reaches_of_leaf h hleaf).1 hr
  exact Nat.zero_le d

theorem explorable_failed (h : s.status.Returns (.failed, s₁)) : Explorable σ s := by
  intro l edge depth hstop hcurrent _
  obtain ⟨q, hagrees, hexplore⟩ :=
    Probe.explore_failed { l.probe with current := none } edge depth h
  refine ⟨[], true, { l with probe := q }, .of_cost List.nodup_nil fun path leaf => ?_,
    iff_of_true rfl (costsAtMost_of_leaf h nofun _), .quiet ?_, passes_of_agrees hagrees⟩
  · rw [Space.reaches_of_leaf h nofun]
    simp
  · rw [step_of_current hcurrent]
    exact hexplore.bind .pure

/-- A solution that is met with discrepancies left over is not reported. -/
theorem explorable_solved (h : s.status.Returns (.solved, s₁)) : Explorable σ s := by
  intro l edge depth hstop hcurrent _
  obtain ⟨q, hagrees, hexplore⟩ :=
    Probe.explore_solved { l.probe with current := none } edge depth h
  have hcosts := costsAtMost_of_leaf h nofun l.probe.discrepancy
  by_cases hzero : l.probe.discrepancy = 0
  · rw [if_pos hzero] at hexplore
    refine ⟨[([], s₁)], true, { l with probe := { q with statistics :=
      { q.statistics with solutions := q.statistics.solutions + 1 } } },
      .of_cost (by simp) fun path leaf => ?_, iff_of_true rfl hcosts, .found ?_,
      passes_of_agrees ⟨hagrees.stack, hagrees.current, hagrees.discrepancy, hagrees.exhausted,
        hagrees.active⟩⟩
    · rw [Space.reaches_of_leaf h nofun, hzero, List.mem_singleton]
      constructor
      · rintro ⟨⟩
        exact ⟨⟨rfl, rfl⟩, rfl⟩
      · rintro ⟨⟨rfl, ⟨⟩⟩, -⟩
        rfl
    · rw [step_of_current hcurrent]
      exact hexplore.bind .pure
  · rw [if_neg hzero] at hexplore
    refine ⟨[], true, { l with probe := q }, .of_cost List.nodup_nil fun path leaf => ?_,
      iff_of_true rfl hcosts, .quiet ?_, passes_of_agrees hagrees⟩
    · rw [Space.reaches_of_leaf h nofun]
      refine iff_of_false List.not_mem_nil ?_
      rintro ⟨⟨rfl, -⟩, hcost⟩
      exact hzero hcost.symm
    · rw [step_of_current hcurrent]
      exact hexplore.bind .pure

/-- Exploring the alternatives of a node from the one with number `i` down to the first one. -/
theorem alternatives_law {s₂ : Space} {c : Choice} {child : Nat → Space} {rest : List ProbeNode}
    {id : NodeId} {d : Nat}
    (hcommit : ∀ i < c.alternatives, s₂.commit c i = .ok (child i))
    (hexplorable : ∀ i < c.alternatives, Explorable σ (child i))
    {i : Nat} (hi : i < c.alternatives) (hle : i ≤ d) (hstop : l.stop = none)
    (hcurrent : l.probe.current = some (child i, edge, depth + 1))
    (hstack : l.probe.stack = if i = 0 then rest else ⟨s₂, c, i - 1, id, depth⟩ :: rest)
    (hremaining : l.probe.discrepancy = d - i)
    (htraced : l.probe.tracing.isActive = true → (∀ i < c.alternatives, (child i).Described) ∧
      ∀ i < c.alternatives, ∃ text, c.describe i = .ok text) :
    ∃ leaves whole l', Space.Covers child (i + 1) d leaves whole ∧
      Proceeds step l (leaves.map Prod.snd) l' ∧
      Passes { l with probe := { l.probe with stack := rest, discrepancy := d } } l' whole := by
  have hmap (i : Nat) (leaves : List (List Nat × Space)) :
      (leaves.map fun leaf => (i :: leaf.1, leaf.2)).map Prod.snd = leaves.map Prod.snd := by
    rw [List.map_map]
    rfl
  induction i generalizing l edge with
  | zero =>
    obtain ⟨leaves, whole, l', hleaves, hwhole, hproceeds, hpasses⟩ :=
      hexplorable 0 hi l edge (depth + 1) hstop hcurrent fun h => (htraced h).1 0 hi
    rw [hremaining] at hleaves hwhole
    refine ⟨_, _, l', (Space.Covers.zero child d).succ (Nat.zero_le d) hleaves hwhole, ?_, ?_⟩
    · rw [List.append_nil, hmap]
      exact hproceeds
    · rw [Bool.and_true]
      exact ⟨hpasses.current, hpasses.stack.trans hstack, hpasses.remaining.trans hremaining,
        hpasses.exhausted, hpasses.active, hpasses.root, hpasses.discrepancy, hpasses.limit,
        hpasses.stop⟩
  | succ i ih =>
    obtain ⟨leaves, whole, l₁, hleaves, hwhole, hproceeds, hpasses⟩ :=
      hexplorable (i + 1) hi l edge (depth + 1) hstop hcurrent fun h => (htraced h).1 (i + 1) hi
    rw [hremaining] at hleaves hwhole
    have hi' : i < c.alternatives := by omega
    have hactive := hpasses.active
    obtain ⟨edge', hedge⟩ := Tracing.exists_edge id fun h => (htraced (hactive ▸ h)).2 i hi'
    have hresume := step_of_stack (hpasses.stop.trans hstop) hpasses.current
      (hpasses.stack.trans hstack) (hcommit i hi') hedge
    have hremaining₁ : l₁.probe.discrepancy + 1 = d - i := by
      rw [hpasses.remaining, hremaining]
      omega
    let l₂ := { l₁ with probe := { l₁.probe with
      stack := if i = 0 then rest else ⟨s₂, c, i - 1, id, depth⟩ :: rest
      discrepancy := l₁.probe.discrepancy + 1
      current := some (child i, edge', depth + 1) } }
    obtain ⟨leaves', whole', l', hcovers, hproceeds', hpasses'⟩ := ih (l := l₂) hi' (by omega)
      (hpasses.stop.trans hstop) rfl rfl hremaining₁ fun h => htraced (hactive ▸ h)
    refine ⟨_, _, l', hcovers.succ hle hleaves hwhole, ?_, ?_⟩
    · rw [List.map_append, hmap]
      exact hproceeds.trans (hproceeds'.of_step_eq hresume)
    · exact ⟨hpasses'.current, hpasses'.stack, hpasses'.remaining,
        by rw [hpasses'.exhausted, ← Bool.and_assoc, ← hpasses.exhausted],
        hpasses'.active.trans hpasses.active, hpasses'.root.trans hpasses.root,
        hpasses'.discrepancy.trans hpasses.discrepancy, hpasses'.limit.trans hpasses.limit,
        hpasses'.stop.trans hpasses.stop⟩

/-- What a probe makes of any finite tree. -/
theorem explorable (h : s.HasTree) : Explorable σ s := by
  induction h with
  | @leaf s s₁ status h hleaf =>
    cases status with
    | failed => exact explorable_failed h
    | solved => exact explorable_solved h
    | branch => exact absurd rfl hleaf
  | @branch s s₁ s₂ c child h hchoice hcommit htree ih =>
    intro l edge depth hstop hcurrent htraced
    have htwo := Space.two_le_alternatives hchoice
    have htaken : min l.probe.discrepancy (c.alternatives - 1) < c.alternatives := by omega
    have hdescribed (hactive : l.probe.tracing.isActive = true) :
        (∀ i < c.alternatives, (child i).Described) ∧
          ∀ i < c.alternatives, ∃ text, c.describe i = .ok text :=
      ⟨fun i hi path s' c' s'' hr =>
        htraced hactive (i :: path) s' c' s'' (.child h hchoice hi (hcommit i hi) hr),
        htraced hactive [] s₁ c s₂ (.root h) hchoice⟩
    obtain ⟨q, id, edge', hagrees, hexplore⟩ := Probe.explore_branch
      { l.probe with current := none } edge depth h hchoice (hcommit _ htaken)
      fun hactive => (hdescribed hactive).2
    dsimp only at hexplore
    have hactive := hagrees.active
    -- The node has been split, and its last affordable alternative comes next.
    let l₁ := { l with probe := { q with
      exhausted := l.probe.exhausted && c.alternatives - 1 ≤ l.probe.discrepancy
      stack := if min l.probe.discrepancy (c.alternatives - 1) = 0 then l.probe.stack
        else ⟨s₂, c, min l.probe.discrepancy (c.alternatives - 1) - 1, id, depth⟩ :: l.probe.stack
      discrepancy := l.probe.discrepancy - min l.probe.discrepancy (c.alternatives - 1)
      current := some (child (min l.probe.discrepancy (c.alternatives - 1)), edge', depth + 1) } }
    have hstep : l.step.Always (none, l₁) := by
      rw [step_of_current hcurrent]
      exact hexplore.bind .pure
    obtain ⟨leaves, whole, l', hcovers, hproceeds, hpasses⟩ := alternatives_law (l := l₁) hcommit ih
      htaken (Nat.min_le_left _ _) hstop rfl rfl rfl fun h => hdescribed (hactive ▸ h)
    refine ⟨leaves, decide (c.alternatives - 1 ≤ l.probe.discrepancy) && whole, l',
      hcovers.leavesByCost h hchoice hcommit, hcovers.costsAtMost_iff h hchoice hcommit htree,
      (Proceeds.quiet hstep).trans hproceeds, ?_⟩
    exact ⟨hpasses.current, hpasses.stack, hpasses.remaining,
      by rw [hpasses.exhausted, ← Bool.and_assoc], hpasses.active.trans hactive, hpasses.root,
      hpasses.discrepancy, hpasses.limit, hpasses.stop⟩

/-! ### All probes -/

/-- The search is about to begin the probe with the number `d`. -/
structure Probes (root : Space) (limit d : Nat) (l : LimitedDiscrepancy (Option σ)) : Prop where
  stack : l.probe.stack = []
  current : l.probe.current = some (root, .root, 0)
  remaining : l.probe.discrepancy = d
  exhausted : l.probe.exhausted = true
  root : l.root = if d < limit then some root else none
  discrepancy : l.discrepancy = d
  limit : l.limit = limit
  stop : l.stop = none

/-- The probes from the number `d` on. -/
theorem probes_law {root : Space} {limit d : Nat} (htree : root.HasTree) (h : Probes root limit d l)
    (hle : d ≤ limit) (htraced : l.probe.tracing.isActive = true → root.Described) :
    ∃ leaves l', root.LeavesByCost d limit leaves ∧ Ends step l (leaves.map Prod.snd) l' ∧
      (l'.isComplete = true ↔ root.CostsAtMost limit) := by
  induction hn : limit - d using Nat.strong_induction_on generalizing l d with
  | _ n ih =>
    obtain ⟨leaves, whole, l₁, hleaves, hwhole, hproceeds, hpasses⟩ :=
      explorable htree l .root 0 h.stop h.current htraced
    rw [h.remaining] at hleaves hwhole
    have hexhausted : l₁.probe.exhausted = whole := by
      rw [hpasses.exhausted, h.exhausted, Bool.true_and]
    have hroot := hpasses.root.trans h.root
    have hdiscrepancy := hpasses.discrepancy.trans h.discrepancy
    have hlimit := hpasses.limit.trans h.limit
    have hstep : l₁.step = pure l₁.nextProbe := by
      unfold step
      rw [hpasses.current, hpasses.stack, h.stack]
    by_cases hend : whole = true ∨ limit ≤ d
    · have hnext : l₁.nextProbe = (some .exhausted, l₁) := by
        unfold nextProbe
        rw [if_pos (by rwa [hexhausted, hlimit, hdiscrepancy])]
      have hstep' : l₁.step.Always (some .exhausted, l₁) := by
        rw [hstep, hnext]
        exact .pure
      have hends := hproceeds.ends (.exhausted hstep')
      rw [List.append_nil] at hends
      by_cases hw : whole = true
      · have hcosts := hwhole.1 hw
        exact ⟨leaves, l₁, hleaves.of_costsAtMost hcosts hle, hends,
          iff_of_true (hexhausted.trans hw) fun path r hr => (hcosts path r hr).trans hle⟩
      · obtain rfl : d = limit := le_antisymm hle (hend.resolve_left hw)
        refine ⟨leaves, l₁, hleaves, hends, ?_⟩
        rw [← hwhole, ← hexhausted]
        rfl
    · obtain ⟨hw, hlt⟩ := not_or.1 hend
      have hlt := not_le.1 hlt
      rw [if_pos hlt] at hroot
      let l₂ : LimitedDiscrepancy (Option σ) := ⟨l₁.probe.reset (some root) (d + 1),
        if d + 1 = limit then none else some root, d + 1, limit, l₁.stop⟩
      have hnext : l₁.nextProbe = (none, l₂) := by
        unfold nextProbe
        rw [if_neg (by rwa [hexhausted, hlimit, hdiscrepancy])]
        dsimp only
        rw [hroot, hlimit, hdiscrepancy]
      have hstep' : l₁.step.Always (none, l₂) := by
        rw [hstep, hnext]
        exact .pure
      have hprobes : Probes root limit (d + 1) l₂ := by
        refine ⟨rfl, rfl, rfl, rfl, ?_, rfl, rfl, hpasses.stop.trans h.stop⟩
        show (if d + 1 = limit then none else some root) = _
        by_cases heq : d + 1 = limit
        · rw [if_pos heq, if_neg (by omega)]
        · rw [if_neg heq, if_pos (by omega)]
      have hactive : l₂.probe.tracing.isActive = l.probe.tracing.isActive :=
        (Tracing.isActive_round _).trans hpasses.active
      obtain ⟨leaves', l', hleaves', hends, hcomplete⟩ :=
        ih (limit - (d + 1)) (by omega) hprobes hlt (fun h => htraced (hactive ▸ h)) rfl
      refine ⟨leaves ++ leaves', l', hleaves.append hleaves' (Nat.le_succ d) hlt.le, ?_, hcomplete⟩
      rw [List.map_append]
      exact hproceeds.ends (.quiet hstep' hends)

/-- The search of a tree, from its start on. -/
theorem start_law {root : Space} (limit : Nat) {tracing : Tracing} (htree : root.HasTree)
    (htraced : tracing.isActive = true → root.Described) :
    ∃ l leaves l', (start root limit tracing (none : Option σ)).Always l ∧
      root.LeavesByCost 0 limit leaves ∧ Ends step l (leaves.map Prod.snd) l' ∧
      (l'.isComplete = true ↔ root.CostsAtMost limit) := by
  obtain ⟨⟨status, s₁⟩, hstatus⟩ := htree.exists_status
  obtain ⟨statistics, hstatusOf⟩ := always_statusOf (Probe.ofTracing tracing).statistics hstatus
  by_cases hfailed : status = .failed
  · -- Nothing is left of the tree.
    subst hfailed
    let probe := { Probe.ofTracing tracing with
      statistics := { statistics with fails := statistics.fails + 1 } }
    let l : LimitedDiscrepancy (Option σ) := ⟨probe.reset none 0, none, 0, limit, none⟩
    refine ⟨l, [], l, hstatusOf.bind .pure, ⟨List.nodup_nil, fun path leaf => ?_, .nil⟩,
      .exhausted .pure, iff_of_true rfl (costsAtMost_of_leaf hstatus nofun limit)⟩
    rw [Space.reaches_of_leaf hstatus nofun]
    simp
  · let probe := { Probe.ofTracing tracing with statistics }
    let l : LimitedDiscrepancy (Option σ) :=
      ⟨probe.reset (some s₁) 0, if 0 < limit then some s₁ else none, 0, limit, none⟩
    have hstart : (start root limit tracing (none : Option σ)).Always l := by
      refine hstatusOf.bind ?_
      dsimp only
      rw [if_neg hfailed]
      exact .pure
    have hprobes : Probes s₁ limit 0 l := ⟨rfl, rfl, rfl, rfl, rfl, rfl, rfl, rfl⟩
    have hactive : l.probe.tracing.isActive = tracing.isActive := Tracing.isActive_round _
    obtain ⟨leaves, l', hleaves, hends, hcomplete⟩ :=
      probes_law (htree.of_status hstatus) hprobes (Nat.zero_le limit)
        fun h path s' c s'' hr =>
          htraced (hactive ▸ h) path s' c s'' ((Space.reaches_status hstatus).1 hr)
    refine ⟨l, leaves, l', hstart, ⟨hleaves.nodup, fun path leaf => ?_, hleaves.sorted⟩, hends, ?_⟩
    · rw [← Space.reaches_status hstatus]
      exact hleaves.mem_iff path leaf
    · rw [hcomplete]
      exact forall_congr' fun path => forall_congr' fun r => by rw [Space.reaches_status hstatus]

end LimitedDiscrepancy

/-- The steps of an engine's search. -/
theorem Ends.limitedDiscrepancy {l l' : LimitedDiscrepancy (Option σ)} {found : List Space}
    (h : Ends LimitedDiscrepancy.step l found l') :
    Ends Search.step (.limitedDiscrepancy l : Search σ ρ) found (.limitedDiscrepancy l') := by
  induction h with
  | exhausted h => exact .exhausted (h.bind .pure)
  | quiet h _ ih => exact .quiet (h.bind .pure) ih
  | found h _ ih => exact .found (h.bind .pure) ih

omit [StopCondition σ] in
/-- An engine begins with the search of its kind, with a warning at most. -/
theorem Engine.always_start {kind : EngineKind} {s : Space} {options : SearchOptions σ ρ}
    {search : Search σ ρ} (hthreads : 0 < options.threads) (hkind : kind ≠ .branchAndBound)
    (h : (Search.start kind s options).Always search) :
    (start kind s options).run.Always (.ok (⟨search, false, options.isTraced⟩,
      if options.copiesSpace then s else default)) := by
  have hlift {α : Type} {m : Journaled α} {a : α} (hm : m.Always a) :
      (liftM m : JournaledRequest α).run.Always (.ok a) := hm.bind .pure
  have hrest : (do
      let search ← Search.start kind s options
      return (⟨search, false, options.isTraced⟩, if options.copiesSpace then s else default) :
        JournaledRequest (Engine σ ρ × Space)).run.Always (.ok (⟨search, false, options.isTraced⟩,
          if options.copiesSpace then s else default)) := by
    rw [ExceptT.run_bind]
    exact (hlift h).bind .pure
  unfold start
  rw [if_neg hthreads.ne', if_neg fun h => hkind h.1]
  dsimp only
  by_cases hwarned : kind = .limitedDiscrepancy ∧ 1 < options.threads
  · have hnote : (Journaled.note .threadsIgnored).Always () := fun _ => rfl
    rw [if_pos hwarned, ExceptT.run_bind]
    exact (hlift hnote).bind hrest
  · rw [if_neg hwarned]
    exact hrest

/-- **Limited discrepancy search enumerates by discrepancies.** It returns the solved leaves whose
cost is within the limit, each once and in the order of their costs, and then nothing. It is
complete then if and only if no node of the tree costs more. -/
theorem Space.HasTree.limitedDiscrepancy_exact {s : Space} {options : SearchOptions σ ρ}
    (h : s.HasTree) (hthreads : 0 < options.threads) (hstop : options.stop = none)
    (htraced : options.isTraced = true → s.Described) :
    ∃ e rest leaves e', (Engine.start .limitedDiscrepancy s options).run.Always (.ok (e, rest)) ∧
      s.LeavesByCost 0 options.discrepancyLimit leaves ∧
      (∃ n, ∀ steps > n, ∀ count > n, (e.take steps count).Always
        (leaves.map Prod.snd, true, e')) ∧
      e'.hasStopped = false ∧
      (e'.isComplete = true ↔ s.CostsAtMost options.discrepancyLimit) := by
  have hactive : (Tracing.start 0 options.isTraced).isActive = options.isTraced := by
    cases options.isTraced <;> rfl
  obtain ⟨l, leaves, l', hstart, hleaves, hends, hcomplete⟩ :=
    LimitedDiscrepancy.start_law (σ := σ) options.discrepancyLimit h (hactive ▸ htraced)
  let e : Engine σ ρ := ⟨.limitedDiscrepancy l, false, options.isTraced⟩
  obtain ⟨n, htake⟩ := Engine.take_of_ends (e := e) hends.limitedDiscrepancy
  refine ⟨e, if options.copiesSpace then s else default, leaves, _, ?_, hleaves, ⟨n, htake⟩, rfl,
    hcomplete⟩
  have hsearch : (Search.start .limitedDiscrepancy s options).Always (.limitedDiscrepancy l) := by
    unfold Search.start
    rw [hstop]
    exact hstart.bind .pure
  exact Engine.always_start hthreads nofun hsearch

/-- Three values to choose from, and two probes: the solutions with at most one discrepancy are
returned. -/
def ternary : List Statement :=
  [.newInt 0 2, .newInt 0 2, .post (.notEquals (.root 0) (.root 1) 0),
    .branch (.int (.ofVariables [.root 0, .root 1] .inputOrder .all))]

theorem Space.HasTree.limitedDiscrepancy_exact_ternary : ∃ s, ∃ e : Engine, ∃ rest leaves e',
    Built .costOrdered ternary s ∧
      (Engine.start .limitedDiscrepancy s { discrepancyLimit := 1 }).run.Always (.ok (e, rest)) ∧
      s.LeavesByCost 0 1 leaves ∧
      (∃ n, ∀ steps > n, ∀ count > n, (e.take steps count).Always
        (leaves.map Prod.snd, true, e')) ∧
      e'.hasStopped = false ∧ (e'.isComplete = true ↔ s.CostsAtMost 1) := by
  have hcheck : buildsTo .costOrdered ternary (fun s => (s.walk 9).check fun _ => true) = true := by
    decide +kernel
  obtain ⟨s, hs, hwalk⟩ := exists_built_of_buildsTo hcheck
  obtain ⟨visits, hvisits, -⟩ := Journaled.exists_of_check hwalk
  let options : SearchOptions := { discrepancyLimit := 1 }
  have hthreads : 0 < options.threads := Nat.one_pos
  obtain ⟨e, rest, leaves, e', hexact⟩ :=
    (hasTree_of_walk hvisits).limitedDiscrepancy_exact hthreads rfl nofun
  exact ⟨s, e, rest, leaves, e', hs, hexact⟩

end ConstraintSearch
