import Mathlib.Data.Multiset.DershowitzManna
import ConstraintSearch.Proofs.Search.FiniteTree

/-!
# Searches of finite trees

A search of a finite tree by one worker comes to the end of the tree, or an operation on one of its
spaces faults. A node that is explored is replaced by its children, which are one level deeper, so
that the levels that are left get less as multisets.

* `Concludes`: what comes of a search that goes on after each solution and each stop;
* `Terminates`: something comes of it; `terminates_of_less`: if a measure gets less with each step;
* `Wanes`: a node is replaced by its children, or by nothing;
* `DepthFirst.terminates_of_depth`, `BranchAndBound.terminates_of_depth`,
  `LimitedDiscrepancy.terminates_of_depth`: searches without a stop condition.
-/

namespace ConstraintSearch

variable {P : Fault → Prop} {M : Chart} {σ : Type} [StopCondition σ]

/-! ### Runs to the end -/

/-- What comes of a search that goes on after each solution and each stop: its solutions and what it
is at the end of the tree, or a fault. -/
inductive Concludes {ε : Type} (step : ε → Journaled (Option Outcome × ε)) :
    ε → Journal → Except Fault (List Space × ε) → Journal → Prop
  | fault {e : ε} {journal journal' : Journal} {fault : Fault}
      (h : step e journal = (.error fault, journal')) :
      Concludes step e journal (.error fault) journal'
  | exhausted {e e' : ε} {journal journal' : Journal}
      (h : step e journal = (.ok (some .exhausted, e'), journal')) :
      Concludes step e journal (.ok ([], e')) journal'
  | next {e e' : ε} {journal between journal' : Journal} {r : Except Fault (List Space × ε)}
      (h : step e journal = (.ok (none, e'), between))
      (hrest : Concludes step e' between r journal') :
      Concludes step e journal r journal'
  | stopped {e e' : ε} {journal between journal' : Journal} {r : Except Fault (List Space × ε)}
      (h : step e journal = (.ok (some .stopped, e'), between))
      (hrest : Concludes step e' between r journal') : Concludes step e journal r journal'
  | solution {e e' : ε} {s : Space} {journal between journal' : Journal}
      {r : Except Fault (List Space × ε)}
      (h : step e journal = (.ok (some (.solution s), e'), between))
      (hrest : Concludes step e' between r journal') :
      Concludes step e journal (r.map (Prod.map (s :: ·) id)) journal'

/-- Whatever was written before, the search comes to an end, or to a fault with the property `P`. -/
def Terminates (P : Fault → Prop) {ε : Type} (step : ε → Journaled (Option Outcome × ε))
    (e : ε) : Prop :=
  ∀ journal, ∃ r journal', Concludes step e journal r journal' ∧ Meets P r fun _ => True

/-- A search whose steps make a measure less comes to an end. -/
theorem terminates_of_less {ε μ : Type} {step : ε → Journaled (Option Outcome × ε)}
    {less : μ → μ → Prop} (hless : WellFounded less) {I : μ → ε → Prop}
    (hstep : ∀ m e, I m e → Journaled.Meets P (step e) fun r =>
      r.1 = some .exhausted ∨ ∃ m', less m' m ∧ I m' r.2)
    {m : μ} {e : ε} (h : I m e) : Terminates P step e := by
  intro journal
  induction m using hless.induction generalizing e journal with
  | _ m ih =>
  have hmeets := hstep m e h journal
  rcases hr : step e journal with ⟨fault | ⟨outcome, e'⟩, between⟩ <;> rw [hr] at hmeets
  · exact ⟨.error fault, between, .fault hr, hmeets⟩
  by_cases hend : outcome = some .exhausted
  · subst hend
    exact ⟨.ok ([], e'), between, .exhausted hr, trivial⟩
  obtain ⟨m', hlt, hrest⟩ := hmeets.resolve_left hend
  obtain ⟨r, journal', hrun, hfault⟩ := ih m' hlt hrest between
  cases outcome with
  | none => exact ⟨r, journal', .next hr hrun, hfault⟩
  | some outcome =>
    cases outcome with
    | exhausted => exact absurd rfl hend
    | stopped => exact ⟨r, journal', .stopped hr hrun, hfault⟩
    | solution s =>
      refine ⟨_, journal', .solution hr hrun, ?_⟩
      cases r with
      | error fault => exact hfault
      | ok found => exact trivial

/-! ### Levels -/

/-- Elements that are replaced by smaller ones make a multiset less. -/
theorem isDershowitzMannaLT_of_le {before after rest children : Multiset Nat} {k : Nat}
    (hbefore : k ::ₘ rest ≤ before) (hafter : after ≤ rest + children)
    (hchildren : ∀ i ∈ children, i < k) : after.IsDershowitzMannaLT before := by
  obtain ⟨others, rfl⟩ := le_iff_exists_add.1 hbefore
  refine ⟨after ∩ rest, after - rest, k ::ₘ (rest - after) + others, ?_, ?_, ?_, fun i hi => ?_⟩
  · rw [Multiset.cons_add]
    exact Multiset.cons_ne_zero
  · rw [add_comm, Multiset.sub_add_inter]
  · rw [← add_assoc, Multiset.add_cons, Multiset.inter_comm, add_comm (rest ∩ after),
      Multiset.sub_add_inter]
  · have hle : after - rest ≤ children := tsub_le_iff_left.2 hafter
    refine ⟨k, ?_, hchildren i (Multiset.mem_of_le hle hi)⟩
    rw [Multiset.cons_add]
    exact Multiset.mem_cons_self _ _

theorem isDershowitzMannaLT_add_left {before after : Multiset Nat} (common : Multiset Nat)
    (h : after.IsDershowitzMannaLT before) :
    (common + after).IsDershowitzMannaLT (common + before) := by
  obtain ⟨kept, new, old, hold, rfl, rfl, hlt⟩ := h
  exact ⟨common + kept, new, old, hold, (add_assoc _ _ _).symm, (add_assoc _ _ _).symm, hlt⟩

/-- Of the levels that were left, at least one was replaced by the one below it, any number of
times, and then nodes stand there. -/
def Wanes (M : Chart) (before after : Multiset Nat) : Prop :=
  ∃ ρ spent, spent ≤ before ∧ Explorer.Spends M ρ spent after

namespace Wanes

variable {depth : Nat} {before after : Multiset Nat}

/-- In a tree of bounded depth the distances from its bottom get less. -/
theorem isDershowitzMannaLT (h : Wanes M before after)
    (hdepth : ∀ ρ s, M.stands ρ s → ρ.length ≤ depth) :
    (after.map (depth - ·)).IsDershowitzMannaLT (before.map (depth - ·)) := by
  obtain ⟨ρ, spent, hle, rest, n, rfl, hafter, hstands⟩ := h
  have hbefore := Multiset.map_le_map (f := (depth - ·)) hle
  have hafter := Multiset.map_le_map (f := (depth - ·)) hafter
  rw [Multiset.map_cons] at hbefore
  rw [Multiset.map_add, Multiset.map_replicate] at hafter
  refine isDershowitzMannaLT_of_le hbefore hafter fun i hi => ?_
  obtain ⟨hn, rfl⟩ := Multiset.mem_replicate.1 hi
  obtain ⟨c, j, s, hs⟩ := hstands (Nat.pos_of_ne_zero hn)
  have hlength : ρ.length + 1 ≤ depth := hdepth _ s hs
  omega

end Wanes

/-! ### Depth first -/

theorem poll_none_meets (statistics : Statistics) :
    Journaled.Meets P (liftM (StopCondition.poll (none : Option σ) statistics))
      (· = (false, none)) := fun _ => rfl

section Explorers

variable {ℓ : Nat → Place} {ρ : Place} {bound : Option Bound}

/-- The next node of an explorer is explored. -/
theorem Explorer.explore_wanes (hM : M.Closed P) {e e' : Explorer} {s : Space}
    (h : GivesOut M ℓ ρ e (some s, e', bound)) : Journaled.Meets P (e'.explore s) fun r =>
      (M.improves → ∀ s', r.1 = .solved s' → M.found s') ∧ ∃ ℓ' ρ', r.2.Sustained M ℓ' ρ' ∧
        Wanes M (e.backlog ℓ ρ) (r.2.backlog ℓ' ρ') := by
  obtain ⟨hcurrent, -, -, ρ', hsustained, hle⟩ := h
  refine (explore_meets hM hsustained hcurrent).mono
    fun r ⟨hfound, ℓ'', ρ'', hsustained', hspends⟩ =>
      ⟨hfound, ℓ'', ρ'', hsustained', ρ', _, hle, hspends⟩

/-- The invariant does not mention the statistics. -/
theorem Explorer.Sustained.withStatistics {e : Explorer} (h : e.Sustained M ℓ ρ)
    (statistics : Statistics) : Explorer.Sustained M ℓ ρ { e with statistics } :=
  ⟨⟨h.balanced, h.stocked⟩, h.current, h.ready⟩

/-- A search goes on below an explorer with fewer levels left. -/
def Explorer.Wanes (M : Chart) (ℓ : Nat → Place) (ρ : Place) (e e' : Explorer) : Prop :=
  ∃ ℓ' ρ', e'.Sustained M ℓ' ρ' ∧ ConstraintSearch.Wanes M (e.backlog ℓ ρ) (e'.backlog ℓ' ρ')

/-- A search whose steps leave fewer levels comes to an end in a tree of bounded depth. -/
theorem terminates_of_wanes {ε : Type} {step : ε → Journaled (Option Outcome × ε)}
    (explorer : ε → Explorer) {I : ε → Prop} {depth : Nat}
    (hdepth : ∀ ρ s, M.stands ρ s → ρ.length ≤ depth)
    (hstep : ∀ e ℓ ρ, I e → (explorer e).Sustained M ℓ ρ → Journaled.Meets P (step e) fun r =>
      r.1 = some .exhausted ∨ I r.2 ∧ Explorer.Wanes M ℓ ρ (explorer e) (explorer r.2))
    {e : ε} (hI : I e) (h : (explorer e).Sustained M ℓ ρ) : Terminates P step e := by
  let Left (distances : Multiset Nat) (e : ε) : Prop := I e ∧
    ∃ ℓ ρ, (explorer e).Sustained M ℓ ρ ∧
      distances = ((explorer e).backlog ℓ ρ).map (depth - ·)
  have hless (distances : Multiset Nat) (e : ε) (he : Left distances e) :
      Journaled.Meets P (step e) fun r => r.1 = some .exhausted ∨
        ∃ distances', distances'.IsDershowitzMannaLT distances ∧ Left distances' r.2 := by
    obtain ⟨hI, ℓ, ρ, hsustained, rfl⟩ := he
    refine (hstep e ℓ ρ hI hsustained).mono fun r hr => hr.imp_right ?_
    rintro ⟨hI', ℓ', ρ', hsustained', hwanes⟩
    exact ⟨_, hwanes.isDershowitzMannaLT hdepth, hI', ℓ', ρ', hsustained', rfl⟩
  have he : Left (((explorer e).backlog ℓ ρ).map (depth - ·)) e := ⟨hI, ℓ, ρ, h, rfl⟩
  exact terminates_of_less Multiset.wellFounded_isDershowitzMannaLT hless he

theorem DepthFirst.step_meets (hM : M.Closed P) {d : DepthFirst (Option σ)} (hstop : d.stop = none)
    (h : d.explorer.Sustained M ℓ ρ) : Journaled.Meets P d.step fun r =>
      r.1 = some .exhausted ∨ r.2.stop = none ∧ Explorer.Wanes M ℓ ρ d.explorer r.2.explorer := by
  unfold step
  rw [hstop]
  refine (poll_none_meets _).bind fun _ hpoll => ?_
  subst hpoll
  have hbound : ∀ bound ∈ (none : Option Bound), M.found bound.best := nofun
  refine (Explorer.nextNode_meets hM h hbound).bind fun (node, e, _) hgives => ?_
  cases node with
  | none => exact Journaled.Meets.pure (.inl rfl)
  | some s =>
    refine (Explorer.explore_wanes hM hgives).bind
      fun (explored, e') ⟨_, ℓ', ρ', hsustained, hwanes⟩ => ?_
    cases explored with
    | failed | branched =>
      exact Journaled.Meets.pure (.inr ⟨rfl, ℓ', ρ', hsustained, hwanes⟩)
    | solved s' =>
      exact Journaled.Meets.pure (.inr ⟨rfl, ℓ', ρ', hsustained.withStatistics _, hwanes⟩)

/-- The best solution was found somewhere. -/
def BranchAndBound.Knows (M : Chart) (b : BranchAndBound (Option σ)) : Prop :=
  ∀ best ∈ b.best, M.found best

omit [StopCondition σ] in
theorem BranchAndBound.Knows.bound_found {b : BranchAndBound (Option σ)} (h : b.Knows M) :
    ∀ bound ∈ b.bound, M.found bound.best := by
  intro bound hbound
  obtain ⟨s, hs, rfl⟩ := Option.mem_map.1 hbound
  exact h s hs

theorem BranchAndBound.step_meets (hM : M.Closed P) (himproves : M.improves)
    {b : BranchAndBound (Option σ)} (hstop : b.stop = none) (hknows : b.Knows M)
    (h : b.explorer.Sustained M ℓ ρ) : Journaled.Meets P b.step fun r =>
      r.1 = some .exhausted ∨
        r.2.stop = none ∧ r.2.Knows M ∧ Explorer.Wanes M ℓ ρ b.explorer r.2.explorer := by
  unfold step
  rw [hstop]
  refine (poll_none_meets _).bind fun _ hpoll => ?_
  subst hpoll
  refine (Explorer.nextNode_meets hM h (BranchAndBound.Knows.bound_found hknows)).bind
    fun (node, e, _) hgives => ?_
  cases node with
  | none => exact Journaled.Meets.pure (.inl rfl)
  | some s =>
    refine (Explorer.explore_wanes hM hgives).bind
      fun (explored, e') ⟨hfound, ℓ', ρ', hsustained, hwanes⟩ => ?_
    cases explored with
    | failed | branched =>
      exact Journaled.Meets.pure (.inr ⟨rfl, hknows, ℓ', ρ', hsustained, hwanes⟩)
    | solved s' =>
      refine Journaled.Meets.pure
        (.inr ⟨rfl, fun best hbest => ?_, ℓ', ρ', hsustained.withStatistics _, hwanes⟩)
      cases hbest
      exact hfound himproves s' rfl

variable {depth : Nat} (hM : M.Closed P) (hdepth : ∀ ρ s, M.stands ρ s → ρ.length ≤ depth)

include hM hdepth

theorem DepthFirst.terminates_of_depth {d : DepthFirst (Option σ)} (hstop : d.stop = none)
    (h : d.explorer.Sustained M ℓ ρ) : Terminates P step d :=
  terminates_of_wanes (I := fun d => d.stop = none) explorer hdepth
    (fun _ _ _ hstop h => step_meets hM hstop h) hstop h

theorem BranchAndBound.terminates_of_depth (himproves : M.improves) {b : BranchAndBound (Option σ)}
    (hstop : b.stop = none) (hknows : b.Knows M) (h : b.explorer.Sustained M ℓ ρ) :
    Terminates P step b :=
  terminates_of_wanes (I := fun b => b.stop = none ∧ b.Knows M) explorer hdepth
    (fun _ _ _ hkept h => (step_meets hM himproves hkept.1 hkept.2 h).mono fun _ hr =>
      hr.imp_right fun hr => ⟨⟨hr.1, hr.2.1⟩, hr.2.2⟩) ⟨hstop, hknows⟩ h

variable {root : Space} (hroot : M.stands [] root) (exploration : Exploration) (tracing : Tracing)

include hroot

theorem DepthFirst.start_meets :
    Journaled.Meets P (start root exploration tracing (none : Option σ)) fun d =>
      d.stop = none ∧ Terminates P step d :=
  (Explorer.start_meets (ℓ := fun _ => []) hM _ hroot).bind fun _ he =>
    Journaled.Meets.pure ⟨rfl, terminates_of_depth hM hdepth rfl he⟩

theorem BranchAndBound.start_meets (himproves : M.improves) :
    Journaled.Meets P (start root exploration tracing (none : Option σ)) fun b =>
      b.stop = none ∧ Terminates P step b :=
  (Explorer.start_meets (ℓ := fun _ => []) hM _ hroot).bind fun _ he =>
    Journaled.Meets.pure ⟨rfl, terminates_of_depth hM hdepth himproves rfl nofun he⟩

end Explorers

/-! ### Probes -/

namespace Probe

variable {p : Probe} {s : Space} {depth : Nat} {ρ : Place}
  {top : ProbeNode} {rest : List ProbeNode} {levels : Multiset Nat}

/-- The levels of the nodes below the alternatives that are left on a stack. -/
inductive Stacked (M : Chart) : List ProbeNode → Multiset Nat → Prop
  | nil : Stacked M [] 0
  | cons {node : ProbeNode} {stack : List ProbeNode} {levels : Multiset Nat} {ρ : Place}
      (hs : M.stands ρ node.space) (hc : M.splits ρ node.choice)
      (hi : node.alternative < node.choice.alternatives) (h : Stacked M stack levels) :
      Stacked M (node :: stack) (Multiset.replicate (node.alternative + 1) (ρ.length + 1) + levels)

/-- The levels of the nodes that a probe has still to explore. -/
inductive Leaves (M : Chart) (p : Probe) : Multiset Nat → Prop
  | idle {levels : Multiset Nat} (hcurrent : p.current = none) (h : Stacked M p.stack levels) :
      Leaves M p levels
  | current {s : Space} {edge : EdgeInfo} {depth : Nat} {levels : Multiset Nat} {ρ : Place}
      (hcurrent : p.current = some (s, edge, depth)) (hs : M.stands ρ s)
      (h : Stacked M p.stack levels) : Leaves M p (ρ.length ::ₘ levels)

/-- The alternatives before the one that is taken are left. -/
theorem Stacked.leave {c : Choice} {taken : Nat} (hs : M.stands ρ s) (hc : M.splits ρ c)
    (htaken : taken < c.alternatives) (hstack : Stacked M rest levels) (id : NodeId) :
    Stacked M (if taken = 0 then rest else ⟨s, c, taken - 1, id, depth⟩ :: rest)
      (Multiset.replicate taken (ρ.length + 1) + levels) := by
  split
  · rename_i hzero
    rwa [hzero, Multiset.replicate_zero, zero_add]
  · have hone : taken - 1 + 1 = taken := by omega
    have hnext : taken - 1 < c.alternatives := by omega
    have hnew : Stacked M (⟨s, c, taken - 1, id, depth⟩ :: rest) _ := .cons hs hc hnext hstack
    rwa [hone] at hnew

theorem edge_meets (hM : M.Closed P) (tracing : Tracing) {c : Choice} {i : Nat}
    (hc : M.splits ρ c) (hi : i < c.alternatives) (parent : NodeId) :
    Meets P (tracing.edge parent c i) fun _ => True := by
  unfold Tracing.edge
  split
  · exact hM.describe hc hi parent
  · exact Meets.pure trivial

/-- The probe goes back to a node. -/
theorem resume_meets (hM : M.Closed P) (hstack : Stacked M (top :: rest) levels)
    (hcurrent : p.current = none) : Meets P (p.resume top rest) fun r => r.2.current = none ∧
      ∃ ρ levels', M.stands ρ r.1.1 ∧ Stacked M r.2.stack levels' ∧
        levels = ρ.length ::ₘ levels' := by
  cases hstack with
  | @cons _ _ others ρ hs hc hi h =>
  unfold resume
  refine (hM.commit hs hc hi).bind fun s hs' => ?_
  refine (edge_meets hM p.tracing hc hi top.id).bind fun edge _ => Meets.pure ⟨hcurrent, ?_⟩
  refine ⟨(top.choice, top.alternative) :: ρ,
    Multiset.replicate top.alternative (ρ.length + 1) + others, hs', .leave hs hc hi h top.id, ?_⟩
  rw [Multiset.replicate_succ, Multiset.cons_add]
  rfl

/-- A node is replaced by its first children. -/
theorem split_meets (hM : M.Closed P) {c : Choice} (hs : M.stands ρ s) (hc : M.splits ρ c)
    (htwo : 2 ≤ c.alternatives) (hstack : Stacked M p.stack levels) (id : NodeId) :
    Meets P (p.split s c id depth) fun p' =>
      ∃ levels', p'.Leaves M levels' ∧ Wanes M (ρ.length ::ₘ levels) levels' := by
  unfold split
  dsimp only
  generalize htaken : min p.discrepancy (c.alternatives - 1) = taken
  have hlt : taken < c.alternatives := by omega
  refine (hM.commit hs hc hlt).bind fun first hfirst => ?_
  refine (edge_meets hM p.tracing hc hlt id).bind fun edge _ => Meets.pure ?_
  refine ⟨_, .current rfl hfirst (.leave hs hc hlt hstack id), ρ, _, le_rfl, levels, taken + 1, rfl,
    ?_, fun _ => ⟨c, taken, first, hfirst⟩⟩
  rw [List.length_cons, Multiset.replicate_succ, Multiset.add_cons, add_comm levels]

theorem explore_meets (hM : M.Closed P) (hs : M.stands ρ s) (hstack : Stacked M p.stack levels)
    (hcurrent : p.current = none) (edge : EdgeInfo) (depth : Nat) :
    Journaled.Meets P (p.explore s edge depth) fun r =>
      ∃ levels', r.2.Leaves M levels' ∧ Wanes M (ρ.length ::ₘ levels) levels' := by
  have hspent : Wanes M (ρ.length ::ₘ levels) levels := ⟨ρ, _, le_rfl, levels, 0, rfl,
    by rw [Multiset.replicate_zero, add_zero], fun hlt => absurd hlt (lt_irrefl 0)⟩
  unfold explore
  refine (hM.statusOf hs _).bind fun (status, s₁, statistics) ⟨_, _, hstatus⟩ => ?_
  dsimp only at hstatus ⊢
  cases status with
  | failed => exact Journaled.Meets.pure ⟨levels, .idle hcurrent hstack, hspent⟩
  | solved => exact Journaled.Meets.pure ⟨levels, .idle hcurrent hstack, hspent⟩
  | branch =>
    refine (Journaled.Meets.lift (hM.choice hs hstatus).self).bind
      fun (c, s₂) ⟨⟨hsplits, hs₂⟩, hchoice⟩ => ?_
    dsimp only at hsplits hs₂ ⊢
    have htwo := Space.two_le_alternatives hchoice
    refine (Journaled.Meets.lift (split_meets hM hs₂ hsplits htwo ?_ _)).bind
      fun p' hp' => Journaled.Meets.pure hp'
    exact hstack

end Probe

/-! ### Limited discrepancies -/

namespace LimitedDiscrepancy

variable {l : LimitedDiscrepancy (Option σ)} {s : Space} {edge : EdgeInfo} {levels : Multiset Nat}
  {ρ : Place} {depth : Nat}

/-- The distances of the levels that are left from the bottom of a tree of a depth. Each probe to
come counts for more than all levels of a probe. -/
def distances (depth : Nat) (l : LimitedDiscrepancy (Option σ)) (levels : Multiset Nat) :
    Multiset Nat :=
  Multiset.replicate (l.limit - l.discrepancy) (depth + 1) + levels.map (depth - ·)

/-- A search without a stop condition, with the distances that are left. -/
def Measures (M : Chart) (depth : Nat) (distances : Multiset Nat)
    (l : LimitedDiscrepancy (Option σ)) : Prop :=
  l.stop = none ∧ (∀ root ∈ l.root, M.stands [] root) ∧
    ∃ levels, l.probe.Leaves M levels ∧ distances = l.distances depth levels

omit [StopCondition σ] in
theorem explore_meets (hM : M.Closed P) (hdepth : ∀ ρ s, M.stands ρ s → ρ.length ≤ depth)
    (hstop : l.stop = none) (hroot : ∀ root ∈ l.root, M.stands [] root) (hs : M.stands ρ s)
    (hstack : Probe.Stacked M l.probe.stack levels) (height : Nat) :
    Journaled.Meets P (l.explore s edge height) fun r => r.1 = some .exhausted ∨
      ∃ distances, distances.IsDershowitzMannaLT (l.distances depth (ρ.length ::ₘ levels)) ∧
        Measures M depth distances r.2 := by
  have hexplore := Probe.explore_meets (p := { l.probe with current := none }) hM hs hstack rfl edge
    height
  unfold explore
  refine hexplore.bind fun (solution, probe) ⟨levels', hleaves, hwanes⟩ => ?_
  have hlt :=
    isDershowitzMannaLT_add_left (Multiset.replicate (l.limit - l.discrepancy) (depth + 1))
    (hwanes.isDershowitzMannaLT hdepth)
  cases solution with
  | none =>
    exact Journaled.Meets.pure (.inr ⟨_, hlt, hstop, hroot, levels', hleaves, rfl⟩)
  | some s' =>
    refine Journaled.Meets.pure (.inr ⟨_, hlt, hstop, hroot, levels', ?_, rfl⟩)
    cases hleaves with
    | idle hcurrent h => exact .idle hcurrent h
    | current hcurrent hs h => exact .current hcurrent hs h

omit [StopCondition σ] in
/-- The next probe has the levels of one node. -/
theorem nextProbe_measures (hstop : l.stop = none) (hroot : ∀ root ∈ l.root, M.stands [] root) :
    l.nextProbe.1 = some .exhausted ∨
      ∃ distances, distances.IsDershowitzMannaLT (l.distances depth 0) ∧
        Measures M depth distances l.nextProbe.2 := by
  unfold nextProbe
  split
  · exact .inl rfl
  rename_i hnext
  dsimp only
  split
  · exact .inl rfl
  · rename_i root hr
    have hs : M.stands [] root := hroot root hr
    refine .inr ⟨_, ?_, hstop, fun s' hs' => ?_, _, .current rfl hs .nil, rfl⟩
    · obtain ⟨n, hn⟩ : ∃ n, l.limit - l.discrepancy = n + 1 :=
        ⟨l.limit - l.discrepancy - 1, by omega⟩
      have hrest : l.limit - (l.discrepancy + 1) = n := by omega
      unfold distances
      dsimp only
      rw [hn, hrest, Multiset.replicate_succ]
      refine isDershowitzMannaLT_of_le (k := depth + 1) (Multiset.le_add_right _ _) le_rfl ?_
      intro i hi
      rw [Multiset.mem_singleton.1 hi]
      exact Nat.lt_succ_of_le (Nat.sub_le _ _)
    · dsimp only at hs'
      split at hs'
      · cases hs'
      · cases hs'
        exact hs

theorem step_meets (hM : M.Closed P) (hdepth : ∀ ρ s, M.stands ρ s → ρ.length ≤ depth)
    {distances : Multiset Nat} (h : Measures M depth distances l) :
    Journaled.Meets P l.step fun r => r.1 = some .exhausted ∨
      ∃ distances', distances'.IsDershowitzMannaLT distances ∧ Measures M depth distances' r.2 := by
  obtain ⟨hstop, hroot, levels, hleaves, rfl⟩ := h
  unfold step
  cases hleaves with
  | @current s edge height levels ρ hcurrent hs hstack =>
    rw [hcurrent]
    exact explore_meets hM hdepth hstop hroot hs hstack height
  | idle hcurrent hstack =>
    rw [hcurrent]
    cases hnodes : l.probe.stack with
    | nil =>
      rw [hnodes] at hstack
      cases hstack
      exact Journaled.Meets.pure (nextProbe_measures hstop hroot)
    | cons top rest =>
      rw [hnodes] at hstack
      dsimp only
      rw [hstop]
      refine (poll_none_meets _).bind fun _ hpoll => ?_
      subst hpoll
      refine (Journaled.Meets.lift (Probe.resume_meets hM hstack hcurrent)).bind ?_
      rintro ⟨⟨s, edge, height⟩, probe⟩ ⟨-, ρ, levels', hs, hstack', rfl⟩
      exact explore_meets (l := { l with probe, stop := none }) hM hdepth rfl hroot hs hstack'
        height

theorem terminates_of_depth (hM : M.Closed P) (hdepth : ∀ ρ s, M.stands ρ s → ρ.length ≤ depth)
    {distances : Multiset Nat} (h : Measures M depth distances l) : Terminates P step l :=
  terminates_of_less Multiset.wellFounded_isDershowitzMannaLT
    (fun _ _ h => step_meets hM hdepth h) h

theorem start_meets (hM : M.Closed P) (hdepth : ∀ ρ s, M.stands ρ s → ρ.length ≤ depth)
    {root : Space} (hroot : M.stands [] root) (limit : Nat) (tracing : Tracing) :
    Journaled.Meets P (start root limit tracing (none : Option σ)) fun l =>
      l.stop = none ∧ Terminates P step l := by
  suffices hstart : Journaled.Meets P (start root limit tracing (none : Option σ)) fun l =>
      ∃ distances, Measures M depth distances l from
    hstart.mono fun l ⟨_, hl⟩ => ⟨hl.1, terminates_of_depth hM hdepth hl⟩
  unfold start reset
  refine (hM.statusOf hroot _).bind fun (status, s, statistics) ⟨hs, _⟩ => ?_
  dsimp only at hs ⊢
  split
  · exact Journaled.Meets.pure ⟨_, rfl, nofun, _, .idle rfl .nil, rfl⟩
  · refine Journaled.Meets.pure ⟨_, rfl, fun s' hs' => ?_, _, .current rfl hs .nil, rfl⟩
    dsimp only at hs'
    split at hs'
    · cases hs'
      exact hs
    · cases hs'

end LimitedDiscrepancy

end ConstraintSearch
