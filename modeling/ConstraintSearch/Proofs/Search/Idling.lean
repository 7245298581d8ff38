import ConstraintSearch.Proofs.Search.Restarts
import ConstraintSearch.Proofs.Search.SpaceTree

/-!
# Restarts without progress

The limit of failures may be reached when the last node of the tree has failed. The path is empty
then: there are no no-goods to post, and the next run is like the one before. If the limits do not
grow, this goes on forever.

* `Idles`, `unfinished_of_idle`: steps that lead back to where they begin;
* `Space.Refuted`: a root below which both nodes fail;
* `DepthFirst.idles_of_refuted`: the steps of a run in such a tree;
* `Restarts.Circles.exists_idles`: the run that follows begins as the last one did;
* `Engine.exists_unfinished_of_refuted`: a search that never returns.
-/

namespace ConstraintSearch

/-! ### Steps that lead nowhere -/

namespace Journaled

variable {α β : Type} {m : Journaled α} {f : α → Journaled β} {a : α}

/-- Whatever was written before, the steps that are given are too few. -/
def Unfinished (m : Journaled α) : Prop := ∀ journal, (m journal).1 = .error .unfinished

theorem Unfinished.bind (hm : m.Unfinished) : (m >>= f).Unfinished := by
  intro journal
  rw [bind_apply, hm journal]
  rfl

theorem Always.unfinished_bind (hm : m.Always a) (hf : (f a).Unfinished) :
    (m >>= f).Unfinished := by
  intro journal
  rw [bind_apply, hm journal]
  exact hf _

end Journaled

section Steps

variable {ε : Type} {step : ε → Journaled (Option Outcome × ε)} {e e' : ε} {I : ε → Prop}

/-- The search makes a step without an outcome, whatever was written before. -/
def Idles (step : ε → Journaled (Option Outcome × ε)) (e e' : ε) : Prop :=
  (step e).Always (none, e')

/-- A search that comes back, after one step at least and without an outcome, uses up any number of
steps. -/
theorem unfinished_of_idle (hback : ∀ e, I e → ∃ e', I e' ∧ Relation.TransGen (Idles step) e e')
    (h : I e) (steps : Nat) : (searchWithin step steps e).Unfinished := by
  -- The search is on its way to where it comes back to.
  suffices hway : ∀ e e', Relation.ReflTransGen (Idles step) e e' → I e' →
      (searchWithin step steps e).Unfinished from hway e e .refl h
  induction steps with
  | zero => exact fun _ _ _ _ _ => rfl
  | succ steps ih =>
    intro e e' hway he'
    rcases Relation.ReflTransGen.cases_head hway with rfl | ⟨e₁, hidles, hrest⟩
    · obtain ⟨e₂, he₂, hback⟩ := hback e he'
      obtain ⟨e₁, hidles, hrest⟩ := Relation.TransGen.head'_iff.1 hback
      exact Journaled.Always.unfinished_bind hidles (ih e₁ e₂ hrest he₂)
    · exact Journaled.Always.unfinished_bind hidles (ih e₁ e' hrest he')

end Steps

/-! ### A tree that is refuted at once -/

/-- A root that splits into two nodes, both of which fail. -/
structure Space.Refuted (s : Space) : Prop where
  status : s.status.Returns (.branch, s)
  exists_failed : ∃ c split first second first' second', s.choice = .ok (c, split) ∧
    c.alternatives = 2 ∧ split.commit c 0 = .ok first ∧ s.commit c 1 = .ok second ∧
    first.status.Returns (.failed, first') ∧ second.status.Returns (.failed, second')

/-- Whether a space with a choice splits into two nodes that fail. -/
def Space.refutes (s : Space) : Bool :=
  match s.choice with
  | .error _ => false
  | .ok (c, split) =>
      match split.commit c 0, s.commit c 1 with
      | .ok first, .ok second => decide (c.alternatives = 2) &&
          first.status.check (·.1 = .failed) && second.status.check (·.1 = .failed)
      | _, _ => false

theorem Space.refuted_of_refutes {s : Space} (hstatus : s.status.Returns (.branch, s))
    (h : s.refutes = true) : s.Refuted := by
  refine ⟨hstatus, ?_⟩
  unfold refutes at h
  split at h
  · cases h
  · rename_i c split hchoice
    split at h
    · rename_i first second hfirst hsecond
      simp only [Bool.and_eq_true, decide_eq_true_eq] at h
      obtain ⟨⟨htwo, hfails₁⟩, hfails₂⟩ := h
      obtain ⟨⟨status₁, first'⟩, hfirst', hfailed₁⟩ := Journaled.exists_of_check hfails₁
      obtain ⟨⟨status₂, second'⟩, hsecond', hfailed₂⟩ := Journaled.exists_of_check hfails₂
      cases of_decide_eq_true hfailed₁
      cases of_decide_eq_true hfailed₂
      exact ⟨c, split, first, second, first', second', hchoice, htwo, hfirst, hsecond, hfirst',
        hsecond'⟩
    · cases h

/-- The status of a space leaves the number of failures. -/
theorem exists_always_statusOf {s s' : Space} {status : SpaceStatus} (statistics : Statistics)
    (h : s.status.Returns (status, s')) : ∃ statistics', statistics'.fails = statistics.fails ∧
      (statusOf s statistics).Always (status, s', statistics') := by
  refine ⟨{ statistics with
    propagations := statistics.propagations + (s'.propagations - s.propagations) }, rfl, ?_⟩
  exact (s.steady_status.always h).bind .pure

namespace Explorer

variable {path path' : Path} {distance : Nat} {statistics : Statistics} {tracing : Tracing}
  {s s' split first : Space} {c : Choice}

/-- A node fails in a search that is not traced. -/
theorem always_explore_failed (distance : Nat) (statistics : Statistics)
    (hevents : tracing.events = none) (h : s.status.Returns (.failed, s'))
    (hpath : path.advance = .ok path') :
    ∃ statistics' tracing', statistics'.fails = statistics.fails + 1 ∧ tracing'.events = none ∧
      (explore ⟨path, none, distance, statistics, tracing, .root, {}⟩ s).Always
        (.failed, ⟨path', none, distance, statistics', tracing', .root, {}⟩) := by
  obtain ⟨statistics', hfails, hstatus⟩ :=
    exists_always_statusOf { statistics with nodes := statistics.nodes + 1 } h
  refine ⟨{ statistics' with fails := statistics'.fails + 1 }, tracing.nextNode.2,
    congrArg (· + 1) hfails, hevents, ?_⟩
  have hinactive : tracing.isActive = false := by rw [Tracing.isActive, hevents]; rfl
  unfold explore
  rw [if_neg (by rw [hinactive]; decide), pure_bind]
  exact hstatus.bind ((Journaled.Always.lift hpath).bind .pure)

/-- The root of a search that is not traced splits into two nodes. -/
theorem always_explore_root (statistics : Statistics) (hevents : tracing.events = none)
    (h : s.status.Returns (.branch, s)) (hchoice : s.choice = .ok (c, split))
    (htwo : c.alternatives = 2) (hfirst : split.commit c 0 = .ok first) :
    ∃ statistics' tracing' id, statistics'.fails = statistics.fails ∧ tracing'.events = none ∧
      (explore ⟨Path.empty 128, none, 0, statistics, tracing, .root, {}⟩ s).Always
        (.branched, ⟨⟨[⟨some s, s.memory, c, 0, 1, id⟩], 128, 1, s.memory⟩, some first, 1,
          statistics', tracing', .root, {}⟩) := by
  obtain ⟨statistics', hfails, hstatus⟩ :=
    exists_always_statusOf { statistics with nodes := statistics.nodes + 1 } h
  refine ⟨{ statistics' with depth := max statistics'.depth 1 }, tracing.nextNode.2,
    tracing.nextNode.1, hfails, hevents, ?_⟩
  have hinactive : tracing.isActive = false := by rw [Tracing.isActive, hevents]; rfl
  have hpush : (Path.empty 128).push c (some s) tracing.nextNode.1 =
      .ok ⟨[⟨some s, s.memory, c, 0, 1, tracing.nextNode.1⟩], 128, 1, s.memory⟩ := by
    unfold Path.push Path.empty
    simp only [htwo, pure_bind, Option.map_some, Option.getD_some, Nat.zero_add]
    rfl
  unfold explore
  rw [if_neg (by rw [hinactive]; decide), pure_bind]
  refine hstatus.bind ((Journaled.Always.lift hchoice).bind ?_)
  refine (Journaled.Always.lift hpush).bind ((Journaled.Always.lift hfirst).bind .pure)

/-- The second node below the root is rebuilt in the copy of the root. -/
theorem always_nextNode_second {id : NodeId} {memory : Nat} {second : Space}
    (hsecond : s.commit c 1 = .ok second) :
    (nextNode ⟨⟨[⟨some s, memory, c, 1, 1, id⟩], 128, 0, memory⟩, none, distance, statistics,
      tracing, .root, {}⟩ none).Always
        (some second, ⟨⟨[⟨none, 0, c, 1, 1, id⟩], 128, 0, 0⟩, none, 0, statistics, tracing, .root,
          {}⟩, none) := by
  have hlessen : lessen memory memory = .ok 0 := by
    unfold lessen
    rw [if_pos (le_refl _), Nat.sub_self]
  have hrebuild : (rebuild ⟨⟨[⟨some s, memory, c, 1, 1, id⟩], 128, 0, memory⟩, none, distance,
      statistics, tracing, .root, {}⟩ none).Always
        (some second, ⟨⟨[⟨none, 0, c, 1, 1, id⟩], 128, 0, 0⟩, none, 0, statistics, tracing, .root,
          {}⟩, none) :=
    (Journaled.Always.lift hlessen).bind ((Journaled.Always.lift hsecond).bind
      (Journaled.Always.pure.bind .pure))
  exact hrebuild.bind .pure

end Explorer

namespace DepthFirst

variable {σ : Type} [StopCondition σ] {s : Space} {statistics : Statistics} {tracing : Tracing}
  {limit : Nat} {e : Explorer} {explored : Explored}

/-- A search without a condition of the user that is about to explore a root. -/
def atRoot (root : Space) (statistics : Statistics) (tracing : Tracing) (limit : Nat) :
    DepthFirst (Cutoff (Option σ)) :=
  ⟨⟨Path.empty 128, some root, 0, statistics, tracing, .root, {}⟩, ⟨none, some limit, false⟩⟩

/-- A step below the limit explores the next node. -/
theorem step_of_lt (hlt : e.statistics.fails < limit) {node : Space} {e₁ e' : Explorer}
    (hnode : (e.nextNode none).Always (some node, e₁, none))
    (hexplore : (e₁.explore node).Always (explored, e')) (hunsolved : ∀ s, explored ≠ .solved s) :
    (step ⟨e, ⟨none, some limit, false⟩⟩ : Journaled (_ × DepthFirst (Cutoff (Option σ)))).Always
      (none, ⟨e', ⟨none, some limit, false⟩⟩) := by
  have hpoll : StopCondition.poll (⟨none, some limit, false⟩ : Cutoff (Option σ)) e.reported =
      .ok (false, ⟨none, some limit, false⟩) := by
    show Except.ok (decide (limit ≤ e.statistics.fails), _) = _
    rw [decide_eq_false (by omega)]
  unfold step
  refine (Journaled.Always.lift hpoll).bind (hnode.bind (hexplore.bind ?_))
  cases explored with
  | solved s => exact absurd rfl (hunsolved s)
  | failed | branched => exact .pure

/-- The three steps that refute a tree of three nodes. The path is empty then. -/
theorem idles_of_refuted (h : s.Refuted) (hevents : tracing.events = none)
    (hlimit : statistics.fails + 2 = limit) :
    ∃ distance statistics' tracing', statistics'.fails = limit ∧ tracing'.events = none ∧
      Relation.TransGen (Idles step) (atRoot (σ := σ) s statistics tracing limit)
        ⟨⟨Path.empty 128, none, distance, statistics', tracing', .root, {}⟩,
          ⟨none, some limit, false⟩⟩ := by
  obtain ⟨c, split, first, second, first', second', hchoice, htwo, hfirst, hsecond, hfails₁,
    hfails₂⟩ := h.exists_failed
  obtain ⟨statistics₁, tracing₁, id, hcount₁, hevents₁, hroot⟩ :=
    Explorer.always_explore_root statistics hevents h.status hchoice htwo hfirst
  have hnext : Path.advance ⟨[⟨some s, s.memory, c, 0, 1, id⟩], 128, 1, s.memory⟩ =
      .ok ⟨[⟨some s, s.memory, c, 1, 1, id⟩], 128, 0, s.memory⟩ := rfl
  have hback : Path.advance ⟨[⟨none, 0, c, 1, 1, id⟩], 128, 0, 0⟩ = .ok (Path.empty 128) := rfl
  obtain ⟨statistics₂, tracing₂, hcount₂, hevents₂, hexplore₁⟩ :=
    Explorer.always_explore_failed 1 statistics₁ hevents₁ hfails₁ hnext
  obtain ⟨statistics₃, tracing₃, hcount₃, hevents₃, hexplore₂⟩ :=
    Explorer.always_explore_failed 0 statistics₂ hevents₂ hfails₂ hback
  refine ⟨0, statistics₃, tracing₃, by omega, hevents₃, ?_⟩
  refine .head (step_of_lt (by show statistics.fails < limit; omega) ?_ hroot nofun)
    (.head (step_of_lt ?_ ?_ hexplore₁ nofun) (.single (step_of_lt ?_
      (Explorer.always_nextNode_second hsecond) hexplore₂ nofun)))
  · exact .pure
  · show statistics₁.fails < limit
    omega
  · exact .pure
  · show statistics₂.fails < limit
    omega

end DepthFirst

/-! ### The run that follows -/

namespace Restarts

variable {σ ρ : Type} [StopCondition σ] [CutoffSequence ρ] {r : Restarts (Option σ) ρ} {m : Space}
  {d d' : DepthFirst (Cutoff (Option σ))} {e : Explorer} {limit : Nat}

/-- A search that is about to explore a root, with a limit of two failures for each run. -/
structure Circles (m : Space) (r : Restarts (Option σ) ρ) : Prop where
  cutoffs : nextLimit r.cutoffs = (2, r.cutoffs)
  restart : r.restart = false
  exploresMaster : r.exploresMaster = true
  master : r.master.status.Returns (.branch, m)
  inner : ∃ statistics tracing, tracing.events = none ∧
    r.inner = .depthFirst (.atRoot m statistics tracing (statistics.fails + 2))

/-- The search with another inner search. -/
def running (r : Restarts (Option σ) ρ) (d : DepthFirst (Cutoff (Option σ))) :
    Restarts (Option σ) ρ := { r with inner := .depthFirst d }

/-- The inner search makes a step without an outcome. -/
theorem idles_inner (hrestart : r.restart = false) (h : Idles DepthFirst.step d d') :
    Idles step (r.running d) (r.running d') := by
  have hinner : (CompleteSearch.step (.depthFirst d)).Always (none, .depthFirst d') :=
    h.bind .pure
  unfold Idles step
  rw [if_neg (by rw [running, hrestart]; decide)]
  exact hinner.bind .pure

/-- The limit is reached. -/
theorem idles_limit (hrestart : r.restart = false) (hreached : limit ≤ e.statistics.fails) :
    Idles step (r.running ⟨e, ⟨none, some limit, false⟩⟩)
      { r.running ⟨e, ⟨none, some limit, false⟩⟩ with restart := true } := by
  let stop : Cutoff (Option σ) := ⟨none, some limit, false⟩
  have hpoll : StopCondition.poll stop e.reported = .ok (true, stop) := by
    show Except.ok (decide (limit ≤ e.statistics.fails), _) = _
    rw [decide_eq_true hreached]
  have hstep : (DepthFirst.step ⟨e, stop⟩).Always (some .stopped, ⟨e, stop⟩) :=
    (Journaled.Always.lift hpoll).bind .pure
  have hinner : (CompleteSearch.step (.depthFirst ⟨e, stop⟩)).Always
      (some .stopped, .depthFirst ⟨e, stop⟩) := hstep.bind .pure
  unfold Idles step
  rw [if_neg (by rw [running, hrestart]; decide)]
  exact hinner.bind .pure

/-- The empty path has no no-goods, and the master is searched again as it is. -/
theorem exists_idles_begin {distance : Nat} {statistics : Statistics} {tracing : Tracing}
    (hcutoffs : nextLimit r.cutoffs = (2, r.cutoffs)) (hrestart : r.restart = true)
    (hexplores : r.exploresMaster = true) (hevents : tracing.events = none)
    (hmaster : r.master.status.Returns (.branch, m))
    (hinner : r.inner = .depthFirst ⟨⟨Path.empty 128, none, distance, statistics, tracing, .root,
      {}⟩, ⟨none, some limit, false⟩⟩) :
    ∃ r', r'.Circles m ∧ Idles step r r' := by
  have hagain := Space.status_of_status hmaster
  obtain ⟨own, -, hstatus⟩ :=
    exists_always_statusOf { r.statistics with restarts := r.statistics.restarts + 1 } hmaster
  obtain ⟨statistics', hfails, hroot⟩ := exists_always_statusOf statistics hagain
  -- The inner search with the next limit, and what it is reset to.
  let d : DepthFirst (Cutoff (Option σ)) := ⟨⟨Path.empty 128, none, distance, statistics, tracing,
    .root, {}⟩, ⟨none, some (statistics.fails + 2), false⟩⟩
  let d' : DepthFirst (Cutoff (Option σ)) :=
    .atRoot m statistics' tracing.round (statistics.fails + 2)
  have hbefore : r.inner.statistics = .ok d.explorer.reported := by
    rw [hinner]
    rfl
  have hlimited : r.limited statistics.fails = { r.running d with
      restart := false
      statistics := { r.statistics with restarts := r.statistics.restarts + 1 } } := by
    unfold limited
    rw [hcutoffs, setLimit, hinner]
    rfl
  have hlearn : (r.limited statistics.fails).learn.Always (true, r.limited statistics.fails) := by
    rw [hlimited]
    unfold learn
    rw [if_neg (by show ¬(!r.exploresMaster) = true; rw [hexplores]; decide)]
    exact .pure
  have hreset : (CompleteSearch.reset m (.depthFirst d)).Always (.depthFirst d') :=
    Journaled.Always.bind (Journaled.Always.bind (hroot.bind .pure) .pure) .pure
  have hround : tracing.round.events = none := by
    show tracing.events.map _ = none
    rw [hevents]
    rfl
  refine ⟨{ r.running d' with
      master := m
      restart := false
      exploresMaster := true
      statistics := own },
    ⟨hcutoffs, rfl, rfl, hagain, statistics', tracing.round, hround, by rw [hfails]; rfl⟩, ?_⟩
  unfold Idles step
  rw [if_pos hrestart, begin_eq]
  refine (Journaled.Always.lift hbefore).bind (hlearn.bind ?_)
  rw [hlimited]
  refine hstatus.bind ?_
  exact Journaled.Always.bind (a := ()) (fun _ => rfl) (hreset.bind .pure)

theorem Circles.exists_idles (h : r.Circles m) (hm : m.Refuted) :
    ∃ r', r'.Circles m ∧ Relation.TransGen (Idles step) r r' := by
  obtain ⟨statistics, tracing, hevents, hinner⟩ := h.inner
  obtain ⟨distance, statistics', tracing', hfails, hevents', hrun⟩ :=
    DepthFirst.idles_of_refuted (σ := σ) hm hevents (rfl : statistics.fails + 2 = _)
  have hrun := hrun.lift r.running fun _ _ => idles_inner h.restart
  have hlimit := idles_limit h.restart hfails.ge
    (e := ⟨Path.empty 128, none, distance, statistics', tracing', .root, {}⟩)
  obtain ⟨r', hr', hbegin⟩ := exists_idles_begin (r := { r.running _ with restart := true })
    h.cutoffs rfl h.exploresMaster hevents' h.master rfl
  refine ⟨r', hr', ?_⟩
  have hr : r = r.running (.atRoot m statistics tracing (statistics.fails + 2)) := by
    rw [running, ← hinner]
  rw [hr]
  exact (hrun.tail hlimit).tail hbegin

omit [StopCondition σ] in
/-- A search begins in such a way. -/
theorem exists_circles {cutoffs : ρ} {s : Space} (hcutoffs : nextLimit cutoffs = (2, cutoffs))
    (hobjective : s.objective = none) (hmaster : s.status.Returns (.branch, m)) :
    ∃ r : Restarts (Option σ) ρ, r.Circles m ∧ (start s 1 {} false cutoffs none).Always r := by
  obtain ⟨statistics, hfails, hroot⟩ := exists_always_statusOf .zero hmaster
  let tracing := (Tracing.start 0 false).round
  let d : DepthFirst (Cutoff (Option σ)) := .atRoot m statistics tracing 2
  have hinner : (CompleteSearch.start s 1 false {} false
      (⟨none, some 2, false⟩ : Cutoff (Option σ))).Always (.depthFirst d) :=
    Journaled.Always.bind (Journaled.Always.bind (hroot.bind .pure) .pure) .pure
  refine ⟨⟨.depthFirst d, s, cutoffs, false, false, true, .zero⟩,
    ⟨hcutoffs, rfl, rfl, hmaster, statistics, tracing, rfl, ?_⟩, ?_⟩
  · rw [hfails]
    rfl
  · unfold start
    rw [hcutoffs, hobjective]
    exact hinner.bind .pure

end Restarts

/-- A search that is restarted after every second failure never returns if the tree has no more. -/
theorem Engine.exists_unfinished_of_refuted {σ ρ : Type} [StopCondition σ] [CutoffSequence ρ]
    {cutoffs : ρ} {s m : Space} (hcutoffs : Restarts.nextLimit cutoffs = (2, cutoffs))
    (hobjective : s.objective = none) (hmaster : s.status.Returns (.branch, m)) (hm : m.Refuted) :
    ∃ e : Engine σ ρ, ∃ rest, (Engine.start .restarts s { cutoffs }).run.Returns (.ok (e, rest)) ∧
      ∀ steps, (e.next steps).Unfinished := by
  obtain ⟨r, hr, hstart⟩ := Restarts.exists_circles (σ := σ) hcutoffs hobjective hmaster
  have hengine : (Engine.start .restarts s ({ cutoffs } : SearchOptions σ ρ)).run.Always
      (.ok (⟨.restarts r, false, false⟩, s)) := by
    rw [Engine.start_eq rfl fun hkind => by cases hkind]
    exact Journaled.Always.bind (hstart.bind .pure) .pure
  refine ⟨⟨.restarts r, false, false⟩, s, ⟨#[], hengine #[]⟩, fun steps => ?_⟩
  have hsearch : (searchWithin Search.step steps (.restarts r)).Unfinished := by
    refine unfinished_of_idle (I := fun search => ∃ r, search = .restarts r ∧ r.Circles m) ?_
      ⟨r, rfl, hr⟩ steps
    rintro _ ⟨r, rfl, hr⟩
    obtain ⟨r', hr', hidles⟩ := hr.exists_idles hm
    exact ⟨.restarts r', ⟨r', rfl, hr'⟩, hidles.lift _ fun _ _ h => h.bind .pure⟩
  exact hsearch.bind

end ConstraintSearch
