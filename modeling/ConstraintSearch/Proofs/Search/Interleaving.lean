import ConstraintSearch.Proofs.Search.Coverage
import ConstraintSearch.Proofs.Search.Engine
import ConstraintSearch.Proofs.Search.Parallel

/-!
# Search by several workers is exact

The sections of the workers may be interleaved in any order, and the solutions may be taken whenever
there are some.

* `ParallelSearch.Step`, `ParallelSearch.Run`: one section, and any number of them, with the
  solutions that were taken on the way;
* `Run.law`, `start_law`: the invariant holds at the beginning, and whatever was run;
* `ParallelSearch.Below`: where an assignment lies;
* `ParallelSearch.Accounts`, `ParallelSearch.Optimises`: no solution is lost or found twice, and
  branch and bound ends with an optimum;
* `Built.parallel_exact`: this holds in whatever order the sections are run.
-/

namespace ConstraintSearch

variable {δ : Prop} {t : Tree} {reported taken : List Space} {a : Assignment} {s : Space}
  {F : Nat → Frontier} {G : Frontier} {w : Worker} {i : Nat} {Open : Set Assignment}

/-! ### Below a worker -/

namespace Worker

/-- The assignment lies below a part of the worker. -/
def Admits (w : Worker) (a : Assignment) : Part → Prop
  | .explored => w.explorer.Admits a
  | .stolen => ∃ s edge, w.phase = .adopting s edge ∧ s.Admits a
  | .found => ∃ s, w.phase = .reporting s ∧ s.Admits a

/-- The worker has stolen a space, and has not begun with it. -/
def isAdopting (w : Worker) : Bool :=
  match w.phase with
  | .adopting _ _ => true
  | _ => false

/-- The worker has no node, no path, no stolen space, and no solution to report. -/
structure IsDone (w : Worker) : Prop where
  phase : w.phase = .idle
  current : w.explorer.current = none
  path : w.explorer.path.edges = []

theorem IsDone.not_admits (h : w.IsDone) (part : Part) : ¬w.Admits a part := by
  cases part with
  | explored =>
    show ¬w.explorer.Admits a
    unfold Explorer.Admits
    rw [h.current, h.path]
    exact not_or.2 ⟨id, id⟩
  | stolen =>
    rintro ⟨s, edge, hphase, -⟩
    cases h.phase.symm.trans hphase
  | found =>
    rintro ⟨s, hphase, -⟩
    cases h.phase.symm.trans hphase

/-- The solutions below a worker that knows of no better one are those it bears. -/
theorem Tracks.admits_iff {F : Frontier} (h : w.Tracks δ t F) (hgoal : t.goal = Set.univ)
    (hbest : w.best = none) (ha : t.Solution a) (part : Part) :
    w.Admits a part ↔ w.Bears F a part := by
  cases part with
  | explored =>
    have hexplores := h.explores
    rw [hbest, Tree.after_none hgoal] at hexplores
    exact hexplores.admits_iff hgoal ha
  | stolen =>
    refine exists_congr fun s => exists_congr fun edge => and_congr_right fun hphase => ?_
    have hsuits := h.suits
    rw [hphase] at hsuits
    exact hsuits.2.admits_iff ha
  | found =>
    refine exists_congr fun s => and_congr_right fun hphase => ?_
    have hsuits := h.suits
    rw [hphase] at hsuits
    exact (Tree.Represents.stands hsuits.stands).admits_iff ha

end Worker

variable {σ : Type}

namespace ParallelSearch

variable {p₀ p p' : ParallelSearch (Option σ)}

/-! ### Sections in any order -/

section Sections

variable [StopCondition σ]

/-- A worker runs its next section. It may steal from any others, in any order. The number of best
solutions is read before the best solution, so that a worker may take up a newer one than it
knows. -/
inductive Step (p : ParallelSearch (Option σ)) : ParallelSearch (Option σ) → Prop
  | work {i : Nat} {w : Worker} {p' : ParallelSearch (Option σ)}
      (hw : p.workers.get? i = some w) (hphase : w.phase = .working)
      (h : (p.work i w).Returns p') : Step p p'
  | leave {i : Nat} {w : Worker} {p' : ParallelSearch (Option σ)}
      (hw : p.workers.get? i = some w) (hphase : w.phase = .leaving)
      (h : p.leave i w = .ok p') : Step p p'
  | steal {i : Nat} {w : Worker} {victims : List Nat} {p' : ParallelSearch (Option σ)}
      (hw : p.workers.get? i = some w) (hphase : w.phase = .idle)
      (hvictims : ∀ v ∈ victims, v < p.workers.size ∧ v ≠ i)
      (h : p.findAmong i w victims = .ok p') : Step p p'
  | adopt {i : Nat} {w : Worker} {s : Space} {edge : EdgeInfo} {p' : ParallelSearch (Option σ)}
      (hw : p.workers.get? i = some w) (hphase : w.phase = .adopting s edge)
      (h : p.adopt i w s edge = .ok p') : Step p p'
  | report {i : Nat} {w : Worker} {s : Space} {p' : ParallelSearch (Option σ)}
      (hw : p.workers.get? i = some w) (hphase : w.phase = .reporting s)
      (h : (p.report i w s).Returns p') : Step p p'
  | lag {i : Nat} {w : Worker} {generation : Nat} (hw : p.workers.get? i = some w)
      (hle : generation ≤ w.generation) :
      Step p { p with workers := p.workers.set i { w with generation } }

/-- The search was reached by any number of sections, and so many solutions were taken from it.
Whose turn it is does not matter. -/
inductive Run (p₀ : ParallelSearch (Option σ)) :
    List Space → ParallelSearch (Option σ) → Prop
  | start : Run p₀ [] p₀
  | step {taken : List Space} {p p' : ParallelSearch (Option σ)} (h : Run p₀ taken p)
      (hstep : p.Step p') : Run p₀ taken p'
  | take {taken solutions : List Space} {s : Space} {p : ParallelSearch (Option σ)}
      (h : Run p₀ taken p) (hs : p.solutions = s :: solutions) :
      Run p₀ (taken ++ [s]) { p with solutions, hasStopped := false }
  | turn {taken : List Space} {p : ParallelSearch (Option σ)} (h : Run p₀ taken p)
      (turn : Nat) : Run p₀ taken { p with turn }

/-- The workers that follow in turn are others. -/
theorem mem_victims {count victim : Nat} (hi : i < count)
    (hvictim : victim ∈ ((List.range count).drop 1).map fun offset => (i + offset) % count) :
    victim < count ∧ victim ≠ i := by
  obtain ⟨offset, hoffset, rfl⟩ := List.mem_map.1 hvictim
  rw [List.range_eq_range', List.drop_range', List.mem_range'_1] at hoffset
  obtain ⟨hpos, hlt⟩ := hoffset
  refine ⟨Nat.mod_lt _ (by omega), ?_⟩
  by_cases hsum : i + offset < count
  · rw [Nat.mod_eq_of_lt hsum]
    omega
  · rw [Nat.mod_eq_sub_mod (not_lt.1 hsum), Nat.mod_eq_of_lt (by omega)]
    omega

/-- The sections that the workers run are steps. -/
theorem Step.of_runSection (h : (p.runSection i).Returns p') : p.Step p' := by
  obtain ⟨w, hw, h⟩ := Journaled.exists_of_returns_bind h
  have hw := Table.fetch_eq_ok.1 (Journaled.of_returns_lift hw)
  cases hphase : w.phase with
  | working =>
    rw [hphase] at h
    exact .work hw hphase h
  | leaving =>
    rw [hphase] at h
    exact .leave hw hphase (Journaled.of_returns_lift h)
  | idle =>
    rw [hphase] at h
    exact .steal hw hphase (fun v hv => mem_victims (lt_of_get? hw) hv)
      (Journaled.of_returns_lift h)
  | adopting s edge =>
    rw [hphase] at h
    exact .adopt hw hphase (Journaled.of_returns_lift h)
  | reporting s =>
    rw [hphase] at h
    exact .report hw hphase h

/-- The sections of some workers, one after the other. -/
def runSections (p : ParallelSearch (Option σ)) (turns : List Nat) :
    Journaled (ParallelSearch (Option σ)) :=
  turns.foldlM runSection p

theorem Run.of_runSections {turns : List Nat} (h : p₀.Run taken p)
    (hp' : (p.runSections turns).Returns p') : p₀.Run taken p' := by
  unfold runSections at hp'
  induction turns generalizing p with
  | nil => exact Journaled.of_returns_pure hp' ▸ h
  | cons i turns ih =>
    rw [List.foldlM_cons] at hp'
    obtain ⟨p₁, hp₁, hp'⟩ := Journaled.exists_of_returns_bind hp'
    exact ih (h.step (.of_runSection hp₁)) hp'

/-- The search lets the workers take turns, and takes the solutions that they report. -/
theorem Run.of_step {outcome : Option Outcome} (h : p₀.Run taken p)
    (hp' : p.step.Returns (outcome, p')) (hstop : p.hasStopped = false)
    (hbroken : p'.isBroken = false) :
    p₀.Run (taken ++ match outcome with
      | some (.solution s) => [s]
      | _ => []) p' := by
  unfold ParallelSearch.step at hp'
  split at hp'
  · rename_i s solutions hsolutions
    cases Journaled.of_returns_pure hp'
    exact h.take hsolutions
  by_cases hended : p.hasStopped = true ∨ p.isBroken = true
  · rw [if_pos hended] at hp'
    cases Journaled.of_returns_pure hp'
    rw [List.append_nil, ← hstop]
    exact h
  rw [if_neg hended] at hp'
  by_cases hbusy : p.busy = 0
  · rw [if_pos hbusy] at hp'
    cases Journaled.of_returns_pure hp'
    rw [List.append_nil]
    exact h
  rw [if_neg hbusy] at hp'
  obtain ⟨p₁, hp₁, hp'⟩ := Journaled.exists_of_returns_bind hp'
  cases Journaled.of_returns_pure hp'
  rw [List.append_nil]
  rcases Journaled.of_returns_tryCatch hp₁ with hp₁ | ⟨fault, hp₁⟩
  · exact (h.turn _).step (.of_runSection hp₁)
  · cases Journaled.of_returns_pure hp₁
    cases hbroken

/-! ### The invariant of a run -/

/-- Whatever section is run, the invariant holds after it. -/
theorem step_law (ht : t.Regular δ) (hgoal : t.goal = Set.univ) (hexact : t.Exact)
    (h : p.Balances δ t reported F) (hstep : p.Step p') : p.Proceeds δ t reported p' := by
  cases hstep with
  | work hw hphase hp' => exact (work_law ht hgoal hexact h hw hphase).of_returns hp'
  | leave hw hphase hp' => exact (leave_law hgoal h hw hphase).of_ok hp'
  | steal hw hphase hvictims hp' => exact (findAmong_law hgoal h hw hphase hvictims).of_ok hp'
  | adopt hw hphase hp' => exact (adopt_law ht hgoal h hw hphase).of_ok hp'
  | report hw hphase hp' => exact (report_law ht h hw hphase).of_returns hp'
  | lag hw hle => exact lag_law h hw hle

/-- Every worker can run its section, unless arithmetic faults. -/
theorem runSection_law (ht : t.Regular δ) (hgoal : t.goal = Set.univ) (hexact : t.Exact)
    (h : p.Balances δ t reported F) (hi : i < p.workers.size) :
    Journaled.Yields δ (p.runSection i) p.Step := by
  have hyields : Journaled.Yields δ (p.runSection i) (p.Proceeds δ t reported) := by
    refine (Journaled.Yields.lift (Table.yields_fetch hi)).bind fun w hw => ?_
    cases hphase : w.phase with
    | working => exact work_law ht hgoal hexact h hw hphase
    | leaving => exact .lift (leave_law hgoal h hw hphase)
    | idle => exact .lift (findAmong_law hgoal h hw hphase fun v hv => mem_victims hi hv)
    | adopting s edge => exact .lift (adopt_law ht hgoal h hw hphase)
    | reporting s => exact report_law ht h hw hphase
  exact hyields.self.mono fun p' hp' => .of_runSection hp'.2

/-- The invariant holds whatever was run. -/
theorem Run.law {F₀ : Nat → Frontier} (ht : t.Regular δ) (hgoal : t.goal = Set.univ)
    (hexact : t.Exact) (h₀ : p₀.Balances δ t p₀.solutions F₀) (h : p₀.Run taken p) :
    p.workers.size = p₀.workers.size ∧ p.shared.isSome = p₀.shared.isSome ∧
      ∃ F, p.Balances δ t (taken ++ p.solutions) F := by
  induction h with
  | start => exact ⟨rfl, rfl, F₀, h₀⟩
  | @step taken p p' _ hstep ih =>
    obtain ⟨hsize, hshared, F, hF⟩ := ih
    obtain ⟨hsize', hshared', new, F', hsolutions, hF'⟩ := step_law ht hgoal hexact hF hstep
    refine ⟨hsize'.trans hsize, hshared'.trans hshared, F', ?_⟩
    rwa [hsolutions, ← List.append_assoc]
  | @take taken solutions s p _ hs ih =>
    obtain ⟨hsize, hshared, F, hF⟩ := ih
    rw [hs] at hF
    refine ⟨hsize, hshared, F, ?_⟩
    rw [List.append_assoc]
    exact ⟨⟨hF.tracks, hF.knows, hF.busy, hF.stop⟩, hF.reports, hF.shares, hF.accounts⟩
  | turn _ _ ih =>
    obtain ⟨hsize, hshared, F, hF⟩ := ih
    exact ⟨hsize, hshared, F, ⟨hF.tracks, hF.knows, hF.busy, hF.stop⟩, hF.reports, hF.shares,
      hF.accounts⟩

end Sections

/-! ### The beginning -/

/-- The first worker has all solutions, and the others have nothing to explore. -/
theorem exists_balances {first : Explorer} {others : List Explorer}
    (hworkers : p.workers = ⟨((first :: others).map Worker.ofExplorer).toArray⟩)
    (hfirst : (Worker.ofExplorer first).Tracks δ t G)
    (hothers : ∀ e ∈ others, (Worker.ofExplorer e).Tracks δ t ⟨[], none⟩)
    (hpending : G.pending t = {a | t.Solution a}) (hbusy : p.busy = others.length + 1)
    (hstop : p.stop = none) (hshared : ∀ g ∈ p.shared, g = ⟨none, 0⟩) :
    ∃ F, p.Balances δ t [] F := by
  have hworker {i : Nat} {w : Worker} (hw : p.workers.get? i = some w) :
      ∃ e, w = .ofExplorer e ∧ (i = 0 ∧ e = first ∨ i ≠ 0 ∧ e ∈ others) := by
    have hget : ((first :: others).map Worker.ofExplorer)[i]? = some w := by
      rw [hworkers] at hw
      exact List.getElem?_toArray ▸ hw
    rw [List.getElem?_map] at hget
    obtain ⟨e, he, rfl⟩ := Option.map_eq_some_iff.1 hget
    refine ⟨e, rfl, ?_⟩
    cases i with
    | zero => exact .inl ⟨rfl, (Option.some.inj he).symm⟩
    | succ i => exact .inr ⟨Nat.succ_ne_zero i, List.mem_of_getElem? he⟩
  set F : Nat → Frontier := fun i => if i = 0 then G else ⟨[], none⟩ with hF
  have hrest {i : Nat} (hi : i ≠ 0) : F i = ⟨[], none⟩ := if_neg hi
  refine ⟨F, ⟨fun i w hw => ?_, fun i w hw => ?_, ?_, hstop⟩, ⟨fun b hb => (by cases hb), .nil⟩,
    ⟨fun g hg => ?_, fun g hg _ => ?_⟩, fun a ha => ?_⟩
  · obtain ⟨e, rfl, ⟨rfl, rfl⟩ | ⟨hi, he⟩⟩ := hworker hw
    · exact hfirst
    · rw [hrest hi]
      exact hothers e he
  · obtain ⟨e, rfl, -⟩ := hworker hw
    exact ⟨fun b hb => (by cases hb), fun _ => rfl, fun g _ => Nat.zero_le _⟩
  · have hlist : p.workers.toList = (first :: others).map Worker.ofExplorer := by
      rw [hworkers]
      rfl
    have hall : ∀ w ∈ (first :: others).map Worker.ofExplorer, w.isBusy = true := by
      intro w hw
      obtain ⟨e, -, rfl⟩ := List.mem_map.1 hw
      rfl
    rw [hlist, List.countP_eq_length.2 hall, List.length_map, hbusy, List.length_cons]
  · rw [hshared g hg]
    rfl
  · rw [hshared g hg]
  · have hmem : a ∈ G.pending t := by
      rw [hpending]
      exact ha.1
    refine ⟨some (0, .explored), ⟨_, by rw [hworkers]; rfl, hmem.2⟩, fun x hx => ?_⟩
    cases x with
    | none => cases hx
    | some x =>
      obtain ⟨j, part⟩ := x
      obtain ⟨w, hw, hbears⟩ := hx
      obtain ⟨e, rfl, hcases⟩ := hworker hw
      obtain ⟨rfl, hregion⟩ := (Worker.Unladen.bears_iff (.inl rfl)).1 hbears
      rcases hcases with ⟨rfl, -⟩ | ⟨hj, -⟩
      · rfl
      · rw [hrest hj] at hregion
        exact absurd hregion (Frontier.not_mem_region _)

/-- A search that has just begun. -/
structure Begins (δ : Prop) (t : Tree) (threads : Nat) (optimising : Bool)
    (p : ParallelSearch (Option σ)) : Prop where
  size : p.workers.size = threads
  shared : p.shared.isSome = optimising
  solutions : p.solutions = []
  balances : ∃ F, p.Balances δ t [] F

/-- At the beginning, the first worker has the whole tree. -/
theorem start_law (ht : t.Regular δ) (hgoal : t.goal = Set.univ) (hs : t.Represents δ s t.whole)
    {threads : Nat} (hthreads : 0 < threads) (optimising : Bool) (exploration : Exploration)
    (recorded : Bool) :
    Journaled.Yields δ (start s threads optimising exploration recorded (none : Option σ))
      (Begins δ t threads optimising) := by
  unfold start
  refine (Explorer.searches_of_start ht hgoal hs).bind ?_
  rintro first ⟨-, G, hopens, hsearches⟩
  refine (Journaled.Yields.note _).bind fun _ _ => Journaled.Yields.pure ?_
  have hafter : t = t.after none := (Tree.after_none hgoal).symm
  have hlength (f : Nat → Explorer) :
      (((List.range threads).drop 1).map f).length + 1 = threads := by
    rw [List.length_map, List.length_drop, List.length_range]
    omega
  refine ⟨?_, by cases optimising <;> rfl, rfl, exists_balances rfl
    ⟨hafter ▸ hsearches.aims, hafter ▸ hsearches.explores.unlimited, trivial⟩ (fun e he => ?_)
    hopens.pending (hlength _).symm rfl fun g hg => ?_⟩
  · refine List.size_toArray.trans ((List.length_map _).trans ?_)
    rw [List.length_cons]
    exact hlength _
  · obtain ⟨index, -, rfl⟩ := List.mem_map.1 he
    exact ⟨hafter ▸ hsearches.aims, Explorer.explores_empty rfl rfl rfl rfl, trivial⟩
  · cases optimising <;> cases hg
    rfl

/-! ### Where solutions lie -/

/-- The assignment lies below a part of a worker. -/
def Below (p : ParallelSearch (Option σ)) (a : Assignment) (place : Nat × Part) : Prop :=
  ∃ w, p.workers.get? place.1 = some w ∧ w.Admits a place.2

/-- Nothing is left to any worker. -/
def IsDone (p : ParallelSearch (Option σ)) : Prop :=
  ∀ i w, p.workers.get? i = some w → w.IsDone

theorem IsDone.not_below (h : p.IsDone) (a : Assignment) (place : Nat × Part) :
    ¬p.Below a place := by
  rintro ⟨w, hw, hadmits⟩
  exact (h _ w hw).not_admits _ hadmits

theorem Staffed.admits_iff (h : p.Staffed δ t reported F) (hgoal : t.goal = Set.univ)
    (hshared : p.shared = none) (ha : t.Solution a) (place : Nat × Part) :
    p.Below a place ↔ p.Bears reported F a (some place) := by
  refine exists_congr fun w => and_congr_right fun hw => ?_
  exact (h.tracks _ w hw).admits_iff hgoal ((h.knows _ w hw).alone hshared) ha _

theorem Staffed.idle (h : p.Staffed δ t reported F) (hbusy : p.busy = 0)
    (hw : p.workers.get? i = some w) : w.phase = .idle := by
  have hnone := List.countP_eq_zero.1 (h.busy.symm.trans hbusy)
  have hmem : w ∈ p.workers.toList := by
    obtain ⟨hi, rfl⟩ := Array.getElem?_eq_some_iff.1 hw
    exact Array.getElem_mem_toList hi
  by_contra hphase
  exact hnone w hmem (Worker.isBusy_iff.2 hphase)

/-- When no worker is busy, nothing is left. -/
theorem Staffed.isDone (h : p.Staffed δ t reported F) (hbusy : p.busy = 0) : p.IsDone := by
  intro i w hw
  have hphase := h.idle hbusy hw
  have hexplores := (h.tracks i w hw).explores
  rw [h.nil_of_idle hw hphase] at hexplores
  refine ⟨hphase, Option.eq_none_iff_forall_ne_some.2 fun s hs => ?_, hexplores.keeps.carries.edges⟩
  obtain ⟨Q, hQ, -⟩ := hexplores.current s hs
  cases hQ

theorem Staffed.not_bears (h : p.Staffed δ t reported F) (hbusy : p.busy = 0)
    (place : Nat × Part) : ¬p.Bears reported F a (some place) := by
  rintro ⟨w, hw, hbears⟩
  have hphase := h.idle hbusy hw
  rw [h.nil_of_idle hw hphase] at hbears
  have hunladen : w.Unladen := .inr (.inr hphase)
  exact Frontier.not_mem_region _ (hunladen.bears_iff.1 hbears).2

/-- Each of the solutions in `Open` lies below one part of one worker, until it is reported. When no
worker is busy, each was reported once. -/
structure Accounts (Open : Set Assignment) (reported : List Space)
    (p : ParallelSearch (Option σ)) : Prop where
  pending : ∀ a ∈ Open, a ∉ reported.map (·.store.assignment) → ∃! place, p.Below a place
  gone : ∀ a ∈ reported.map (·.store.assignment), ∀ place, ¬p.Below a place
  nodup : (reported.map (·.store.assignment)).Nodup
  ended : p.busy = 0 → p.IsDone ∧ Engine.Lists reported Open

/-- Each solution that was reported is better than those before. When no worker is busy, the last
one is an optimum of those in `Open`, or there are none. -/
structure Optimises (o : Objective) (Open : Set Assignment) (reported : List Space)
    (p : ParallelSearch (Option σ)) : Prop where
  improves : (reported.map (·.store.assignment)).Pairwise fun a b => o.Better b a
  ended : p.busy = 0 → p.IsDone ∧
    match reported.getLast? with
    | none => Open = ∅
    | some best => ∀ a ∈ Open, ¬o.Better a best.store.assignment

theorem Balances.accounts_depthFirst (h : p.Balances δ t reported F) (hgoal : t.goal = Set.univ)
    (hshared : p.shared = none) : p.Accounts {a | t.Solution a} reported := by
  have haccounts {a : Assignment} (ha : t.Solution a) : ∃! x, p.Bears reported F a x := by
    refine h.accounts a ⟨ha, fun b _ o ho => ?_⟩
    rw [hshared] at ho
    cases ho
  have hsolution {a : Assignment} (ha : a ∈ reported.map (·.store.assignment)) :
      t.Solution a := by
    obtain ⟨b, hb, rfl⟩ := List.mem_map.1 ha
    exact (h.reports.concludes b hb).solution
  have hgone : ∀ a ∈ reported.map (·.store.assignment), ∀ place, ¬p.Below a place := by
    intro a ha place hbelow
    have hbears := (h.admits_iff hgoal hshared (hsolution ha) place).1 hbelow
    cases (haccounts (hsolution ha)).unique (show p.Bears reported F a none from ha) hbears
  have hpending (a : Assignment) (ha : t.Solution a)
      (hnot : a ∉ reported.map (·.store.assignment)) : ∃! place, p.Below a place := by
    obtain ⟨x, hx, hunique⟩ := haccounts ha
    cases x with
    | none => exact absurd hx hnot
    | some place =>
      refine ⟨place, (h.admits_iff hgoal hshared ha place).2 hx, fun place' hbelow => ?_⟩
      exact Option.some.inj (hunique _ ((h.admits_iff hgoal hshared ha place').1 hbelow))
  have hnodup : (reported.map (·.store.assignment)).Nodup :=
    h.reports.improves.imp fun hab => Ne.symm hab.1
  refine ⟨hpending, hgone, hnodup, fun hbusy => ?_⟩
  have hdone := h.isDone hbusy
  refine ⟨hdone, fun b hb => (h.reports.concludes b hb).assigned, hnodup, fun a => ?_⟩
  refine ⟨fun ha => hsolution ha, fun ha => ?_⟩
  by_contra hnot
  obtain ⟨place, hbelow, -⟩ := hpending a ha hnot
  exact hdone.not_below a place hbelow

theorem Balances.optimises (h : p.Balances δ t reported F) (hshared : p.shared.isSome = true)
    {o : Objective} (ho : o ∈ t.objective) : p.Optimises o {a | t.Solution a} reported := by
  have hsought : t.sought p.shared = t.objective := if_pos hshared
  have himproves := h.reports.improves
  rw [hsought] at himproves
  refine ⟨himproves.imp fun hab => hab.2 o ho, fun hbusy => ⟨h.isDone hbusy, ?_⟩⟩
  -- Nothing contends any more: it would have to be reported, and be better than itself.
  have hnone (a : Assignment) (ha : t.Solution a) :
      ∃ b ∈ reported, ¬o.Better a b.store.assignment := by
    by_contra hnot
    simp only [not_exists, not_and, not_not] at hnot
    have hcontends : t.Contends (t.sought p.shared) reported a := by
      refine ⟨ha, fun b hb o' ho' => ?_⟩
      rw [hsought, Option.mem_def.1 ho] at ho'
      cases ho'
      exact hnot b hb
    obtain ⟨x, hx, -⟩ := h.accounts a hcontends
    cases x with
    | none =>
      obtain ⟨b, hb, rfl⟩ := List.mem_map.1 hx
      exact Objective.not_better_self _ (hnot b hb)
    | some place => exact h.not_bears hbusy place hx
  cases hlast : reported.getLast? with
  | none =>
    rw [List.getLast?_eq_none_iff.1 hlast] at hnone
    refine Set.eq_empty_of_forall_notMem fun a ha => ?_
    obtain ⟨b, hb, -⟩ := hnone a ha
    cases hb
  | some best =>
    intro a ha hbetter
    obtain ⟨b, hb, hnot⟩ := hnone a ha
    rcases h.reports.last hlast hb with rfl | hbest
    · exact hnot hbetter
    · rw [hsought] at hbest
      exact hnot (hbetter.trans (hbest o ho))

/-- Whether a search begins, and the sections of some workers lead to a property that can be
evaluated. -/
def leadsTo (threads : Nat) (optimising : Bool) (exploration : Exploration) (turns : List Nat)
    (property : ParallelSearch (Option Stop) → Bool) (s : Space) : Bool :=
  (start s threads optimising exploration false none).check fun p =>
    (p.runSections turns).check property

theorem exists_of_leadsTo {threads : Nat} {optimising : Bool} {exploration : Exploration}
    {turns : List Nat} {property : ParallelSearch (Option Stop) → Bool}
    (h : leadsTo threads optimising exploration turns property s = true) :
    ∃ p₀ p, (start s threads optimising exploration false none).Returns p₀ ∧ p₀.Run [] p ∧
      property p = true := by
  obtain ⟨p₀, hstart, h⟩ := Journaled.exists_of_check h
  obtain ⟨p, hp, h⟩ := Journaled.exists_of_check h
  exact ⟨p₀, p, hstart, Run.start.of_runSections hp, h⟩

end ParallelSearch

/-- **Search by several workers is exact.** In whatever order the workers run their sections, the
spaces that they report are solutions of what was built. A depth-first search loses none and finds
none twice: until it is reported, each lies below one part of one worker. A branch and bound
improves, and ends with an optimum. Every worker can run its section, unless arithmetic faults. -/
theorem Built.parallel_exact [StopCondition σ] {policy : Policy} {statements : List Statement}
    {s : Space} {objective : Option Objective} {threads : Nat} (h : Built policy statements s)
    (hw : Searchable δ statements) (hcovered : Covered statements s.store)
    (ho : ∀ o ∈ objective, o.variable.Admissible δ s.store) (hthreads : 0 < threads)
    (optimising recorded : Bool) (exploration : Exploration) :
    Journaled.Yields δ
      (ParallelSearch.start { s with objective } threads optimising exploration recorded
        (none : Option σ))
      fun p₀ => ∀ taken p, p₀.Run taken p →
        (∀ s' ∈ taken ++ p.solutions,
          s'.store.Assigned ∧ SolutionOf statements s s'.store.assignment) ∧
        (optimising = false →
          p.Accounts {a | SolutionOf statements s a} (taken ++ p.solutions)) ∧
        (optimising = true → ∀ o ∈ objective,
          p.Optimises o {a | SolutionOf statements s a} (taken ++ p.solutions)) ∧
        ∀ i < threads, Journaled.Yields δ (p.runSection i) p.Step := by
  obtain ⟨t, ht, hgoal, hobjective, hroot, hchain, hcompiles, hrepresents⟩ :=
    h.exists_tree hw.proper hw.branched ho
  have hexact := Tree.exact_of_covered hcompiles hw.distinct hchain hroot hcovered
  have hsolution (a : Assignment) : t.Solution a ↔ SolutionOf statements s a :=
    Tree.solution_iff hcompiles hroot hgoal
  have hOpen : {a | SolutionOf statements s a} = {a | t.Solution a} :=
    Set.ext fun a => (hsolution a).symm
  refine (ParallelSearch.start_law ht hgoal hrepresents hthreads optimising exploration
    recorded).mono fun p₀ hbegins taken p hrun => ?_
  obtain ⟨F₀, hF₀⟩ := hbegins.balances
  rw [← hbegins.solutions] at hF₀
  obtain ⟨hsize, hshared, F, hF⟩ := hrun.law ht hgoal hexact hF₀
  rw [hbegins.size] at hsize
  rw [hbegins.shared] at hshared
  rw [hOpen]
  refine ⟨fun s' hs' => ?_, fun hdepthFirst => ?_, fun hoptimising o ho => ?_, fun i hi => ?_⟩
  · have hconcludes := hF.reports.concludes s' hs'
    exact ⟨hconcludes.assigned, (hsolution _).1 hconcludes.solution⟩
  · rw [hdepthFirst] at hshared
    exact hF.accounts_depthFirst hgoal (Option.not_isSome_iff_eq_none.1 (by rw [hshared]; decide))
  · exact hF.optimises (hshared.trans hoptimising) (hobjective ▸ ho)
  · exact ParallelSearch.runSection_law ht hgoal hexact hF (hsize ▸ hi)

/-- The second of two workers steals, and both are done at last. -/
theorem Built.parallel_exact_differing : ∃ s p₀ p p',
    Built .costOrdered differing s ∧
      (ParallelSearch.start { s with objective := none } 2 false { stealLimit := 0 } false
        (none : Option Stop)).Returns p₀ ∧
      p₀.Run [] p ∧ p.workers.toList.map Worker.isAdopting = [false, true] ∧
      p.Accounts {a | SolutionOf differing s a} p.solutions ∧
      p₀.Run [] p' ∧ p'.busy = 0 ∧ Engine.Lists p'.solutions {a | SolutionOf differing s a} := by
  have hcheck : buildsTo .costOrdered differing (fun s => Covered differing s.store &&
      ParallelSearch.leadsTo 2 false { stealLimit := 0 } [0, 1, 1, 1] (fun p =>
        p.workers.toList.map Worker.isAdopting = [false, true] &&
          (p.runSections (List.replicate 12 [0, 1]).flatten).check fun p' => p'.busy = 0)
        { s with objective := none }) = true := by
    decide +kernel
  obtain ⟨s, hs, hproperty⟩ := exists_built_of_buildsTo hcheck
  obtain ⟨hcovered, hleads⟩ := Bool.and_eq_true_iff.1 hproperty
  obtain ⟨p₀, p, hstart, hrun, hp⟩ := ParallelSearch.exists_of_leadsTo hleads
  obtain ⟨hadopting, hends⟩ := Bool.and_eq_true_iff.1 hp
  obtain ⟨p', hp', hbusy⟩ := Journaled.exists_of_check hends
  have hrun' := hrun.of_runSections hp'
  have hexact : Journaled.Yields False (ParallelSearch.start { s with objective := none } 2 false
      { stealLimit := 0 } false (none : Option Stop)) _ :=
    hs.parallel_exact (by decide) (of_decide_eq_true hcovered) (fun o ho => by cases ho)
      (by decide) false false _
  have hall := hexact.of_returns hstart
  have hbusy : p'.busy = 0 := of_decide_eq_true hbusy
  exact ⟨s, p₀, p, p', hs, hstart, hrun, of_decide_eq_true hadopting,
    (hall [] p hrun).2.1 rfl, hrun', hbusy, (((hall [] p' hrun').2.1 rfl).ended hbusy).2⟩

/-- With two workers as with one, the solution with `x = z = 2 ^ 29` is missed. -/
theorem Built.exists_lost_saturating : ∃ s p₀ p,
    Built .costOrdered saturating s ∧ Searchable False saturating ∧
      Covered saturating s.store ∧
      (ParallelSearch.start s 2 false { stealLimit := 0 } false (none : Option Stop)).Returns p₀ ∧
      p₀.Run [] p ∧ p.busy = 0 ∧
      ∃ a : Assignment, a.Within s.store ∧ (∀ c ∈ postings saturating, c.Holds a) ∧
        a ∉ p.solutions.map (·.store.assignment) := by
  have hcheck : buildsTo .costOrdered saturating (fun s =>
      Covered saturating s.store && s.store.admits [536870912, 536870912] &&
        ParallelSearch.leadsTo 2 false { stealLimit := 0 } (List.replicate 12 [0, 1]).flatten
          (fun p => p.busy = 0 && decide (∀ s ∈ p.solutions, s.store.assignment.ints 0 = 0)) s)
        = true := by
    decide +kernel
  obtain ⟨s, hs, hproperty⟩ := exists_built_of_buildsTo hcheck
  rw [Bool.and_eq_true, Bool.and_eq_true, decide_eq_true_eq] at hproperty
  obtain ⟨⟨hcovered, hadmits⟩, hleads⟩ := hproperty
  obtain ⟨p₀, p, hstart, hrun, hp⟩ := ParallelSearch.exists_of_leadsTo hleads
  rw [Bool.and_eq_true, decide_eq_true_eq, decide_eq_true_eq] at hp
  obtain ⟨hbusy, hzero⟩ := hp
  refine ⟨s, p₀, p, hs, by decide, hcovered, hstart, hrun, hbusy,
    .ofInts [536870912, 536870912], Store.within_of_admits hadmits, by decide, fun hmem => ?_⟩
  obtain ⟨s', hs', heq⟩ := List.mem_map.1 hmem
  have hvalue := hzero s' hs'
  rw [heq] at hvalue
  exact absurd hvalue (by decide)

end ConstraintSearch
