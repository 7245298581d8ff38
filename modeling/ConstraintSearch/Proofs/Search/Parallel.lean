import ConstraintSearch.Proofs.Search.Worker

/-!
# The theory of search by several workers

What the sections of the workers do, in whatever order they are run.

* `ParallelSearch.Staffed`, `ParallelSearch.Balances`: the invariant. Each solution that contends is
  borne by one part of one worker, or was reported;
* `Balances.replace`: a section in which one worker changes; `Balances.stolen`: one in which two do;
* `ParallelSearch.Proceeds`: what a section does, with the solutions that are reported in it;
* `work_law`, `leave_law`, `findAmong_law`, `adopt_law`, `report_law`, `lag_law`: the sections.
-/

namespace ConstraintSearch

variable {δ : Prop} {t : Tree} {reported : List Space} {a : Assignment} {s : Space}
  {F : Nat → Frontier} {G : Frontier} {w w' : Worker} {i : Nat}

/-- The worker is counted as busy. -/
def Worker.isBusy (w : Worker) : Bool :=
  match w.phase with
  | .idle => false
  | _ => true

theorem Worker.isBusy_iff : w.isBusy = true ↔ w.phase ≠ .idle := by
  unfold isBusy
  cases w.phase <;> simp

namespace ParallelSearch

variable {σ : Type} {p p' : ParallelSearch (Option σ)}

/-! ### The invariant -/

/-- The workers have the frontiers `F`, and know of solutions that were reported. Those that are not
idle are counted. -/
structure Staffed (δ : Prop) (t : Tree) (reported : List Space) (F : Nat → Frontier)
    (p : ParallelSearch (Option σ)) : Prop where
  tracks : ∀ i w, p.workers.get? i = some w → w.Tracks δ t (F i)
  knows : ∀ i w, p.workers.get? i = some w → w.Knows reported p.shared
  busy : p.busy = p.workers.toList.countP (·.isBusy)
  stop : p.stop = none

/-- What bears the assignment: a part of a worker with the frontier `F i`, or what was reported. -/
def Bears (reported : List Space) (F : Nat → Frontier) (p : ParallelSearch (Option σ))
    (a : Assignment) : Option (Nat × Part) → Prop
  | none => a ∈ reported.map (·.store.assignment)
  | some (i, part) => ∃ w, p.workers.get? i = some w ∧ w.Bears (F i) a part

/-- Each solution that contends is borne by one part of one worker, or was reported. -/
structure Balances (δ : Prop) (t : Tree) (reported : List Space) (F : Nat → Frontier)
    (p : ParallelSearch (Option σ)) : Prop
    extends p.Staffed δ t reported F where
  reports : t.Reports δ (t.sought p.shared) reported
  shares : Shares reported p.shared
  accounts : ∀ a, t.Contends (t.sought p.shared) reported a → ∃! x, p.Bears reported F a x

/-- A worker is replaced by what it has become. -/
structure Replaces (p : ParallelSearch (Option σ)) (i : Nat) (w' : Worker)
    (p' : ParallelSearch (Option σ)) : Prop where
  workers : p'.workers = p.workers.set i w'
  shared : p'.shared = p.shared
  stop : p'.stop = p.stop
  solutions : p'.solutions = p.solutions

theorem lt_of_get? (hw : p.workers.get? i = some w) : i < p.workers.size :=
  (Array.getElem?_eq_some_iff.1 hw).1

theorem Replaces.get? (h : p.Replaces i w' p') (hw : p.workers.get? i = some w) (j : Nat) :
    p'.workers.get? j = if i = j then some w' else p.workers.get? j := by
  rw [h.workers, Table.get?_set, if_pos (lt_of_get? hw)]

theorem Replaces.count (h : p.Replaces i w' p') (hw : p.workers.get? i = some w) :
    p'.workers.toList.countP (·.isBusy) + (if w.isBusy then 1 else 0) =
      p.workers.toList.countP (·.isBusy) + if w'.isBusy then 1 else 0 := by
  have hlt : i < p.workers.toList.length := by
    rw [Table.toList, Array.length_toList]
    exact lt_of_get? hw
  have hget : p.workers.toList[i] = w := by
    have hi := hw
    unfold Table.get? at hi
    rw [← Array.getElem?_toList] at hi
    exact (List.getElem?_eq_some_iff.1 hi).2
  have hset : p'.workers.toList = p.workers.toList.set i w' := by
    rw [h.workers]
    exact Array.toList_setIfInBounds
  have hle : (if w.isBusy then 1 else 0) ≤ p.workers.toList.countP (·.isBusy) := by
    split
    · rename_i hbusy
      exact List.countP_pos_iff.2 ⟨w, hget ▸ List.getElem_mem hlt, hbusy⟩
    · exact Nat.zero_le _
  rw [hset, List.countP_set hlt, hget]
  omega

/-- The others are as before. -/
theorem Staffed.replace (h : p.Staffed δ t reported F) (hp : p.Replaces i w' p')
    (hw : p.workers.get? i = some w) (htracks : w'.Tracks δ t G)
    (hknows : w'.Knows reported p.shared)
    (hbusy : p'.busy + (if w.isBusy then 1 else 0) = p.busy + if w'.isBusy then 1 else 0) :
    p'.Staffed δ t reported (Function.update F i G) where
  tracks j v hv := by
    rw [hp.get? hw] at hv
    by_cases hj : i = j
    · subst hj
      rw [if_pos rfl] at hv
      cases hv
      rwa [Function.update_self]
    · rw [if_neg hj] at hv
      rw [Function.update_of_ne (Ne.symm hj)]
      exact h.tracks j v hv
  knows j v hv := by
    rw [hp.get? hw] at hv
    rw [hp.shared]
    by_cases hj : i = j
    · rw [if_pos hj] at hv
      cases hv
      exact hknows
    · rw [if_neg hj] at hv
      exact h.knows j v hv
  busy := by
    have hcount := hp.count hw
    have hbefore := h.busy
    omega
  stop := hp.stop.trans h.stop

theorem Replaces.bears_iff (hp : p.Replaces i w' p') (hw : p.workers.get? i = some w) {j : Nat}
    {x : Part} : p'.Bears reported (Function.update F i G) a (some (j, x)) ↔
      if i = j then w'.Bears G a x else p.Bears reported F a (some (j, x)) := by
  unfold Bears
  dsimp only
  rw [hp.get? hw]
  by_cases hj : i = j
  · subst hj
    rw [if_pos rfl, if_pos rfl, Function.update_self]
    simp
  · rw [if_neg hj, if_neg hj, Function.update_of_ne (Ne.symm hj)]

theorem bears_iff (hw : p.workers.get? i = some w) {x : Part} :
    p.Bears reported F a (some (i, x)) ↔ w.Bears (F i) a x := by
  unfold Bears
  simp [hw]

/-- What moves between the parts of one worker. -/
theorem moves_of_replaces (hp : p.Replaces i w' p') (hw : p.workers.get? i = some w) {x y : Part}
    (h : Moves (w.Bears (F i) a) (w'.Bears G a) x y) :
    Moves (p.Bears reported F a) (p'.Bears reported (Function.update F i G) a) (some (i, x))
      (some (i, y)) where
  either := by
    rw [hp.bears_iff hw, hp.bears_iff hw, if_pos rfl, if_pos rfl, bears_iff hw, bears_iff hw]
    exact h.either
  alone hne := by
    rw [hp.bears_iff hw, hp.bears_iff hw, if_pos rfl, if_pos rfl]
    exact h.alone fun heq => hne (by rw [heq])
  others z hx hy := by
    cases z with
    | none => exact Iff.rfl
    | some z =>
      obtain ⟨j, z⟩ := z
      rw [hp.bears_iff hw]
      by_cases hj : i = j
      · subst hj
        rw [if_pos rfl, bears_iff hw]
        exact h.others z (fun heq => hx (by rw [heq])) fun heq => hy (by rw [heq])
      · rw [if_neg hj]

/-- A section in which only one worker changes, and no solution is lost or found again. -/
theorem Balances.replace (h : p.Balances δ t reported F) (hp : p.Replaces i w' p')
    (hw : p.workers.get? i = some w) (htracks : w'.Tracks δ t G)
    (hknows : w'.Knows reported p.shared)
    (hbusy : p'.busy + (if w.isBusy then 1 else 0) = p.busy + if w'.isBusy then 1 else 0)
    (x y : Part) (hmoves : ∀ a, t.Contends (t.sought p.shared) reported a →
      Moves (w.Bears (F i) a) (w'.Bears G a) x y) :
    p'.Balances δ t reported (Function.update F i G) where
  toStaffed := h.toStaffed.replace hp hw htracks hknows hbusy
  reports := hp.shared.symm ▸ h.reports
  shares := hp.shared.symm ▸ h.shares
  accounts a ha := by
    rw [hp.shared] at ha
    exact (moves_of_replaces hp hw (hmoves a ha)).existsUnique (h.accounts a ha)

/-! ### What the sections do -/

/-- After a section the invariant holds again, with the solutions that were reported in it. -/
def Proceeds (δ : Prop) (t : Tree) (reported : List Space) (p p' : ParallelSearch (Option σ)) :
    Prop :=
  p'.workers.size = p.workers.size ∧ p'.shared.isSome = p.shared.isSome ∧
    ∃ new F, p'.solutions = p.solutions ++ new ∧ p'.Balances δ t (reported ++ new) F

/-- Nothing is reported in the section. -/
theorem Balances.silent (h : p'.Balances δ t reported F)
    (hsize : p'.workers.size = p.workers.size) (hshared : p'.shared = p.shared)
    (hsolutions : p'.solutions = p.solutions) : p.Proceeds δ t reported p' := by
  refine ⟨hsize, by rw [hshared], [], F, ?_, ?_⟩
  · rw [hsolutions, List.append_nil]
  · rwa [List.append_nil]

theorem Replaces.proceeds (hp : p.Replaces i w' p') (h : p'.Balances δ t reported F) :
    p.Proceeds δ t reported p' :=
  h.silent (by rw [hp.workers, Table.size_set]) hp.shared hp.solutions

theorem Statistics.yields_addCounters (a b : Nat) :
    Yields δ (Statistics.addCounters a b) fun _ => True := by
  unfold Statistics.addCounters
  split
  · exact trivial
  · exact trivial

theorem yields_accumulate (total other : Statistics) :
    Yields δ (total.accumulate other) fun _ => True := by
  have hadd := Statistics.yields_addCounters (δ := δ)
  unfold Statistics.accumulate
  refine (hadd _ _).bind fun _ _ => (hadd _ _).bind fun _ _ => (hadd _ _).bind fun _ _ =>
    (hadd _ _).bind fun _ _ => (hadd _ _).bind fun _ _ => (hadd _ _).bind fun _ _ =>
    (hadd _ _).bind fun _ _ => Yields.pure trivial

/-- Without a stop condition, the search is not stopped. -/
theorem pollStop_law [StopCondition σ] (hstop : p.stop = none) (index : Nat)
    (statistics : Statistics) :
    Yields δ (p.pollStop index statistics) fun r =>
      r.1 = false ∧ ∃ polled, r.2 = { p with polled } := by
  have hfold (total : Statistics) (all : List Statistics) :
      Yields δ (all.foldlM Statistics.accumulate total) fun _ => True := by
    induction all generalizing total with
    | nil => exact trivial
    | cons statistics all ih =>
      rw [List.foldlM_cons]
      exact (yields_accumulate _ _).bind fun total _ => ih total
  unfold pollStop
  refine (hfold _ _).bind fun total _ => ?_
  rw [hstop]
  refine Yields.pure ⟨rfl, p.polled.set index statistics, ?_⟩
  rw [← hstop]

/-- What a worker has become that was busy and is busy still. -/
theorem Balances.proceeds (h : p.Balances δ t reported F) (hp : p.Replaces i w' p')
    (hw : p.workers.get? i = some w) (hcount : p'.busy = p.busy) (hbusy : w'.isBusy = w.isBusy)
    (htracks : w'.Tracks δ t G) (hknows : w'.Knows reported p.shared) (x y : Part)
    (hmoves : ∀ a, t.Contends (t.sought p.shared) reported a →
      Moves (w.Bears (F i) a) (w'.Bears G a) x y) : p.Proceeds δ t reported p' :=
  hp.proceeds (h.replace hp hw htracks hknows (by rw [hcount, hbusy]) x y hmoves)

theorem work_law [StopCondition σ] (ht : t.Regular δ) (hgoal : t.goal = Set.univ) (hexact : t.Exact)
    (h : p.Balances δ t reported F) (hw : p.workers.get? i = some w) (hphase : w.phase = .working) :
    Journaled.Yields δ (p.work i w) (p.Proceeds δ t reported) := by
  have hupdate := Worker.update_law ht (h.tracks i w hw) (h.knows i w hw) h.reports h.shares
  unfold work
  refine (Journaled.Yields.lift hupdate).bind ?_
  rintro w₁ ⟨htracks, hknows, hphase₁⟩
  have hphase₁ := hphase₁.trans hphase
  have hunladen : w.Unladen := .inl hphase
  have hunladen₁ : w₁.Unladen := .inl hphase₁
  have hworking : w.isBusy = true := Worker.isBusy_iff.2 (hphase ▸ nofun)
  have hbears (a : Assignment) : w₁.Bears (F i) a = w.Bears (F i) a := by
    funext x
    exact propext (hunladen₁.bears_iff.trans hunladen.bears_iff.symm)
  -- Whatever the worker has become, it looks for what contends.
  have hproceeds {w' : Worker} {G : Frontier} {p' : ParallelSearch (Option σ)}
      (hp : p.Replaces i w' p') (hcount : p'.busy = p.busy) (hbusy : w'.isBusy = true)
      (htracks' : w'.Tracks δ t G) (hbest : w'.best = w₁.best)
      (hgeneration : w'.generation = w₁.generation)
      (hmoves : ∀ a, (t.after w₁.best).Solution a →
        Moves (w₁.Bears (F i) a) (w'.Bears G a) .explored .found) : p.Proceeds δ t reported p' := by
    refine h.proceeds hp hw hcount (hbusy.trans hworking.symm) htracks'
      (hknows.congr hbest hgeneration.le) .explored .found fun a ha => ?_
    exact hbears a ▸ hmoves a (hknows.solution_after hgoal h.reports ha)
  dsimp only
  cases hcurrent : w₁.explorer.current with
  | some s =>
    dsimp only
    refine (Journaled.Yields.lift (pollStop_law h.stop i _)).bind ?_
    rintro ⟨holds, q⟩ ⟨hholds, polled, hq⟩
    dsimp only at hholds hq ⊢
    subst hholds hq
    rw [if_neg Bool.false_ne_true]
    refine (Worker.explore_law ht hgoal hexact htracks hphase₁ hcurrent).bind ?_
    rintro ⟨outcome, explorer⟩ ⟨G, htracks', hmoves⟩
    cases outcome with
    | solved s' =>
      exact Journaled.Yields.pure
        (hproceeds ⟨rfl, rfl, rfl, rfl⟩ rfl rfl htracks' rfl rfl hmoves)
    | failed | branched =>
      exact Journaled.Yields.pure (hproceeds ⟨rfl, rfl, rfl, rfl⟩ rfl
        (Worker.isBusy_iff.2 (hphase₁ ▸ nofun)) htracks' rfl rfl hmoves)
  | none =>
    dsimp only
    by_cases hempty : w₁.explorer.path.isEmpty = true
    · rw [if_pos hempty]
      have hnil := htracks.eq_nil hcurrent hempty
      rw [hnil] at htracks hproceeds
      refine Journaled.Yields.pure (hproceeds ⟨rfl, rfl, rfl, rfl⟩ rfl rfl
        ⟨htracks.aims, ?_, rfl⟩ rfl rfl fun a ha => ?_)
      · have hcarries := htracks.explores.keeps.carries
        exact Explorer.explores_empty hcarries.edges hcarries.memory hcarries.work rfl
      · exact hunladen₁.moves (.inr (.inl rfl)) nofun rfl ha
    · rw [if_neg hempty]
      refine (Worker.nextNode_law ht htracks hphase₁).bind ?_
      rintro ⟨current, explorer, bound⟩ ⟨G, htracks', hmoves⟩
      exact Journaled.Yields.pure (hproceeds ⟨rfl, rfl, rfl, rfl⟩ rfl
        (Worker.isBusy_iff.2 (hphase₁ ▸ nofun)) htracks' rfl rfl hmoves)

theorem leave_law (hgoal : t.goal = Set.univ) (h : p.Balances δ t reported F)
    (hw : p.workers.get? i = some w)
    (hphase : w.phase = .leaving) : Yields δ (p.leave i w) (p.Proceeds δ t reported) := by
  have hbusy : w.isBusy = true := Worker.isBusy_iff.2 (hphase ▸ nofun)
  have htracks := h.tracks i w hw
  have hnil : F i = ⟨[], none⟩ := by
    have hsuits := htracks.suits
    rw [hphase] at hsuits
    exact hsuits
  have hreplaces (busy : Nat) : p.Replaces i { w with phase := .idle }
      { p with busy, workers := p.workers.set i { w with phase := .idle } } := ⟨rfl, rfl, rfl, rfl⟩
  have hidle : ¬Worker.isBusy { w with phase := .idle } = true := Bool.false_ne_true
  have hcount := (hreplaces 0).count hw
  rw [if_pos hbusy, if_neg hidle] at hcount
  have hbefore := h.busy
  have hunladen : w.Unladen := .inr (.inl hphase)
  unfold leave
  refine (yields_lessen (by omega)).bind fun busy hlessened => Yields.pure ?_
  refine (hreplaces busy).proceeds (h.replace (hreplaces busy) hw
    ⟨htracks.aims, htracks.explores, hnil⟩ ((h.knows i w hw).congr rfl le_rfl) ?_ .explored .found
    fun a ha => ?_)
  · rw [if_pos hbusy, if_neg hidle]
    show busy + 1 = p.busy + 0
    omega
  · exact hunladen.moves (.inr (.inr rfl)) nofun rfl
      ((h.knows i w hw).solution_after hgoal h.reports ha)

/-- A worker that lags behind the best solutions is not aware of this. -/
theorem lag_law (h : p.Balances δ t reported F)
    (hw : p.workers.get? i = some w) {generation : Nat} (hle : generation ≤ w.generation) :
    p.Proceeds δ t reported { p with workers := p.workers.set i { w with generation } } := by
  have htracks := h.tracks i w hw
  refine h.proceeds ⟨rfl, rfl, rfl, rfl⟩ hw rfl rfl ⟨htracks.aims, htracks.explores, htracks.suits⟩
    ((h.knows i w hw).congr rfl hle) .explored .explored fun a _ => Moves.refl _ _

/-- A worker begins with the subtree that it has stolen. -/
theorem adopt_law (ht : t.Regular δ) (hgoal : t.goal = Set.univ) (h : p.Balances δ t reported F)
    (hw : p.workers.get? i = some w) {edge : EdgeInfo} (hphase : w.phase = .adopting s edge) :
    Yields δ (p.adopt i w s edge) (p.Proceeds δ t reported) := by
  have htracks := h.tracks i w hw
  obtain ⟨hnil, hs⟩ : F i = ⟨[], none⟩ ∧ t.Represents δ s s.boxes := by
    have hsuits := htracks.suits
    rw [hphase] at hsuits
    exact hsuits
  have hadopted {s' : Space}
      (hs' : (t.after w.best).Represents δ s' (s.boxes ∩ (t.after w.best).goal)) :
      p.Proceeds δ t reported (p.store i w
        { w with phase := .working, mark := 0, explorer := w.explorer.adopt s' edge }) := by
    have haims := htracks.aims
    refine h.proceeds ⟨rfl, rfl, rfl, rfl⟩ hw rfl ?_
      ⟨⟨fun _ => rfl, haims.all, haims.sound, haims.size, haims.goal⟩,
        Explorer.adopt_law _ hs' edge, trivial⟩
      ((h.knows i w hw).congr rfl le_rfl) .stolen .explored fun a _ => ?_
    · unfold Worker.isBusy
      rw [hphase]
    · have hunladen : Worker.Unladen
          { w with phase := .working, mark := 0, explorer := w.explorer.adopt s' edge } := .inl rfl
      have hbefore : ¬w.Bears (F i) a .explored := hnil ▸ Frontier.not_mem_region a.box
      refine ⟨?_, fun _ hboth => ?_, fun x hx hy => ?_⟩
      · rw [hunladen.bears_iff, hunladen.bears_iff, Worker.bears_stolen hphase, Frontier.region_nil]
        simp [hbefore]
      · exact nomatch (hunladen.bears_iff.1 hboth.1).1
      · rw [hunladen.bears_iff]
        cases x with
        | stolen => exact absurd rfl hx
        | explored => exact absurd rfl hy
        | found => exact iff_of_false (fun hpart => nomatch hpart.1) (Worker.not_bears_found hphase)
  have hall (G : Set Box) : G ⊆ t.goal := hgoal ▸ Set.subset_univ G
  unfold adopt
  cases hbest : w.best with
  | none =>
    rw [hbest] at hadopted
    refine Yields.pure (hadopted ?_)
    have hs := hs.retarget (hall Set.univ)
    rw [← Set.inter_univ s.boxes] at hs
    exact hs
  | some b =>
    rw [hbest] at hadopted
    have hb := h.reports.concludes b ((h.knows i w hw).best b hbest)
    have hconstrain := Tree.constrain_law hs ht.objective hb.stands.frames.sound
      hb.stands.frames.narrows.size_ints
    refine hconstrain.bind fun s' hs' => Yields.pure (hadopted ?_)
    exact hs'.retarget (hall _)

theorem Staffed.nil_of_idle (h : p.Staffed δ t reported F) (hw : p.workers.get? i = some w)
    (hphase : w.phase = .idle) : F i = ⟨[], none⟩ := by
  have hsuits := (h.tracks i w hw).suits
  rw [hphase] at hsuits
  exact hsuits

/-- What the victim has given away is borne by the thief. -/
theorem moves_of_stolen {R : Set Box} {victim : Nat} {v : Worker} {path : Path} {edge : EdgeInfo}
    {p₁ p₂ : ParallelSearch (Option σ)} (hne : victim ≠ i)
    (hv : p.workers.get? victim = some v) (hw : p.workers.get? i = some w)
    (hw₁ : p₁.workers.get? i = some w)
    (hp₁ : p.Replaces victim { v with explorer := { v.explorer with path } } p₁)
    (hp₂ : p₁.Replaces i { w with phase := .adopting s edge } p₂) (hphase : w.phase = .idle)
    (hnil : F i = ⟨[], none⟩) (hshared : SharedOut (F victim).region G.region R)
    (hR : a.box ∈ s.boxes ↔ a.box ∈ R) :
    Moves (p.Bears reported F a)
      (p₂.Bears reported (Function.update (Function.update F victim G) i ⟨[], none⟩) a)
      (some (victim, .explored)) (some (i, .stolen)) := by
  set v' : Worker := { v with explorer := { v.explorer with path } }
  set w' : Worker := { w with phase := .adopting s edge }
  have hunladen : w.Unladen := .inr (.inr hphase)
  have hstolen : w'.Bears ⟨[], none⟩ a .stolen ↔ a.box ∈ R := (Worker.bears_stolen rfl).trans hR
  have hbears (j : Nat) (z : Part) : p₂.Bears reported
      (Function.update (Function.update F victim G) i ⟨[], none⟩) a (some (j, z)) ↔
        if i = j then w'.Bears ⟨[], none⟩ a z
        else if victim = j then v'.Bears G a z else p.Bears reported F a (some (j, z)) := by
    rw [hp₂.bears_iff hw₁, hp₁.bears_iff hv]
  refine ⟨?_, fun _ => ?_, fun x hx hy => ?_⟩
  · have hnone : ¬w.Bears (F i) a .stolen := fun hpart => nomatch (hunladen.bears_iff.1 hpart).1
    rw [hbears, hbears, if_neg (Ne.symm hne), if_pos rfl, if_pos rfl, bears_iff hv, bears_iff hw,
      hstolen, or_iff_left hnone]
    exact (hshared a).1.symm
  · rw [hbears, hbears, if_neg (Ne.symm hne), if_pos rfl, if_pos rfl, hstolen]
    exact (hshared a).2
  · cases x with
    | none => exact Iff.rfl
    | some x =>
      obtain ⟨j, z⟩ := x
      rw [hbears]
      by_cases hi : i = j
      · subst hi
        rw [if_pos rfl, bears_iff hw, hnil]
        cases z with
        | explored => exact Iff.rfl
        | stolen => exact absurd rfl hy
        | found => exact iff_of_false (Worker.not_bears_found rfl) fun hpart =>
            nomatch (hunladen.bears_iff.1 hpart).1
      · rw [if_neg hi]
        by_cases hj : victim = j
        · subst hj
          rw [if_pos rfl, bears_iff hv]
          cases z with
          | explored => exact absurd rfl hx
          | stolen | found => exact Iff.rfl
        · rw [if_neg hj]

/-- An idle worker steals. First the victim changes, and then the thief. -/
theorem Balances.stolen {R : Set Box} {victim : Nat} {v : Worker} {path : Path}
    (hgoal : t.goal = Set.univ) (h : p.Balances δ t reported F) (hw : p.workers.get? i = some w)
    (hphase : w.phase = .idle) (hv : p.workers.get? victim = some v) (hne : victim ≠ i)
    (hs : (t.after v.best).Represents δ s R)
    (hexplores : Explorer.Explores δ (t.after v.best) none v.mark { v.explorer with path } G)
    (hleft : F victim ≠ ⟨[], none⟩) (hshared : SharedOut (F victim).region G.region R)
    (edge : EdgeInfo) :
    p.Proceeds δ t reported { p with
      workers := (p.workers.set victim { v with explorer := { v.explorer with path } }).set i
        { w with phase := .adopting s edge }
      busy := p.busy + 1 } := by
  set p₁ : ParallelSearch (Option σ) := { p with
    workers := p.workers.set victim { v with explorer := { v.explorer with path } } } with hp₁'
  set p₂ : ParallelSearch (Option σ) := { p₁ with
    workers := p₁.workers.set i { w with phase := .adopting s edge }
    busy := p.busy + 1 } with hp₂'
  have hp₁ : p.Replaces victim { v with explorer := { v.explorer with path } } p₁ :=
    ⟨rfl, rfl, rfl, rfl⟩
  have hp₂ : p₁.Replaces i { w with phase := .adopting s edge } p₂ := ⟨rfl, rfl, rfl, rfl⟩
  have hw₁ : p₁.workers.get? i = some w := by
    rw [hp₁.get? hv, if_neg hne]
    exact hw
  have hnil := h.nil_of_idle hw hphase
  have hvictim := h.tracks victim v hv
  have hstaffed₁ : p₁.Staffed δ t reported (Function.update F victim G) :=
    h.toStaffed.replace hp₁ hv ⟨hvictim.aims, hexplores, Worker.suits_of_ne hvictim.suits hleft⟩
      ((h.knows victim v hv).congr rfl le_rfl) rfl
  have hthief := h.tracks i w hw
  rw [hnil] at hthief
  have hstaffed₂ : p₂.Staffed δ t reported
      (Function.update (Function.update F victim G) i ⟨[], none⟩) := by
    refine hstaffed₁.replace hp₂ hw₁ ⟨hthief.aims, hthief.explores, rfl, hs.boxes⟩
      ((h.knows i w hw).congr rfl le_rfl) ?_
    have hidle : ¬w.isBusy = true := fun hbusy => Worker.isBusy_iff.1 hbusy hphase
    rw [if_neg hidle]
    rfl
  have hbalances : p₂.Balances δ t reported
      (Function.update (Function.update F victim G) i ⟨[], none⟩) := by
    refine ⟨hstaffed₂, h.reports, h.shares, fun a ha => ?_⟩
    have hR : a.box ∈ s.boxes ↔ a.box ∈ R :=
      hs.mem_boxes ((h.knows victim v hv).solution_after hgoal h.reports ha).2
    exact (moves_of_stolen hne hv hw hw₁ hp₁ hp₂ hphase hnil hshared hR).existsUnique
      (h.accounts a ha)
  exact hbalances.silent (by rw [hp₂.workers, hp₁.workers, Table.size_set, Table.size_set]) rfl rfl

theorem findAmong_law (hgoal : t.goal = Set.univ) (h : p.Balances δ t reported F)
    (hw : p.workers.get? i = some w) (hphase : w.phase = .idle) {victims : List Nat}
    (hvictims : ∀ v ∈ victims, v < p.workers.size ∧ v ≠ i) :
    Yields δ (p.findAmong i w victims) (p.Proceeds δ t reported) := by
  induction victims with
  | nil => exact Yields.pure (h.silent rfl rfl rfl)
  | cons victim victims ih =>
    obtain ⟨⟨hlt, hne⟩, hvictims⟩ := List.forall_mem_cons.1 hvictims
    unfold findAmong
    refine (Table.yields_fetch hlt).bind fun v hv => ?_
    by_cases hwork : v.explorer.path.hasStealableWork p.stealLimit = true
    · rw [hwork, Bool.not_true, if_neg Bool.false_ne_true]
      refine (Explorer.steal_law (h.tracks victim v hv).explores p.stealLimit).bind ?_
      rintro (_ | ⟨s, edge, path⟩) hrobs
      · exact ih hvictims
      · obtain ⟨R, G, hs, hexplores, hleft, hshared⟩ := hrobs
        exact Yields.pure (h.stolen hgoal hw hphase hv hne hs hexplores hleft hshared edge)
    · rw [Bool.eq_false_of_not_eq_true hwork, Bool.not_false, if_pos rfl]
      exact ih hvictims

/-- The solution of a worker that has found `s` is borne by what is reported afterwards. -/
theorem moves_of_announced {s' : Space} {q : ParallelSearch (Option σ)}
    (hp : p.Replaces i { w with phase := .working } q) (hw : p.workers.get? i = some w)
    (hphase : w.phase = .reporting s) (heq : s'.store.assignment = s.store.assignment)
    (hfound : w.Bears (F i) a .found ↔ a = s.store.assignment) :
    Moves (p.Bears reported F a) (q.Bears (reported ++ [s']) F a) (some (i, .found)) none := by
  set w' : Worker := { w with phase := .working }
  have hunladen : w'.Unladen := .inl rfl
  have hmem : a ∈ (reported ++ [s']).map (·.store.assignment) ↔
      a ∈ reported.map (·.store.assignment) ∨ a = s.store.assignment := by
    rw [List.map_append, List.mem_append, List.map_singleton, List.mem_singleton, heq]
  have hbears (j : Nat) (z : Part) : q.Bears (reported ++ [s']) F a (some (j, z)) ↔
      if i = j then w'.Bears (F i) a z else p.Bears reported F a (some (j, z)) := by
    have hiff : q.Bears reported (Function.update F i (F i)) a (some (j, z)) ↔
        if i = j then w'.Bears (F i) a z else p.Bears reported F a (some (j, z)) :=
      hp.bears_iff hw
    rwa [Function.update_eq_self] at hiff
  have hnone : ¬w'.Bears (F i) a .found := fun hpart => nomatch hunladen.bears_iff.1 hpart
  refine ⟨?_, fun _ hboth => ?_, fun x hx hy => ?_⟩
  · show q.Bears _ F a (some (i, .found)) ∨ a ∈ (reported ++ [s']).map _ ↔
      p.Bears reported F a (some (i, .found)) ∨ a ∈ reported.map _
    rw [hbears, if_pos rfl, hmem, bears_iff hw, hfound, or_iff_right hnone, or_comm]
  · have hpart := hboth.1
    rw [hbears, if_pos rfl] at hpart
    exact hnone hpart
  · cases x with
    | none => exact absurd rfl hy
    | some x =>
      obtain ⟨j, z⟩ := x
      rw [hbears]
      by_cases hj : i = j
      · subst hj
        rw [if_pos rfl, bears_iff hw]
        cases z with
        | explored => exact Iff.rfl
        | stolen =>
          exact iff_of_false (fun hpart => nomatch hunladen.bears_iff.1 hpart)
            (Worker.not_bears_stolen hphase)
        | found => exact absurd rfl hx
      · rw [if_neg hj]

/-- A solution that is better than all that were reported is reported. -/
theorem Balances.announce {s' : Space} {shared : Option SharedBest}
    (h : p.Balances δ t reported F) (hw : p.workers.get? i = some w)
    (hphase : w.phase = .reporting s) (hs : t.Concludes δ s) (hs' : t.Concludes δ s')
    (heq : s'.store.assignment = s.store.assignment)
    (hcontends : t.Contends (t.sought p.shared) reported s.store.assignment)
    (hshares : Shares (reported ++ [s']) shared) (hsome : shared.isSome = p.shared.isSome)
    (hgeneration : ∀ g ∈ shared, ∃ g' ∈ p.shared, g'.generation ≤ g.generation) :
    p.Proceeds δ t reported (announce { p with
      workers := p.workers.set i { w with phase := .working }, shared } s') := by
  set q : ParallelSearch (Option σ) := { p with
    workers := p.workers.set i { w with phase := .working } } with hq
  have hp : p.Replaces i { w with phase := .working } q := ⟨rfl, rfl, rfl, rfl⟩
  have hsought : t.sought shared = t.sought p.shared := by
    unfold Tree.sought
    rw [hsome]
  have htracks := h.tracks i w hw
  have hbusy : w.isBusy = true := Worker.isBusy_iff.2 (hphase ▸ nofun)
  have hstaffed : q.Staffed δ t reported F := by
    have hreplace := h.toStaffed.replace (G := F i) hp hw ⟨htracks.aims, htracks.explores, trivial⟩
      ((h.knows i w hw).congr rfl le_rfl) (by rw [hbusy]; rfl)
    rwa [Function.update_eq_self] at hreplace
  have hfound {a : Assignment} (ha : t.Solution a) :
      w.Bears (F i) a .found ↔ a = s.store.assignment :=
    (Worker.bears_found hphase).trans (hs.mem_boxes_iff ha)
  -- It is borne by the worker, so it was not reported before.
  have hnew : s.store.assignment ∉ reported.map (·.store.assignment) := by
    intro hmem
    have hbears : p.Bears reported F s.store.assignment (some (i, .found)) :=
      (bears_iff hw).2 ((hfound hs.solution).2 rfl)
    cases (h.accounts _ hcontends).unique (show p.Bears reported F _ none from hmem) hbears
  refine ⟨Table.size_set _ _ _, hsome, [s'], F, rfl, ?_⟩
  refine ⟨⟨hstaffed.tracks, fun j v hv => (hstaffed.knows j v hv).append _ hsome hgeneration,
    hstaffed.busy, hstaffed.stop⟩, ?_, hshares, fun a ha => ?_⟩
  · show t.Reports δ (t.sought shared) _
    rw [hsought]
    rw [← heq] at hcontends hnew
    exact h.reports.concat hs' hcontends hnew
  · have ha' : t.Contends (t.sought p.shared) reported a := by
      refine ⟨ha.1, fun b hb => ?_⟩
      rw [← hsought]
      exact ha.2 b (List.mem_append_left _ hb)
    exact (moves_of_announced hp hw hphase heq (hfound ha.1)).existsUnique (h.accounts a ha')

/-- A solution that does not contend is dropped. -/
theorem Balances.drop (h : p.Balances δ t reported F) (hw : p.workers.get? i = some w)
    (hphase : w.phase = .reporting s)
    (hfound : ∀ a, t.Contends (t.sought p.shared) reported a → a.box ∉ s.boxes) :
    p.Proceeds δ t reported
      { p with workers := p.workers.set i { w with phase := .working } } := by
  have htracks := h.tracks i w hw
  have hbusy : w.isBusy = true := Worker.isBusy_iff.2 (hphase ▸ nofun)
  have hunladen : Worker.Unladen { w with phase := .working } := .inl rfl
  refine h.proceeds ⟨rfl, rfl, rfl, rfl⟩ hw rfl hbusy.symm
    ⟨htracks.aims, htracks.explores, trivial⟩ ((h.knows i w hw).congr rfl le_rfl) .explored .found
    fun a ha => .of_iff (fun x => ?_) fun hpart => nomatch hunladen.bears_iff.1 hpart
  cases x with
  | explored => exact Iff.rfl
  | stolen =>
    exact iff_of_false (fun hpart => nomatch hunladen.bears_iff.1 hpart)
      (Worker.not_bears_stolen hphase)
  | found =>
    exact iff_of_false (fun hpart => nomatch hunladen.bears_iff.1 hpart) fun hpart =>
      hfound a ha ((Worker.bears_found hphase).1 hpart)

theorem report_law (ht : t.Regular δ) (h : p.Balances δ t reported F)
    (hw : p.workers.get? i = some w) (hphase : w.phase = .reporting s) :
    Journaled.Yields δ (p.report i w s) (p.Proceeds δ t reported) := by
  have htracks := h.tracks i w hw
  have hs : t.Concludes δ s := by
    have hsuits := htracks.suits
    rw [hphase] at hsuits
    exact hsuits
  unfold report
  dsimp only
  cases hshared : p.shared with
  | none =>
    -- All solutions are reported.
    have hnone : t.sought p.shared = none := by
      rw [hshared]
      rfl
    refine Journaled.Yields.pure (h.announce hw hphase hs hs rfl ⟨hs.solution, fun b hb o ho => ?_⟩
      ⟨fun g hg => (by cases hg), fun g hg => (by cases hg)⟩ (by rw [hshared])
      fun g hg => by cases hg)
    rw [hnone] at ho
    cases ho
  | some g =>
    have hsought : t.sought p.shared = t.objective := by
      rw [hshared]
      rfl
    have hlast := h.shares.best g hshared
    have hannounce {s' : Space} (hs' : t.Concludes δ s')
        (heq : s'.store.assignment = s.store.assignment)
        (hbetter : ∀ b ∈ reported, ∀ o ∈ t.objective,
          o.Better s.store.assignment b.store.assignment) :
        p.Proceeds δ t reported (announce { p with
          workers := p.workers.set i { w with phase := .working }
          shared := some ⟨some s', g.generation + 1⟩ } s') := by
      refine h.announce hw hphase hs hs' heq ⟨hs.solution, hsought.symm ▸ hbetter⟩ ⟨?_, ?_⟩
        (by rw [hshared]; rfl) ?_
      · rintro g' hg'
        cases hg'
        exact List.getLast?_concat.symm
      · rintro g' hg' hnone
        cases hg'
        cases hnone
      · rintro g' hg'
        cases hg'
        exact ⟨g, hshared, Nat.le_succ _⟩
    dsimp only
    cases hbest : g.best with
    | none =>
      rw [hbest] at hlast
      have hnil : reported = [] := List.getLast?_eq_none_iff.1 hlast.symm
      refine Journaled.Yields.pure (hannounce hs rfl fun b hb => ?_)
      rw [hnil] at hb
      cases hb
    | some b =>
      dsimp only
      have hlast := hlast.symm.trans hbest
      have hb := h.reports.concludes b (List.mem_of_getLast? hlast)
      refine (Journaled.Yields.lift (Tree.constrain_law (.stands hs.stands) ht.objective
        hb.stands.frames.sound hb.stands.frames.narrows.size_ints)).bind fun s₁ hs₁ => ?_
      refine (Tree.status_law hs₁).bind ?_
      rintro ⟨status, s₂⟩ hjudged
      have hreported (hrests : t.Rests δ s₂ (s.boxes ∩ t.improving b.store)) :
          p.Proceeds δ t reported (announce { p with
            workers := p.workers.set i { w with phase := .working }
            shared := some ⟨some s₂, g.generation + 1⟩ } s₂) := by
        obtain ⟨hs₂, heq, hmem⟩ := hs.of_rests hrests Set.inter_subset_left
        have hbetter := hb.improving_iff.1 hmem.2
        refine hannounce hs₂ heq fun b' hb' o ho => ?_
        rcases h.reports.last hlast hb' with rfl | hlast
        · exact hbetter o ho
        · rw [hsought] at hlast
          exact (hbetter o ho).trans (hlast o ho)
      cases status with
      | solved => exact Journaled.Yields.pure (hreported hjudged.1)
      | branch => exact Journaled.Yields.pure (hreported hjudged.1)
      | failed =>
        -- The solution is not better than the best one, and does not contend.
        rw [← hshared]
        refine Journaled.Yields.pure (h.drop hw hphase fun a ha hmem => ?_)
        have hbetter : a.box ∈ t.improving b.store := by
          refine hb.improving_iff.2 ?_
          rw [← hsought]
          exact ha.2 b (List.mem_of_getLast? hlast)
        exact hjudged.2.2 a.box ⟨hmem, hbetter⟩ ha.1.2

end ParallelSearch

end ConstraintSearch
