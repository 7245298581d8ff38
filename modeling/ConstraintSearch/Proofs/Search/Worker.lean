import ConstraintSearch.Search.Parallel
import ConstraintSearch.Proofs.Search.Complete
import ConstraintSearch.Proofs.Search.Stealing

/-!
# The theory of a worker

One of several workers that search a tree together. It has up to three parts of the tree: what it
explores, a subtree that it has stolen and not yet begun with, and a solution that it has found and
not yet reported.

* `Tree.after`: the tree in which only better solutions than the best one are looked for;
* `Tree.Concludes`: the space has one assignment, which is a solution;
* `Worker.Tracks`: the invariant of a worker; `Worker.Bears`: the boxes of its parts;
* `Moves`: something is handed over from one part to another, and nothing is lost or doubled;
* `Worker.update_law`, `Worker.explore_law`, `Worker.nextNode_law`: what the steps of a worker do.
-/

namespace ConstraintSearch

variable {δ : Prop} {t : Tree} {best : Option Space} {reported : List Space} {a : Assignment}
  {s : Space} {F : Frontier}

/-- A store whose variables all have a value has no smaller one. -/
theorem Store.Assigned.of_narrows {s s' : Store} (h : s.Assigned) (hs : s.Sound) (hs' : s'.Sound)
    (hnarrows : s.Narrows s') : s'.Assigned where
  ints i hi := by
    have hi : i < s.ints.size := hnarrows.size_ints ▸ hi
    have hle := hnarrows.within.ints i hi
    have hc' := hs'.box.canonical i
    have hvalue {v : Int} (hv : v ∈ s'.box.ints i) : v = (s.box.ints i).min :=
      (hs.box.canonical i).eq_min_of_isAssigned (h.ints i hi) (hle v hv)
    exact hc'.isAssigned_iff.2 ((hvalue hc'.min_mem).trans (hvalue hc'.max_mem).symm)
  sets i hi := by
    have hi : i < s.sets.size := hnarrows.size_sets ▸ hi
    exact Brancher.isAssigned_set_of_evolves hi hs hs' hnarrows.evolves (h.sets i hi)

/-! ### Better solutions -/

namespace Tree

/-- The boxes that are better than the best solution, if there is one. -/
def beyond (t : Tree) : Option Space → Set Box
  | none => Set.univ
  | some b => t.improving b.store

/-- The tree in which only better solutions are looked for. -/
def after (t : Tree) (best : Option Space) : Tree := { t with goal := t.beyond best }

theorem after_none (hgoal : t.goal = Set.univ) : t.after none = t := by
  cases t
  cases hgoal
  rfl

theorem Regular.after (h : t.Regular δ) (best : Option Space) : (t.after best).Regular δ :=
  ⟨h.root, h.objective⟩

theorem Exact.after (h : t.Exact) (best : Option Space) : (t.after best).Exact :=
  ⟨⟨h.decides.ints, h.decides.sets⟩, h.oriented⟩

theorem solution_after (hgoal : t.goal = Set.univ) :
    (t.after best).Solution a ↔ t.Solution a ∧ a.box ∈ t.beyond best := by
  constructor
  · rintro ⟨ha, hw⟩
    exact ⟨⟨ha, hw.sound, hw.consistent, hgoal ▸ Set.mem_univ _⟩, hw.goal⟩
  · rintro ⟨⟨ha, hw⟩, hbeyond⟩
    exact ⟨ha, hw.sound, hw.consistent, hbeyond⟩

/-- The space has one assignment, and this is a solution. -/
structure Concludes (δ : Prop) (t : Tree) (s : Space) : Prop where
  stands : t.Stands δ s s.boxes
  assigned : s.store.Assigned
  solution : t.Solution s.store.assignment

namespace Concludes

theorem mem_boxes_iff (h : t.Concludes δ s) (ha : t.Solution a) :
    a.box ∈ s.boxes ↔ a = s.store.assignment := by
  have hsound := h.stands.frames.sound
  rw [← h.assigned.within_iff hsound]
  constructor
  · intro hmem
    exact h.stands.frames.within_of_mem ha hmem
  · intro hwithin
    exact h.stands.frames.mem_of_within hwithin

/-- The better boxes are those of better assignments. -/
theorem improving_iff (h : t.Concludes δ s) :
    a.box ∈ t.improving s.store ↔ ∀ o ∈ t.objective, o.Better a s.store.assignment :=
  forall₂_congr fun _ _ => Objective.improves_box h.assigned h.stands.frames.sound

/-- A part of the space that has not failed has the same solution. -/
theorem of_rests {s' : Space} {Q : Set Box} (h : t.Concludes δ s) (hs' : t.Rests δ s' Q)
    (hQ : Q ⊆ s.boxes) :
    t.Concludes δ s' ∧ s'.store.assignment = s.store.assignment ∧ s.store.assignment.box ∈ Q := by
  have hsound := h.stands.frames.sound
  have hsound' := hs'.frames.sound
  have hroot := h.stands.frames.narrows
  have hroot' := hs'.frames.narrows
  have hnarrows : s.store.Narrows s'.store :=
    ⟨hroot'.size_ints.trans hroot.size_ints.symm, hroot'.size_sets.trans hroot.size_sets.symm,
      hroot'.floats.trans hroot.floats.symm,
      (hQ (hs'.frames.within _ hsound'.box (Store.box_within _))).2⟩
  have hassigned := h.assigned.of_narrows hsound hsound' hnarrows
  have hwithin := hassigned.assignment_within hsound'
  have heq : s'.store.assignment = s.store.assignment :=
    (h.assigned.within_iff hsound).1 (hwithin.of_narrows hnarrows)
  exact ⟨⟨hs'.toStands.boxes, hassigned, heq ▸ h.solution⟩, heq,
    heq ▸ hs'.frames.mem_of_within hwithin⟩

end Concludes

/-- A node in which all branchers are done has one assignment, which is a solution. -/
theorem Rests.concludes {Q : Set Box} (hgoal : t.goal = Set.univ) (hexact : t.Exact)
    (h : (t.after best).Rests δ s (Q ∩ (t.after best).goal))
    (hdone : ∀ i b, s.branchers.get? i = some b → b.Done s.store) : t.Concludes δ s := by
  have hsolves := h.solves (hexact.after best) Set.inter_subset_right hdone
  have hsolution := ((hsolves.mem_iff _).2 rfl).2
  exact ⟨h.toStands.boxes, hsolves.assigned, ((solution_after hgoal).1 hsolution).1⟩

end Tree

/-! ### Parts -/

/-- What was borne by the parts `x` and `y` together is borne by one of them; the other parts bear
what they bore before. -/
structure Moves {ι : Type} (H H' : ι → Prop) (x y : ι) : Prop where
  either : H' x ∨ H' y ↔ H x ∨ H y
  alone : x ≠ y → ¬(H' x ∧ H' y)
  others : ∀ z, z ≠ x → z ≠ y → (H' z ↔ H z)

/-- What one part bears is borne by one part after it was moved. -/
theorem Moves.existsUnique {ι : Type} {H H' : ι → Prop} {x y : ι} (h : Moves H H' x y)
    (hunique : ∃! z, H z) : ∃! z, H' z := by
  by_cases hxy : H x ∨ H y
  · have hno {v : ι} (hx : v ≠ x) (hy : v ≠ y) : ¬H' v := fun hv => by
      have hv := (h.others v hx hy).1 hv
      rcases hxy with h | h
      · exact hx (hunique.unique hv h)
      · exact hy (hunique.unique hv h)
    rcases h.either.2 hxy with hx | hy
    · refine ⟨x, hx, fun v hv => ?_⟩
      by_contra hne
      by_cases hvy : v = y
      · subst hvy
        exact h.alone (Ne.symm hne) ⟨hx, hv⟩
      · exact hno hne hvy hv
    · refine ⟨y, hy, fun v hv => ?_⟩
      by_contra hne
      by_cases hvx : v = x
      · subst hvx
        exact h.alone hne ⟨hv, hy⟩
      · exact hno hvx hne hv
  · have hxy' := mt h.either.1 hxy
    rw [not_or] at hxy hxy'
    refine (existsUnique_congr fun v => ?_).2 hunique
    by_cases hvx : v = x
    · subst hvx
      exact iff_of_false hxy'.1 hxy.1
    · by_cases hvy : v = y
      · subst hvy
        exact iff_of_false hxy'.2 hxy.2
      · exact h.others v hvx hvy

theorem Moves.refl {ι : Type} (H : ι → Prop) (x : ι) : Moves H H x x where
  either := Iff.rfl
  alone hne := absurd rfl hne
  others _ _ _ := Iff.rfl

theorem Moves.of_iff {ι : Type} {H H' : ι → Prop} {x y : ι} (h : ∀ z, H' z ↔ H z) (hy : ¬H' y) :
    Moves H H' x y where
  either := or_congr (h x) (h y)
  alone _ hboth := hy hboth.2
  others z _ _ := h z

/-- The parts of the tree that a worker has: what lies below its node and its path, a space that it
has stolen, and a solution that it has found. -/
inductive Part
  | explored
  | stolen
  | found
  deriving DecidableEq

/-- What the phase of a worker with the frontier `F` says. -/
def Phase.Suits (δ : Prop) (t : Tree) (F : Frontier) : Phase → Prop
  | working => True
  | leaving | idle => F = ⟨[], none⟩
  | adopting s _ => F = ⟨[], none⟩ ∧ t.Represents δ s s.boxes
  | reporting s => t.Concludes δ s

namespace Worker

variable {w w' : Worker}

/-- The part of a worker with the frontier `F` has the assignment. -/
def Bears (F : Frontier) (w : Worker) (a : Assignment) : Part → Prop
  | .explored => a.box ∈ F.region
  | .stolen => ∃ s edge, w.phase = .adopting s edge ∧ a.box ∈ s.boxes
  | .found => ∃ s, w.phase = .reporting s ∧ a.box ∈ s.boxes

/-- The worker has the frontier `F`, and looks for what is better than the best solution it knows
of. -/
structure Tracks (δ : Prop) (t : Tree) (F : Frontier) (w : Worker) : Prop where
  aims : (t.after w.best).Aims w.best w.mark
  explores : w.explorer.Explores δ (t.after w.best) none w.mark F
  suits : w.phase.Suits δ t F

end Worker

/-! ### What was reported -/

/-- The objective by which solutions must be better than those before, if any. -/
def Tree.sought (t : Tree) (shared : Option SharedBest) : Option Objective :=
  if shared.isSome then t.objective else none

/-- The spaces that were reported are solutions, each another one or a better one than those
before. -/
structure Tree.Reports (δ : Prop) (t : Tree) (sought : Option Objective) (reported : List Space) :
    Prop where
  concludes : ∀ b ∈ reported, t.Concludes δ b
  improves : (reported.map (·.store.assignment)).Pairwise
    fun a b => b ≠ a ∧ ∀ o ∈ sought, o.Better b a

/-- The solution that was reported last is the best one, if better ones are looked for. -/
theorem Tree.Reports.last {sought : Option Objective} {b b' : Space}
    (h : t.Reports δ sought reported) (hb : reported.getLast? = some b) (hb' : b' ∈ reported) :
    b' = b ∨ ∀ o ∈ sought, o.Better b.store.assignment b'.store.assignment := by
  obtain ⟨before, rfl⟩ := List.getLast?_eq_some_iff.1 hb
  rcases List.mem_append.1 hb' with hmem | hmem
  · right
    have hpairwise := h.improves
    rw [List.map_append, List.pairwise_append] at hpairwise
    exact (hpairwise.2.2 _ (List.mem_map_of_mem hmem) _
      (List.mem_map_of_mem (List.mem_singleton_self b))).2
  · exact .inl (List.mem_singleton.1 hmem)

/-- The solution is better than all that were reported, if better ones are looked for. -/
def Tree.Contends (t : Tree) (sought : Option Objective) (reported : List Space)
    (a : Assignment) : Prop :=
  t.Solution a ∧ ∀ b ∈ reported, ∀ o ∈ sought, o.Better a b.store.assignment

/-- A solution that contends is reported, unless it was reported before. -/
theorem Tree.Reports.concat {sought : Option Objective} (h : t.Reports δ sought reported)
    (hs : t.Concludes δ s) (hcontends : t.Contends sought reported s.store.assignment)
    (hnew : s.store.assignment ∉ reported.map (·.store.assignment)) :
    t.Reports δ sought (reported ++ [s]) where
  concludes b hb := by
    rcases List.mem_append.1 hb with hb | hb
    · exact h.concludes b hb
    · exact List.mem_singleton.1 hb ▸ hs
  improves := by
    rw [List.map_append, List.map_singleton, List.pairwise_append]
    refine ⟨h.improves, List.pairwise_singleton _ _, fun a ha b hb => ?_⟩
    rw [List.mem_singleton.1 hb]
    obtain ⟨r, hr, rfl⟩ := List.mem_map.1 ha
    exact ⟨fun heq => hnew (heq ▸ ha), hcontends.2 r hr⟩

/-- The best solution that the workers share is the one that was reported last. -/
structure Shares (reported : List Space) (shared : Option SharedBest) : Prop where
  best : ∀ g ∈ shared, g.best = reported.getLast?
  generation : ∀ g ∈ shared, g.best = none → g.generation = 0

/-- What a worker knows of the solutions that were reported. -/
structure Worker.Knows (reported : List Space) (shared : Option SharedBest) (w : Worker) :
    Prop where
  best : ∀ b ∈ w.best, b ∈ reported
  alone : shared = none → w.best = none
  generation : ∀ g ∈ shared, w.generation ≤ g.generation

namespace Worker

variable {w w' : Worker} {shared : Option SharedBest}

theorem Knows.congr (h : w.Knows reported shared) (hbest : w'.best = w.best)
    (hgeneration : w'.generation ≤ w.generation) : w'.Knows reported shared where
  best b hb := h.best b (hbest ▸ hb)
  alone hnone := hbest.trans (h.alone hnone)
  generation g hg := hgeneration.trans (h.generation g hg)

/-- A worker need not know of a solution that is reported. -/
theorem Knows.append {shared' : Option SharedBest} (h : w.Knows reported shared) (new : List Space)
    (hsome : shared'.isSome = shared.isSome)
    (hgeneration : ∀ g ∈ shared', ∃ g' ∈ shared, g'.generation ≤ g.generation) :
    w.Knows (reported ++ new) shared' where
  best b hb := List.mem_append_left _ (h.best b hb)
  alone hnone := by
    refine h.alone (Option.not_isSome_iff_eq_none.1 ?_)
    rw [← hsome, hnone]
    exact Bool.false_ne_true
  generation g hg := by
    obtain ⟨g', hg', hle⟩ := hgeneration g hg
    exact (h.generation g' hg').trans hle

/-- A worker looks for all solutions that contend. -/
theorem Knows.solution_after (h : w.Knows reported shared) (hgoal : t.goal = Set.univ)
    (hreports : t.Reports δ (t.sought shared) reported)
    (ha : t.Contends (t.sought shared) reported a) : (t.after w.best).Solution a := by
  refine (Tree.solution_after hgoal).2 ⟨ha.1, ?_⟩
  cases hbest : w.best with
  | none => exact Set.mem_univ _
  | some b =>
    have hmem := h.best b hbest
    have hsought : t.sought shared = t.objective := by
      refine if_pos (Option.isSome_iff_ne_none.2 fun hnone => ?_)
      rw [h.alone hnone] at hbest
      cases hbest
    have hbetter := ha.2 b hmem
    rw [hsought] at hbetter
    exact (hreports.concludes b hmem).improving_iff.2 hbetter

/-- What is better than the last solution that was reported is better than what a worker knows. -/
theorem Knows.improving_subset (h : w.Knows reported shared) {g : SharedBest} (hg : g ∈ shared)
    (hreports : t.Reports δ (t.sought shared) reported) {b : Space}
    (hb : reported.getLast? = some b) : t.improving b.store ⊆ t.beyond w.best := by
  intro F hF
  cases hbest : w.best with
  | none => exact Set.mem_univ _
  | some b₀ =>
    have hsought : t.sought shared = t.objective := by
      rw [Option.mem_def.1 hg]
      rfl
    have hmem := h.best b₀ hbest
    rcases hreports.last hb hmem with rfl | hbetter
    · exact hF
    · rw [hsought] at hbetter
      have hb := hreports.concludes b (List.mem_of_getLast? hb)
      have hsound := hb.stands.frames.sound
      have hbox := (hreports.concludes b₀ hmem).improving_iff.2 hbetter
      rw [hb.assigned.box_eq hsound] at hbox
      exact fun o ho => (hbox o ho).trans hsound (hF o ho)

/-! ### Steps of a worker -/

/-- To narrow a node to better solutions leaves those of its region. -/
theorem constrain_law (ht : t.Regular δ) {b : Space} {R : Set Box} (hb : t.Stands δ b R)
    {Q : Set Box} (hsubset : t.improving b.store ⊆ t.beyond best)
    (hs : (t.after best).Represents δ s (Q ∩ (t.after best).goal)) :
    Yields δ (s.constrain b)
      ((t.after (some b)).Represents δ · (Q ∩ (t.after (some b)).goal)) := by
  have hconstrain := Tree.constrain_law hs (ht.after best).objective hb.frames.sound
    hb.frames.narrows.size_ints
  refine hconstrain.mono fun s' hs' => ?_
  have hretarget : (t.after (some b)).Represents δ s' _ :=
    Tree.Represents.retarget (t := t.after best) hsubset hs'
  exact hretarget.mono (fun B hB => ⟨hB.1.1, hB.2⟩) fun B hB _ => ⟨⟨hB.1, hsubset hB.2⟩, hB.2⟩

/-- A worker takes up the best solution. -/
theorem update_law (ht : t.Regular δ) (h : w.Tracks δ t F) (hknows : w.Knows reported shared)
    (hreports : t.Reports δ (t.sought shared) reported) (hshares : Shares reported shared) :
    Yields δ (w.update shared) fun w' =>
      w'.Tracks δ t F ∧ w'.Knows reported shared ∧ w'.phase = w.phase := by
  unfold update
  cases shared with
  | none => exact Yields.pure ⟨h, hknows, rfl⟩
  | some g =>
    dsimp only
    by_cases hgeneration : g.generation = w.generation
    · rw [if_pos hgeneration]
      exact Yields.pure ⟨h, hknows, rfl⟩
    rw [if_neg hgeneration]
    -- Something was found since, so there is a best solution.
    obtain ⟨b, hbest⟩ : ∃ b, g.best = some b := by
      refine Option.ne_none_iff_exists'.1 fun hnone => ?_
      have hzero := hshares.generation g rfl hnone
      have hle := hknows.generation g rfl
      omega
    have hlast : reported.getLast? = some b := (hshares.best g rfl).symm.trans hbest
    have hmem : b ∈ reported := List.mem_of_getLast? hlast
    have hb := hreports.concludes b hmem
    have hsubset := hknows.improving_subset rfl hreports hlast
    have haims (depth : Nat) : (t.after (some b)).Aims (some b) depth :=
      { mark := fun hnone => by cases hnone
        all := fun hnone => by cases hnone
        sound := fun b' hb' => by cases hb'; exact hb.stands.frames.sound
        size := fun b' hb' => by cases hb'; exact hb.stands.frames.narrows.size_ints
        goal := fun b' hb' => by cases hb'; rfl }
    have hknows' (explorer : Explorer) (mark : Nat) :
        Knows reported (some g) ⟨explorer, w.phase, some b, mark, g.generation⟩ :=
      ⟨fun b' hb' => (by cases hb'; exact hmem), fun hnone => (by cases hnone),
        fun g' hg' => by cases hg'; exact le_refl _⟩
    have hretarget (current : Option Space) := h.explores.retarget current hsubset
    rw [← h.explores.keeps.carries.length] at hretarget
    rw [hbest]
    cases hcurrent : w.explorer.current with
    | none =>
      refine Yields.pure ⟨⟨haims _, ?_, h.suits⟩, hknows' _ _, rfl⟩
      exact hretarget w.explorer.current id fun s hs => by
        rw [hcurrent] at hs
        cases hs
    | some s =>
      obtain ⟨Q, hahead, hpoised⟩ := h.explores.current s hcurrent
      refine (constrain_law ht hb.stands hsubset hpoised.represents).bind fun s' hs' => ?_
      refine Yields.pure ⟨⟨haims _, ?_, h.suits⟩, hknows' _ _, rfl⟩
      refine hretarget (some s') (fun hnone => by cases hnone) fun s'' hs'' => ?_
      cases hs''
      refine ⟨s, hcurrent, fun Q' hQ' _ => ?_⟩
      cases Option.some.inj (hahead.symm.trans hQ')
      exact hs'

/-- The worker has neither a stolen subtree nor a solution to report. -/
def Unladen (w : Worker) : Prop :=
  w.phase = .working ∨ w.phase = .leaving ∨ w.phase = .idle

theorem Unladen.bears_iff {G : Frontier} (h : w.Unladen) {x : Part} :
    w.Bears G a x ↔ x = .explored ∧ a.box ∈ G.region := by
  unfold Bears
  cases x with
  | explored => exact (and_iff_right rfl).symm
  | stolen =>
    refine iff_of_false ?_ fun h => nomatch h.1
    rintro ⟨s, edge, hs, -⟩
    rcases h with h | h | h <;> cases h.symm.trans hs
  | found =>
    refine iff_of_false ?_ fun h => nomatch h.1
    rintro ⟨s, hs, -⟩
    rcases h with h | h | h <;> cases h.symm.trans hs

theorem bears_stolen {edge : EdgeInfo} (h : w.phase = .adopting s edge) :
    w.Bears F a .stolen ↔ a.box ∈ s.boxes := by
  constructor
  · rintro ⟨s', edge', hs', hmem⟩
    cases h.symm.trans hs'
    exact hmem
  · exact fun hmem => ⟨s, edge, h, hmem⟩

theorem not_bears_found {edge : EdgeInfo} (h : w.phase = .adopting s edge) :
    ¬w.Bears F a .found := by
  rintro ⟨s', hs', -⟩
  cases h.symm.trans hs'

theorem bears_found (h : w.phase = .reporting s) : w.Bears F a .found ↔ a.box ∈ s.boxes := by
  constructor
  · rintro ⟨s', hs', hmem⟩
    cases h.symm.trans hs'
    exact hmem
  · exact fun hmem => ⟨s, h, hmem⟩

theorem not_bears_stolen (h : w.phase = .reporting s) : ¬w.Bears F a .stolen := by
  rintro ⟨s', edge, hs', -⟩
  cases h.symm.trans hs'

/-- Nothing moves if no solution is lost or found again. -/
theorem Unladen.moves {G : Frontier} {y : Part} (h : w.Unladen) (h' : w'.Unladen)
    (hy : y ≠ .explored)
    (hpending : G.pending (t.after best) = F.pending (t.after best))
    (ha : (t.after best).Solution a) : Moves (w.Bears F a) (w'.Bears G a) .explored y := by
  have hregion : a.box ∈ G.region ↔ a.box ∈ F.region := by
    rw [← Frontier.mem_pending ha, hpending, Frontier.mem_pending ha]
  refine .of_iff (fun x => ?_) fun hbears => hy (h'.bears_iff.1 hbears).1
  rw [h.bears_iff, h'.bears_iff, hregion]

/-- Only who has nothing left is without a subtree. -/
theorem suits_of_ne {phase : Phase} {G : Frontier} (h : phase.Suits δ t F) (hne : F ≠ ⟨[], none⟩) :
    phase.Suits δ t G := by
  cases phase with
  | working => exact trivial
  | leaving | idle => exact absurd h hne
  | adopting s edge => exact absurd h.1 hne
  | reporting s => exact h

theorem suits_of_working (hphase : w.phase = .working) : w.phase.Suits δ t F := by
  rw [hphase]
  exact trivial

/-- The worker after it has explored a node. -/
def explored (w : Worker) : Explored × Explorer → Worker
  | (.solved s, explorer) => { w with explorer, phase := .reporting s }
  | (_, explorer) => { w with explorer }

/-- A worker explores a node. What lies below the node is left on the path, or found. -/
theorem explore_law (ht : t.Regular δ) (hgoal : t.goal = Set.univ) (hexact : t.Exact)
    (h : w.Tracks δ t F) (hphase : w.phase = .working) (hs : w.explorer.current = some s) :
    Journaled.Yields δ (Explorer.explore { w.explorer with current := none } s) fun r =>
      ∃ G, (w.explored r).Tracks δ t G ∧ ∀ a, (t.after w.best).Solution a →
        Moves (w.Bears F a) ((w.explored r).Bears G a) .explored .found := by
  obtain ⟨Q, hahead, hpoised⟩ := h.explores.current s hs
  obtain ⟨trail, ahead⟩ := F
  obtain rfl : ahead = some Q := hahead
  have hkeeps : Explorer.Keeps δ (t.after w.best) none w.mark { w.explorer with current := none }
      trail := h.explores.keeps.congr rfl (Nat.le_refl _)
  have hroot := (ht.after w.best).root
  have hadvanced := Frontier.ofTrail_advanced_le hkeeps.valid hroot
  refine (Explorer.explore_law hkeeps rfl
    ⟨hpoised.represents, hpoised.nested, hpoised.anchored, hpoised.leads⟩).mono ?_
  rintro ⟨outcome, e⟩ hvisited
  cases outcome with
  | failed =>
    obtain ⟨-, -, hnone, hexplores⟩ := hvisited
    refine ⟨_, ⟨h.aims, hexplores, suits_of_working hphase⟩, fun a ha => ?_⟩
    exact Unladen.moves (.inl hphase) (.inl hphase) nofun
      (hadvanced.pending.trans (Frontier.lt_of_failed hnone).pending) ha
  | branched =>
    obtain ⟨-, -, f, s', hsplits, hexplores⟩ := hvisited
    refine ⟨_, ⟨h.aims, hexplores, suits_of_working hphase⟩, fun a ha => ?_⟩
    exact Unladen.moves (.inl hphase) (.inl hphase) nofun (hsplits.lt hkeeps.valid hroot).pending ha
  | solved s' =>
    obtain ⟨-, -, hrests, hdone, -, hexplores⟩ := hvisited
    have hconcludes := hrests.concludes hgoal hexact hdone
    obtain ⟨-, hpending, hnot⟩ := Explorer.pending_of_found hkeeps.valid hpoised.nested hroot
      (hexact.after w.best) hrests hdone
    refine ⟨_, ⟨h.aims, hexplores, hconcludes⟩, fun a ha => ?_⟩
    have hfound : (w.explored (.solved s', e)).Bears (.ofTrail (advanced trail)) a .found ↔
        a = s'.store.assignment := by
      rw [← hconcludes.mem_boxes_iff ((Tree.solution_after hgoal).1 ha).1]
      exact bears_found rfl
    have hunladen : w.Unladen := .inl hphase
    have hbefore (x : Part) := hunladen.bears_iff (a := a) (G := ⟨trail, some Q⟩) (x := x)
    have hiff := Set.ext_iff.1 hpending a
    rw [Set.mem_insert_iff, Frontier.mem_pending ha, Frontier.mem_pending ha] at hiff
    refine ⟨?_, fun _ hboth => ?_, fun x hx hy => ?_⟩
    · rw [hfound, hbefore, hbefore, hiff, or_comm]
      simp only [true_and, reduceCtorEq, false_and, or_false]
      exact Iff.rfl
    · obtain rfl := hfound.1 hboth.2
      exact hnot ⟨ha, hboth.1⟩
    · cases x with
      | explored => exact absurd rfl hx
      | found => exact absurd rfl hy
      | stolen => exact iff_of_false (not_bears_stolen rfl) fun hpart =>
          nomatch ((hbefore _).1 hpart).1

/-- The worker after it has looked for its next node. -/
def arrived (w : Worker) : Option Space × Explorer × Option Bound → Worker
  | (current, explorer, bound) =>
      { w with
        explorer := { explorer with current }
        mark := (bound.map Bound.mark).getD w.mark }

/-- A worker gets to its next node. -/
theorem nextNode_law (ht : t.Regular δ) (h : w.Tracks δ t F) (hphase : w.phase = .working) :
    Journaled.Yields δ (w.explorer.nextNode (boundOf w.best w.mark)) fun r =>
      ∃ G, (w.arrived r).Tracks δ t G ∧ ∀ a, (t.after w.best).Solution a →
        Moves (w.Bears F a) ((w.arrived r).Bears G a) .explored .found := by
  refine (Explorer.nextNode_law h.aims (ht.after w.best) h.explores).mono ?_
  rintro ⟨node, e, bound⟩ harrives
  obtain ⟨mark, G, haims, rfl, hfollows, hexplores⟩ := Explorer.Arrives.explores harrives
  have hmark := h.aims.getD_boundOf haims
  refine ⟨G, ⟨?_, ?_, suits_of_working hphase⟩, fun a ha =>
    Unladen.moves (.inl hphase) (.inl hphase) nofun hfollows.le.pending ha⟩
  · show (t.after w.best).Aims w.best (((boundOf w.best mark).map Bound.mark).getD w.mark)
    rwa [hmark]
  · show Explorer.Explores δ (t.after w.best) none
      (((boundOf w.best mark).map Bound.mark).getD w.mark) { e with current := node } G
    rwa [hmark]

/-- A worker without a node and without a path has nothing to explore. -/
theorem Tracks.eq_nil (h : w.Tracks δ t F) (hcurrent : w.explorer.current = none)
    (hempty : w.explorer.path.isEmpty = true) : F = ⟨[], none⟩ := by
  obtain ⟨hF, -⟩ := h.explores.rebuildable hcurrent
  have hedges := h.explores.keeps.carries.edges
  unfold Path.isEmpty at hempty
  rw [hedges, List.isEmpty_map, List.isEmpty_iff] at hempty
  rw [hF, hempty]
  rfl

end Worker

end ConstraintSearch
