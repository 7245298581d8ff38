import ConstraintSearch.Search.Complete
import ConstraintSearch.Proofs.Search.Explorer

/-!
# The theory of complete searches

A depth-first search and a branch and bound explore one node in each step. What is pending gets
smaller by a solution that is found and, where only better solutions are looked for, by those that
are not better.

* `Objective.Better`, `remaining`: what is left to find after a solution;
* `Explorer.Searches`: the invariant of a search with a best solution or without one;
* `Polls`: what is assumed of a stop condition;
* `CompleteSearch.Seeks`, `CompleteSearch.step_law`: the invariant of a search, and what a step
  does. No step loses a solution or finds one again, and the bound for the nodes that are left
  becomes smaller;
* `CompleteSearch.start_law`, `CompleteSearch.reset_law`: the searches of a tree that begin.
-/

namespace ConstraintSearch

variable {δ : Prop} {t : Tree} {s : Space} {a b : Assignment}

/-! ### Better solutions -/

namespace Objective

/-- The assignment `a` has a better value than `b`. -/
def Better (a b : Assignment) : Objective → Prop
  | minimise x => a.value x < b.value x
  | maximise x => b.value x < a.value x

variable {o : Objective}

theorem not_better_self (a : Assignment) : ¬o.Better a a := by
  cases o <;> exact lt_irrefl _

theorem Better.trans {c : Assignment} (h : o.Better a b) (h' : o.Better b c) : o.Better a c := by
  cases o with
  | minimise x => exact lt_trans h h'
  | maximise x => exact lt_trans h' h

theorem improves_box (h : s.store.Assigned) (hs : s.store.Sound) :
    o.Improves s.store a.box ↔ o.Better a s.store.assignment := by
  rw [Improves.eq_def, ← h.box_eq hs]
  cases o with
  | minimise x =>
    dsimp only
    rw [Assignment.restricted_box, (Assignment.takes_box x).edge]
    exact Int.le_sub_one_iff
  | maximise x =>
    dsimp only
    rw [Assignment.restricted_box, (Assignment.takes_box x).edge]
    exact Int.add_one_le_iff

/-- What is better than better domains is better. -/
theorem Improves.trans {best : Store} {F : Box} (hs : s.store.Sound)
    (hbest : o.Improves best s.store.box) (hF : o.Improves s.store F) : o.Improves best F := by
  have hc := hs.box.canonical o.variable.index
  cases o with
  | minimise x =>
    have hedge := (IntVar.restricted_atMost hc).1 hbest
    intro u hu
    have hle : x.eval u ≤ x.edge s.store.box .upper - 1 := hF u hu
    show x.eval u ≤ x.edge best.box .upper - 1
    change x.edge s.store.box .upper ≤ x.edge best.box .upper - 1 at hedge
    omega
  | maximise x =>
    have hedge := (IntVar.restricted_atLeast hc).1 hbest
    intro u hu
    have hle : x.edge s.store.box .lower + 1 ≤ x.eval u := hF u hu
    show x.edge best.box .lower + 1 ≤ x.eval u
    change x.edge best.box .lower + 1 ≤ x.edge s.store.box .lower at hedge
    omega

end Objective

/-- What is left to find after the solution `a`: the others, or the better ones. -/
def remaining (objective : Option Objective) (a : Assignment) (Open : Set Assignment) :
    Set Assignment :=
  {b ∈ Open | b ≠ a ∧ ∀ o ∈ objective, o.Better b a}

namespace Tree

/-- The domains of a space that is found are among those that are looked for. -/
structure Finds (t : Tree) (s : Space) : Prop where
  sound : s.store.Sound
  size : s.store.ints.size = t.root.ints.size
  goal : s.store.box ∈ t.goal

/-- What is better than domains that are looked for is looked for. -/
theorem Aims.improving_subset {best : Option Space} {mark : Nat} (h : t.Aims best mark)
    (hs : t.Finds s) : t.improving s.store ⊆ t.goal := by
  intro F hF
  cases hbest : best with
  | none =>
    rw [h.all hbest]
    exact Set.mem_univ F
  | some b =>
    have hgoal := hs.goal
    rw [h.goal b hbest] at hgoal ⊢
    exact fun o ho => (hgoal o ho).trans hs.sound (hF o ho)

end Tree

/-! ### Searches -/

namespace Explorer

variable {best : Option Space} {mark since : Nat} {e e' : Explorer} {F G : Frontier}

/-- Since so many failures, the trail says what was explored. -/
def Logs (since : Nat) (e : Explorer) (F : Frontier) : Prop :=
  e.exploration.noGoodsLimit < e.statistics.depth ∨ e.statistics.fails ≤ since ∨ F.Logged

/-- The invariant of a search that has the frontier `F`. -/
structure Searches (δ : Prop) (t : Tree) (best : Option Space) (mark since : Nat) (e : Explorer)
    (F : Frontier) : Prop where
  regular : t.Regular δ
  aims : t.Aims best mark
  explores : e.Explores δ t (some e.exploration.noGoodsLimit) mark F
  logs : e.Logs since F

theorem Logs.evolves (h : e.Logs since F) (he : e.Evolves e')
    (hcases : e'.statistics.fails = e.statistics.fails ∧ (F.Logged → G.Logged) ∨ G.Logged) :
    e'.Logs since G := by
  rcases hcases with ⟨hfails, hlogged⟩ | hlogged
  · rcases h with hlimit | hle | h
    · left
      rw [he.exploration]
      exact hlimit.trans_le he.depth
    · exact .inr (.inl (hfails ▸ hle))
    · exact .inr (.inr (hlogged h))
  · exact .inr (.inr hlogged)

/-- A fork that makes room for the next one is beyond the limit of no-goods. -/
theorem Logs.split {trail : List Fork} {f : Fork} {Q : Set Box} (h : e.Logs since ⟨trail, some Q⟩)
    (hkeeps : e.Keeps δ t (some e.exploration.noGoodsLimit) mark trail) :
    e.Logs since ⟨f :: vacated trail, some f.below⟩ := by
  rcases h with hlimit | hle | hall | ⟨g, hg, hpos⟩
  · exact .inl hlimit
  · exact .inr (.inl hle)
  · cases hall
  · rcases mem_vacated_or hg with hvacated | hu
    · exact .inr (.inr (.inr ⟨g, List.mem_cons_of_mem _ hvacated, hpos⟩))
    · exact .inl (hkeeps.usedUp _ rfl g hg hu)

/-- The invariant depends on the path, the next node, the failures and the depth only. -/
theorem Searches.congr (h : e.Searches δ t best mark since F) (hpath : e'.path = e.path)
    (hcurrent : e'.current = e.current) (hdistance : e'.distance = e.distance)
    (hfails : e'.statistics.fails = e.statistics.fails) (he : e.Evolves e') :
    e'.Searches δ t best mark since F :=
  ⟨h.regular, h.aims, he.exploration ▸ h.explores.congr hpath hcurrent hdistance he.depth,
    h.logs.evolves he (.inl ⟨hfails, id⟩)⟩

/-- A search that has got to the next node. -/
structure Reaches (δ : Prop) (t : Tree) (best : Option Space) (mark since : Nat) (e : Explorer)
    (F : Frontier) (Q : Set Box) (s : Space) : Prop where
  regular : t.Regular δ
  aims : t.Aims best mark
  keeps : e.Keeps δ t (some e.exploration.noGoodsLimit) mark F.trail
  logs : e.Logs since F
  current : e.current = none
  ahead : F.ahead = some Q
  poised : e.Poised δ t (some e.exploration.noGoodsLimit) F.trail Q s

theorem Searches.logs_of_follows (h : e.Searches δ t best mark since F) (he : e.Evolves e')
    (hfollows : Frontier.Follows t F e.statistics.fails e'.statistics.fails G) :
    e'.Logs since G := by
  refine h.logs.evolves he (hfollows.cases.imp ?_ And.right)
  rintro ⟨halike, hahead, hfails⟩
  exact ⟨hfails, fun hF => hF.of_alike halike hahead⟩

/-- The next node is reached, or nothing is left. -/
theorem Searches.nextNode_law (h : e.Searches δ t best mark since F) :
    Journaled.Yields δ (e.nextNode (boundOf best mark)) fun r => e.Evolves r.2.1 ∧ ∃ mark' G,
      r.2.2 = boundOf best mark' ∧
        Frontier.Follows t F e.statistics.fails r.2.1.statistics.fails G ∧
      match r.1 with
      | some s => ∃ Q, r.2.1.Reaches δ t best mark' since G Q s
      | none => G = ⟨[], none⟩ ∧ r.2.1.Searches δ t best mark' since G := by
  refine (Explorer.nextNode_law h.aims h.regular h.explores).mono ?_
  rintro ⟨node, e', bound⟩ ⟨mark', G, haims, hbound, he, hcurrent, hfollows, hkeeps, hnode⟩
  have hlogs := h.logs_of_follows he hfollows
  rw [← he.exploration] at hkeeps hnode
  refine ⟨he, mark', G, hbound, hfollows, ?_⟩
  cases node with
  | some s =>
    obtain ⟨Q, hahead, hpoised⟩ := hnode
    exact ⟨Q, h.regular, haims, hkeeps, hlogs, hcurrent, hahead, hpoised⟩
  | none =>
    obtain rfl : G = ⟨[], none⟩ := hnode
    refine ⟨rfl, h.regular, haims, ⟨hkeeps, fun s hs => ?_, fun _ => ⟨rfl, fun f hf => ?_⟩⟩, hlogs⟩
    · rw [hcurrent] at hs
      cases hs
    · cases hf

/-- A node that is split leaves its alternatives. -/
theorem Splits.lt {trail : List Fork} {f : Fork} {Q : Set Box} (h : Splits δ t Q f s)
    (hvalid : Trail δ t mark trail) (hroot : t.root.Sound) :
    Frontier.Lt t ⟨f :: vacated trail, some f.below⟩ ⟨trail, some Q⟩ := by
  have hlt := Frontier.lt_of_split (vacated trail) h.sound hroot h.fresh h.full
  rw [h.region] at hlt
  exact hlt.trans_le (Frontier.vacated_le hvalid (some Q))

/-- A node in which all branchers are done is a solution, and no other one lies below it. -/
theorem pending_of_found {trail : List Fork} {Q : Set Box} (hvalid : Trail δ t mark trail)
    (hnested : Nested trail Q) (hroot : t.root.Sound) (hexact : t.Exact)
    (hrests : t.Rests δ s (Q ∩ t.goal))
    (hdone : ∀ i b, s.branchers.get? i = some b → b.Done s.store) :
    s.store.Assigned ∧
      Frontier.pending t ⟨trail, some Q⟩ =
        insert s.store.assignment ((Frontier.ofTrail (advanced trail)).pending t) ∧
      s.store.assignment ∉ (Frontier.ofTrail (advanced trail)).pending t := by
  have hsolves := hrests.solves hexact Set.inter_subset_right hdone
  have hpending := Frontier.pending_of_solved (a := s.store.assignment) hvalid hnested fun b => by
    rw [← hsolves.mem_iff b]
    exact ⟨fun hb => ⟨⟨hb.1, hb.2.2.goal⟩, hb.2⟩, fun hb => ⟨hb.1.1, hb.2⟩⟩
  rw [(Frontier.ofTrail_advanced_le hvalid hroot).pending]
  exact ⟨hsolves.assigned, hpending⟩

/-- What the next node was, and what is left after it. -/
def Advances (δ : Prop) (t : Tree) (best : Option Space) (mark since : Nat) (e : Explorer)
    (F : Frontier) : Explored × Explorer → Prop
  | (.solved s, e') => e.Evolves e' ∧ ∃ G, G.bound t < F.bound t ∧ t.Finds s ∧
      (t.Exact → s.store.Assigned ∧ F.pending t = insert s.store.assignment (G.pending t) ∧
        s.store.assignment ∉ G.pending t) ∧
      e'.current = none ∧ e'.Searches δ t best mark since G
  | (_, e') => e.Evolves e' ∧ ∃ G, G.Lt t F ∧ e'.Searches δ t best mark since G

theorem Reaches.explore_law {Q : Set Box} (h : e.Reaches δ t best mark since F Q s) :
    Journaled.Yields δ (e.explore s) (Advances δ t best mark since e F) := by
  obtain ⟨trail, ahead⟩ := F
  obtain rfl : ahead = some Q := h.ahead
  refine (Explorer.explore_law h.keeps h.current h.poised).mono ?_
  rintro ⟨explored, e'⟩ hvisited
  have hadvanced := Frontier.ofTrail_advanced_le h.keeps.valid h.regular.root
  cases explored with
  | failed =>
    obtain ⟨he, -, hnone, hexplores⟩ := hvisited
    refine ⟨he, _, hadvanced.trans_lt (Frontier.lt_of_failed hnone), h.regular, h.aims,
      he.exploration ▸ hexplores, ?_⟩
    exact h.logs.evolves he (.inr (Frontier.logged_advanced trail))
  | solved s =>
    obtain ⟨he, -, hrests, hdone, hcurrent, hexplores⟩ := hvisited
    have hbox := hrests.frames.within _ hrests.frames.sound.box (Store.box_within _)
    have hfound (hexact : t.Exact) :=
      pending_of_found h.keeps.valid h.poised.nested h.regular.root hexact hrests hdone
    exact ⟨he, _, hadvanced.bound.trans_lt (Frontier.bound_lt_of_ahead trail Q),
      ⟨hrests.frames.sound, hrests.frames.narrows.size_ints, hbox.2⟩, hfound, hcurrent,
      h.regular, h.aims, he.exploration ▸ hexplores,
      h.logs.evolves he (.inr (Frontier.logged_advanced trail))⟩
  | branched =>
    obtain ⟨he, hfails, f, s', hsplits, hexplores⟩ := hvisited
    exact ⟨he, _, hsplits.lt h.keeps.valid h.regular.root, h.regular, h.aims,
      he.exploration ▸ hexplores, (h.logs.split h.keeps).evolves he (.inl ⟨hfails, id⟩)⟩

/-- If less is looked for, the copies on the path count as made before. Only the current node has to
be narrowed to what is looked for. -/
theorem Explores.retarget {limit : Option Nat} {mark : Nat} (h : e.Explores δ t limit mark F)
    (current : Option Space) {goal : Set Box} (hgoal : goal ⊆ t.goal)
    (hnone : current = none → e.current = none)
    (hcurrent : ∀ s ∈ current, ∃ s₀ ∈ e.current, ∀ Q ∈ F.ahead,
      t.Represents δ s₀ (Q ∩ t.goal) → Tree.Represents δ { t with goal } s (Q ∩ goal)) :
    Explores δ { t with goal } limit F.trail.length { e with current } F where
  keeps := ⟨h.keeps.carries, h.keeps.valid.retarget hgoal (le_refl _), h.keeps.linked,
    h.keeps.depth, h.keeps.usedUp⟩
  current s hs := by
    obtain ⟨s₀, hs₀, hnarrowed⟩ := hcurrent s hs
    obtain ⟨Q, hahead, hpoised⟩ := h.current s₀ hs₀
    exact ⟨Q, hahead, hnarrowed Q hahead hpoised.represents, hpoised.nested, hpoised.anchored,
      hpoised.leads⟩
  rebuildable hcurrent' := h.rebuildable (hnone hcurrent')

/-- After a solution, only better ones are looked for. -/
theorem Searches.improve (h : e.Searches δ t best mark since F) (hcurrent : e.current = none)
    (hs : t.Finds s) :
    e.Searches δ { t with goal := t.improving s.store } (some s) e.path.length since F where
  regular := ⟨h.regular.root, h.regular.objective⟩
  aims :=
    { mark := fun hnone => by cases hnone
      all := fun hnone => by cases hnone
      sound := fun b hb => by
        cases hb
        exact hs.sound
      size := fun b hb => by
        cases hb
        exact hs.size
      goal := fun b hb => by
        cases hb
        rfl }
  explores := by
    rw [h.explores.keeps.carries.length]
    refine (h.explores.retarget e.current (h.aims.improving_subset hs) id fun s hs => ?_).congr
      rfl rfl rfl (Nat.le_refl _)
    rw [hcurrent] at hs
    cases hs
  logs := h.logs

end Explorer

section Remaining

variable {F G : Frontier}

/-- What is left after a solution, if all solutions are looked for. -/
theorem Frontier.pending_eq_remaining (h : F.pending t = insert a (G.pending t))
    (hnot : a ∉ G.pending t) : G.pending t = remaining none a (F.pending t) := by
  ext b
  rw [h]
  constructor
  · intro hb
    refine ⟨Set.mem_insert_of_mem a hb, ?_, fun o ho => by cases ho⟩
    rintro rfl
    exact hnot hb
  · rintro ⟨hb, hne, -⟩
    exact hb.resolve_left hne

/-- What is left after a solution, if only better ones are looked for. -/
theorem Frontier.pending_improving {goal : Set Box}
    (h : F.pending t = insert a (G.pending t)) (hnot : a ∉ G.pending t) (hgoal : goal ⊆ t.goal)
    (hiff : ∀ b : Assignment, b.box ∈ goal ↔ ∀ o ∈ t.objective, o.Better b a) :
    G.pending { t with goal } = remaining t.objective a (F.pending t) := by
  ext b
  rw [h]
  constructor
  · rintro ⟨⟨hb, hw⟩, hregion⟩
    have hbetter := hw.goal
    have hmem : b ∈ G.pending t := ⟨⟨hb, hw.sound, hw.consistent, hgoal hbetter⟩, hregion⟩
    refine ⟨Set.mem_insert_of_mem a hmem, ?_, (hiff b).1 hbetter⟩
    rintro rfl
    exact hnot hmem
  · rintro ⟨hb, hne, hbetter⟩
    obtain ⟨⟨hb, hw⟩, hregion⟩ := hb.resolve_left hne
    exact ⟨⟨hb, hw.sound, hw.consistent, (hiff b).2 hbetter⟩, hregion⟩

end Remaining

/-! ### The beginning -/

/-- The frontier of a tree that is not explored yet. A root that fails is not explored at all. -/
inductive Frontier.Opens (δ : Prop) (t : Tree) : Frontier → Prop
  | whole {s : Space} (h : t.Rests δ s (t.whole ∩ t.goal)) : Opens δ t ⟨[], some t.whole⟩
  | failed (h : ∀ B ∈ t.whole, ¬t.Wanted B) : Opens δ t ⟨[], none⟩

/-- At the beginning, all solutions are pending. -/
theorem Frontier.Opens.pending {F : Frontier} (h : F.Opens δ t) :
    F.pending t = {a | t.Solution a} := by
  refine Set.ext fun a => ⟨And.left, fun ha => ⟨ha, .inl ?_⟩⟩
  cases h with
  | whole => exact ⟨t.whole, rfl, ha.mem_whole⟩
  | failed hnone => exact absurd ha.2 (hnone _ ha.mem_whole)

namespace Explorer

variable {mark since : Nat} {e : Explorer}

theorem searches_of_start (ht : t.Regular δ) (hgoal : t.goal = Set.univ)
    (hs : t.Represents δ s t.whole) :
    Journaled.Yields δ (e.start s) fun e' => e.Evolves e' ∧ ∃ F, F.Opens δ t ∧
      e'.Searches δ t none 0 e.statistics.fails F := by
  have hwhole : t.Represents δ s (t.whole ∩ t.goal) := by rwa [hgoal, Set.inter_univ]
  refine (start_law 0 hwhole).mono fun e' he' => ?_
  obtain ⟨he, ahead, hexplores, hahead⟩ := he'
  have haims : t.Aims none 0 :=
    ⟨fun _ => rfl, fun _ => hgoal, fun b hb => (by cases hb), fun b hb => (by cases hb),
      fun b hb => (by cases hb)⟩
  refine ⟨he, ⟨[], ahead⟩, ?_, ht, haims, he.exploration ▸ hexplores, ?_⟩
  · rcases hahead with ⟨rfl, -, s', hs'⟩ | ⟨rfl, hnone⟩
    · exact .whole hs'
    · exact .failed hnone
  · rcases hahead with ⟨rfl, hfails, -⟩ | ⟨rfl, -⟩
    · exact .inr (.inl hfails.le)
    · exact .inr (.inr (.inl rfl))

end Explorer

section Steps

variable {σ : Type} {since : Nat} {F : Frontier}

namespace CompleteSearch

/-- Whether only better solutions are looked for. -/
def optimises : CompleteSearch σ → Bool
  | branchAndBound _ => true
  | depthFirst _ | parallel _ => false

/-- The objective by which solutions must be better, if any. -/
def sought (t : Tree) (search : CompleteSearch σ) : Option Objective :=
  if search.optimises then t.objective else none

/-- The explorer of a search by one worker. -/
def explorer? : CompleteSearch σ → Option Explorer
  | depthFirst d => some d.explorer
  | branchAndBound b => some b.explorer
  | parallel _ => none

/-- The search goes on as another one of the same kind. -/
structure Continues (search search' : CompleteSearch σ) : Prop where
  optimises : search'.optimises = search.optimises
  explorer : ∀ e ∈ search.explorer?, ∃ e' ∈ search'.explorer?, e.Evolves e'

theorem continues_depthFirst {d d' : DepthFirst σ} (h : d.explorer.Evolves d'.explorer) :
    (depthFirst d).Continues (depthFirst d') where
  optimises := rfl
  explorer e he := by
    cases he
    exact ⟨_, rfl, h⟩

theorem continues_branchAndBound {b b' : BranchAndBound σ} (h : b.explorer.Evolves b'.explorer) :
    (branchAndBound b).Continues (branchAndBound b') where
  optimises := rfl
  explorer e he := by
    cases he
    exact ⟨_, rfl, h⟩

/-- The search by one worker has the frontier `F` in the tree. -/
def Seeks (δ : Prop) (t : Tree) (since : Nat) : CompleteSearch σ → Frontier → Prop
  | depthFirst d, F => d.explorer.Searches δ t none 0 since F
  | branchAndBound b, F => b.explorer.Searches δ t b.best b.mark since F
  | parallel _, _ => False

theorem Seeks.isSome_explorer {search : CompleteSearch σ} (h : search.Seeks δ t since F) :
    search.explorer?.isSome = true := by
  cases search with
  | depthFirst d => rfl
  | branchAndBound b => rfl
  | parallel p => exact h.elim

/-- A search by one worker begins. -/
theorem start_law (ht : t.Regular δ) (hgoal : t.goal = Set.univ) (hs : t.Represents δ s t.whole)
    {threads : Nat} (hthreads : threads ≤ 1) (optimising : Bool) (exploration : Exploration)
    (recorded : Bool) (stop : σ) :
    Journaled.Yields δ (start s threads optimising exploration recorded stop) fun search =>
      search.optimises = optimising ∧ search.stop = stop ∧
        (∀ e ∈ search.explorer?, e.exploration = exploration) ∧
        ∃ F, F.Opens δ t ∧ search.Seeks δ t 0 F := by
  unfold start
  rw [if_neg (not_lt.2 hthreads)]
  cases optimising with
  | true =>
    unfold BranchAndBound.start
    rw [bind_assoc]
    refine (Explorer.searches_of_start ht hgoal hs).bind fun e he =>
      Journaled.Yields.pure ⟨rfl, rfl, fun e' he' => ?_, he.2⟩
    cases he'
    exact he.1.exploration
  | false =>
    unfold DepthFirst.start
    rw [bind_assoc]
    refine (Explorer.searches_of_start ht hgoal hs).bind fun e he =>
      Journaled.Yields.pure ⟨rfl, rfl, fun e' he' => ?_, he.2⟩
    cases he'
    exact he.1.exploration

/-- A search of another tree begins. -/
theorem reset_law {statistics : Statistics} (ht : t.Regular δ) (hgoal : t.goal = Set.univ)
    (hs : t.Represents δ s t.whole) {search : CompleteSearch σ}
    (h : search.explorer?.isSome = true) (hstatistics : search.statistics = .ok statistics) :
    Journaled.Yields δ (search.reset s) fun search' =>
      search.Continues search' ∧ search'.stop = search.stop ∧
        ∃ F, F.Opens δ t ∧ search'.Seeks δ t statistics.fails F := by
  cases search with
  | depthFirst d =>
    cases hstatistics
    unfold reset DepthFirst.reset
    dsimp only
    rw [bind_assoc]
    exact (Explorer.searches_of_start ht hgoal hs).bind fun e he =>
      Journaled.Yields.pure ⟨continues_depthFirst he.1, rfl, he.2⟩
  | branchAndBound b =>
    cases hstatistics
    unfold reset BranchAndBound.reset
    dsimp only
    rw [bind_assoc]
    exact (Explorer.searches_of_start ht hgoal hs).bind fun e he =>
      Journaled.Yields.pure ⟨continues_branchAndBound he.1, rfl, he.2⟩
  | parallel p => cases h

end CompleteSearch

/-! ### Steps -/

variable [StopCondition σ] {P : σ → Prop} {P' : σ → Statistics → Prop}

/-- The conditions with `P` can be polled. One that does not hold stays among them, and one that
holds has `P'`. -/
def Polls (δ : Prop) (P : σ → Prop) (P' : σ → Statistics → Prop) : Prop :=
  ∀ stop, P stop → ∀ statistics, Yields δ (StopCondition.poll stop statistics) fun r =>
    if r.1 then P' r.2 statistics else P r.2

namespace CompleteSearch

/-- What a step of a search does. -/
def Stepped (δ : Prop) (t : Tree) (since : Nat) (P : σ → Prop) (P' : σ → Statistics → Prop)
    (search : CompleteSearch σ) (F : Frontier) : Option Outcome × CompleteSearch σ → Prop
  | (outcome, search') => search.Continues search' ∧
      match outcome with
      | none => P search'.stop ∧ ∃ G, G.Lt t F ∧ search'.Seeks δ t since G
      | some (.solution s) => P search'.stop ∧ t.Finds s ∧ ∃ goal G,
          (search.optimises = false → goal = t.goal) ∧
          G.bound t < F.bound t ∧ search'.Seeks δ { t with goal } since G ∧
          (t.Exact → s.store.Assigned ∧ s.store.assignment ∈ F.pending t ∧
            G.pending { t with goal } =
              remaining (search.sought t) s.store.assignment (F.pending t))
      | some .exhausted => P search'.stop ∧ F.pending t = ∅ ∧ search'.Seeks δ t since ⟨[], none⟩
      | some .stopped => search'.Seeks δ t since F ∧
          ∃ statistics, search'.statistics = .ok statistics ∧ P' search'.stop statistics

theorem pending_eq_empty {n n' : Nat} (h : Frontier.Follows t F n n' ⟨[], none⟩) :
    F.pending t = ∅ := by
  rw [← h.le.pending, Frontier.pending_nil]

theorem step_depthFirst_law (hpolls : Polls δ P P') {d : DepthFirst σ}
    (hstop : P d.stop) (h : (depthFirst d).Seeks δ t since F) :
    Journaled.Yields δ d.step
      fun r => Stepped δ t since P P' (depthFirst d) F (r.1, depthFirst r.2) := by
  unfold DepthFirst.step
  refine (Journaled.Yields.lift (hpolls d.stop hstop _)).bind ?_
  rintro ⟨holds, stop⟩ hpoll
  cases holds with
  | true =>
    exact Journaled.Yields.pure
      ⟨continues_depthFirst ⟨rfl, Nat.le_refl _⟩, h, _, rfl, hpoll⟩
  | false =>
    dsimp only
    rw [if_neg Bool.false_ne_true] at hpoll ⊢
    refine (Explorer.Searches.nextNode_law h).bind ?_
    rintro ⟨node, e, bound⟩ ⟨hevolves, mark, G, -, hfollows, hnode⟩
    cases node with
    | none =>
      obtain ⟨rfl, hsearches⟩ := hnode
      have hmark := hsearches.aims.mark rfl
      subst hmark
      exact Journaled.Yields.pure
        ⟨continues_depthFirst hevolves, hpoll, pending_eq_empty hfollows, hsearches⟩
    | some s =>
      obtain ⟨Q, hreaches⟩ := hnode
      have hmark := hreaches.aims.mark rfl
      subst hmark
      refine hreaches.explore_law.bind ?_
      rintro ⟨explored, e'⟩ hadvances
      cases explored with
      | solved s =>
        obtain ⟨he, H, hbound, hfinds, hfound, -, hsearches⟩ := hadvances
        have hevolves' := hevolves.trans he
        refine Journaled.Yields.pure
          ⟨continues_depthFirst ⟨hevolves'.exploration, hevolves'.depth⟩, hpoll, hfinds,
            t.goal, H, fun _ => rfl, hbound.trans_le hfollows.le.bound,
            hsearches.congr rfl rfl rfl rfl ⟨rfl, Nat.le_refl _⟩, fun hexact => ?_⟩
        obtain ⟨hassigned, hpending, hnot⟩ := hfound hexact
        rw [hfollows.le.pending] at hpending
        refine ⟨hassigned, ?_, Frontier.pending_eq_remaining hpending hnot⟩
        rw [hpending]
        exact Set.mem_insert _ _
      | failed | branched =>
        obtain ⟨he, H, hlt, hsearches⟩ := hadvances
        exact Journaled.Yields.pure ⟨continues_depthFirst (hevolves.trans he), hpoll, H,
          hlt.trans_le hfollows.le, hsearches⟩

theorem step_branchAndBound_law (hpolls : Polls δ P P') {b : BranchAndBound σ}
    (hstop : P b.stop) (h : (branchAndBound b).Seeks δ t since F) :
    Journaled.Yields δ b.step
      fun r => Stepped δ t since P P' (branchAndBound b) F (r.1, branchAndBound r.2) := by
  unfold BranchAndBound.step
  refine (Journaled.Yields.lift (hpolls b.stop hstop _)).bind ?_
  rintro ⟨holds, stop⟩ hpoll
  cases holds with
  | true =>
    exact Journaled.Yields.pure
      ⟨continues_branchAndBound ⟨rfl, Nat.le_refl _⟩, h, _, rfl, hpoll⟩
  | false =>
    dsimp only
    rw [if_neg Bool.false_ne_true] at hpoll ⊢
    refine (Explorer.Searches.nextNode_law h).bind ?_
    rintro ⟨node, e, bound⟩ ⟨hevolves, mark, G, hbound, hfollows, hnode⟩
    have hmark (haims : t.Aims b.best mark) : (bound.map Bound.mark).getD b.mark = mark := by
      dsimp only at hbound
      rw [hbound]
      exact h.aims.getD_boundOf haims
    cases node with
    | none =>
      obtain ⟨rfl, hsearches⟩ := hnode
      refine Journaled.Yields.pure
        ⟨continues_branchAndBound hevolves, hpoll, pending_eq_empty hfollows, ?_⟩
      show e.Searches δ t b.best ((bound.map Bound.mark).getD b.mark) since _
      rw [hmark hsearches.aims]
      exact hsearches
    | some s =>
      obtain ⟨Q, hreaches⟩ := hnode
      refine hreaches.explore_law.bind ?_
      rintro ⟨explored, e'⟩ hadvances
      cases explored with
      | solved s =>
        obtain ⟨he, H, hlt, hfinds, hfound, hcurrent, hsearches⟩ := hadvances
        have hevolves' := hevolves.trans he
        have himprove := hsearches.improve hcurrent hfinds
        refine Journaled.Yields.pure
          ⟨continues_branchAndBound ⟨hevolves'.exploration, hevolves'.depth⟩, hpoll, hfinds,
            t.improving s.store, H, nofun, hlt.trans_le hfollows.le.bound,
            himprove.congr rfl rfl rfl rfl ⟨rfl, Nat.le_refl _⟩, fun hexact => ?_⟩
        obtain ⟨hassigned, hpending, hnot⟩ := hfound hexact
        rw [hfollows.le.pending] at hpending
        refine ⟨hassigned, ?_, Frontier.pending_improving hpending hnot
          (hsearches.aims.improving_subset hfinds) fun a => ?_⟩
        · rw [hpending]
          exact Set.mem_insert _ _
        · exact forall₂_congr fun o _ => Objective.improves_box hassigned hfinds.sound
      | failed | branched =>
        obtain ⟨he, H, hlt, hsearches⟩ := hadvances
        refine Journaled.Yields.pure ⟨continues_branchAndBound (hevolves.trans he), hpoll, H,
          hlt.trans_le hfollows.le, ?_⟩
        show e'.Searches δ t b.best ((bound.map Bound.mark).getD b.mark) since H
        rw [hmark hsearches.aims]
        exact hsearches

/-- What a step of a search does. -/
theorem step_law (hpolls : Polls δ P P') {search : CompleteSearch σ}
    (hstop : P search.stop) (h : search.Seeks δ t since F) :
    Journaled.Yields δ search.step (Stepped δ t since P P' search F) := by
  cases search with
  | depthFirst d =>
    exact (step_depthFirst_law hpolls hstop h).bind fun r hr => Journaled.Yields.pure hr
  | branchAndBound b =>
    exact (step_branchAndBound_law hpolls hstop h).bind fun r hr =>
      Journaled.Yields.pure hr
  | parallel p => exact h.elim

end CompleteSearch

end Steps

end ConstraintSearch
