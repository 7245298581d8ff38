import ConstraintSearch.Proofs.Branching.Brancher
import ConstraintSearch.Proofs.Space

/-!
# The nodes of a search tree

A node of the tree is a space with the constraints and the branchers of the root, and with smaller
domains. It stands for a region, which is a set of boxes: the boxes of the node lie in the region,
and the node has all boxes of the region that are stable for the constraints and are looked for.

* `Lineup`: the branchers of a space, which are those of a chain;
* `Space.status_law`: the status of a space;
* `Tree`: what the nodes of one tree have in common, and `Tree.Wanted` what is looked for;
* `Tree.Represents`: a space stands for a region;
* `Tree.status_law`, `Tree.choice_law`, `Tree.commit_law`, `Tree.constrain_law`: what a space stands
  for after each of the operations of a search. To commit an alternative leaves the part of the
  region that the alternative keeps.
-/

namespace ConstraintSearch

variable {δ : Prop}

/-! ### The branchers of a space -/

/-- The branchers are those of the chain, and have passed over decided variables only; those before
a position have nothing left to decide. -/
structure Lineup (chain : List Brancher) (s : Store) (branchers : Table Brancher) (active : Nat) :
    Prop where
  base : ∀ i, (branchers.get? i).map Brancher.base = chain[i]?
  le : active ≤ chain.length
  plain : ∀ b ∈ chain, b.Plain s
  settled : ∀ i b, branchers.get? i = some b → b.Settled s
  done : ∀ i < active, ∀ b, branchers.get? i = some b → b.Done s

namespace Lineup

variable {chain : List Brancher} {s s' : Store} {branchers : Table Brancher} {active i : Nat}
  {b b' : Brancher}

theorem base_of_get? (h : Lineup chain s branchers active) (hb : branchers.get? i = some b) :
    chain[i]? = some b.base := by
  rw [← h.base, hb]
  rfl

theorem plain_of_get? (h : Lineup chain s branchers active) (hb : branchers.get? i = some b) :
    b.Plain s :=
  Brancher.plain_base.1 (h.plain _ (List.mem_of_getElem? (h.base_of_get? hb)))

/-- Narrowing variables, or adding some, does not disturb the branchers. -/
theorem of_evolves (h : Lineup chain s branchers active) (hs : s.Sound) (hs' : s'.Sound)
    (he : s.Evolves s') : Lineup chain s' branchers active where
  base := h.base
  le := h.le
  plain b hb := (h.plain b hb).of_evolves he
  settled i b hb := (h.settled i b hb).of_evolves (h.plain_of_get? hb) hs hs' he
  done i hi b hb := (h.done i hi b hb).of_evolves (h.plain_of_get? hb) hs hs' he

/-- A brancher may be replaced by what it has become. -/
theorem set (h : Lineup chain s branchers active) (hb : branchers.get? i = some b)
    (hbase : b'.base = b.base) (hsettled : b'.Settled s) (hdone : i < active → b'.Done s) :
    Lineup chain s (branchers.set i b') active := by
  have hlt : i < branchers.size := (Array.getElem?_eq_some_iff.1 hb).1
  have hrow {j : Nat} {b'' : Brancher} (h : (branchers.set i b').get? j = some b'') :
      i = j ∧ b' = b'' ∨ branchers.get? j = some b'' := by
    rw [Table.get?_set, if_pos hlt] at h
    by_cases hj : i = j
    · rw [if_pos hj] at h
      exact .inl ⟨hj, Option.some.inj h⟩
    · rw [if_neg hj] at h
      exact .inr h
  refine ⟨fun j => ?_, h.le, h.plain, fun j b'' hb'' => ?_, fun j hj b'' hb'' => ?_⟩
  · rw [Table.get?_set]
    by_cases hj : i = j
    · subst hj
      rw [if_pos rfl, if_pos hlt, h.base_of_get? hb, ← hbase]
      rfl
    · rw [if_neg hj]
      exact h.base j
  · rcases hrow hb'' with ⟨-, rfl⟩ | hb''
    · exact hsettled
    · exact h.settled j b'' hb''
  · rcases hrow hb'' with ⟨rfl, rfl⟩ | hb''
    · exact hdone hj
    · exact h.done j hj b'' hb''

/-- A brancher that is done may be passed over. -/
theorem succ (h : Lineup chain s branchers active) (hb : branchers.get? active = some b)
    (hdone : b.Done s) : Lineup chain s branchers (active + 1) where
  base := h.base
  le := (List.getElem?_eq_some_iff.1 (h.base_of_get? hb)).1
  plain := h.plain
  settled := h.settled
  done i hi b' hb' := by
    rcases Nat.lt_succ_iff_lt_or_eq.1 hi with hi | rfl
    · exact h.done i hi b' hb'
    · cases hb.symm.trans hb'
      exact hdone

end Lineup

namespace Space

variable {chain : List Brancher} {posted : List Propagator} {s s' : Space}

/-- What passing over branchers establishes. -/
structure Advanced (chain : List Brancher) (s : Store) (r : Bool × Table Brancher × Nat) :
    Prop where
  lineup : Lineup chain s r.2.1 r.2.2
  hasOpen : r.1 = true → ∃ b, r.2.1.get? r.2.2 = some b ∧ b.HasOpen s
  done : r.1 = false → ∀ i b, r.2.1.get? i = some b → b.Done s

theorem advance_law {store : Store} (hs : store.Sound) {candidates : List (Brancher × Nat)}
    {branchers : Table Brancher} {active : Nat} (h : Lineup chain store branchers active)
    (hcandidates : ∀ i, candidates[i]? = (branchers.get? (active + i)).map (·, active + i)) :
    Yields δ (advance store candidates branchers active) (Advanced chain store) := by
  induction candidates generalizing branchers active with
  | nil =>
    refine Yields.pure ⟨h, (fun hopen => by cases hopen), fun _ i b hb => ?_⟩
    refine h.done i ?_ b hb
    by_contra hle
    have := hcandidates (i - active)
    rw [Nat.add_sub_cancel' (not_lt.1 hle), hb] at this
    cases this
  | cons candidate rest ih =>
    obtain ⟨b, position⟩ := candidate
    obtain ⟨b', hb, heq⟩ := Option.map_eq_some_iff.1 (hcandidates 0).symm
    cases heq
    rw [Nat.add_zero] at hb
    unfold advance
    refine (Brancher.status_law hs (h.plain_of_get? hb) (h.settled _ _ hb)).bind fun r hr => ?_
    obtain ⟨isOpen, b'⟩ := r
    have hset := h.set hb hr.base hr.settled (fun hlt => absurd hlt (lt_irrefl _))
    have hlt : active < branchers.size := (Array.getElem?_eq_some_iff.1 hb).1
    have hget : (branchers.set active b').get? active = some b' := by
      rw [Table.get?_set, if_pos rfl, if_pos hlt]
    cases isOpen with
    | true =>
      refine Yields.pure ⟨hset, fun _ => ?_, (fun hclosed => by cases hclosed)⟩
      exact ⟨b', hget, hr.hasOpen rfl⟩
    | false =>
      refine ih (hset.succ hget (hr.done rfl)) fun i => ?_
      have hrest := hcandidates (i + 1)
      rw [List.getElem?_cons_succ] at hrest
      rw [hrest, Table.get?_set, if_neg (by omega)]
      rw [Nat.add_right_comm, Nat.add_assoc]

/-- What the status of a space says, unless it has failed. -/
structure Rests (δ : Prop) (posted : List Propagator) (chain : List Brancher) (s s' : Space) :
    Prop where
  tracks : s'.Tracks δ posted none
  idle : ∀ n, s'.state.queue.isScheduled n = false
  narrows : s.store.Narrows s'.store
  kept : ∀ F : Box, F.Sound → Consistent posted F → F.Within s.store → F.Within s'.store
  lineup : Lineup chain s'.store s'.branchers s'.active
  objective : s'.objective = s.objective

/-- What the status of a space says. -/
def Judged (δ : Prop) (posted : List Propagator) (chain : List Brancher) (s : Space) :
    SpaceStatus × Space → Prop
  | (.failed, s') => s'.isFailed = true ∧ s'.objective = s.objective ∧
      ∀ F : Box, F.Sound → Consistent posted F → ¬F.Within s.store
  | (.solved, s') => s.Rests δ posted chain s' ∧
      ∀ i b, s'.branchers.get? i = some b → b.Done s'.store
  | (.branch, s') => s.Rests δ posted chain s' ∧
      ∃ b, s'.branchers.get? s'.active = some b ∧ b.HasOpen s'.store

theorem status_law (h : s.Tracks δ posted none)
    (hlineup : Lineup chain s.store s.branchers s.active) :
    Journaled.Yields δ s.status (s.Judged δ posted chain) := by
  unfold status
  refine (propagate_law h).bind fun s₁ hs₁ => ?_
  unfold Propagated at hs₁
  by_cases hf : s₁.isFailed = true
  · rw [if_pos hf] at hs₁ ⊢
    exact Journaled.Yields.pure ⟨hf, hs₁.branching.objective, hs₁.none_stable⟩
  rw [if_neg hf] at hs₁ ⊢
  obtain ⟨htracks, hprogress, hidle⟩ := hs₁
  have hlineup₁ : Lineup chain s₁.store s₁.branchers s₁.active := by
    rw [hprogress.branching.branchers, hprogress.branching.active]
    exact hlineup.of_evolves h.ready.sound htracks.ready.sound hprogress.narrows.evolves
  have hcandidates (i : Nat) : (s₁.branchers.toList.zipIdx.drop s₁.active)[i]? =
      (s₁.branchers.get? (s₁.active + i)).map (·, s₁.active + i) := by
    rw [List.getElem?_drop, List.getElem?_zipIdx, Nat.zero_add]
    exact congrArg (Option.map (·, s₁.active + i)) Array.getElem?_toList
  refine (Journaled.Yields.lift (advance_law htracks.ready.sound hlineup₁ hcandidates)).bind
    fun r hr => Journaled.Yields.pure ?_
  obtain ⟨isOpen, branchers, active⟩ := r
  have hrests : s.Rests δ posted chain { s₁ with branchers, active } :=
    ⟨htracks.congr rfl rfl, hidle, hprogress.narrows, hprogress.kept, hr.lineup,
      hprogress.branching.objective⟩
  cases isOpen with
  | true => exact ⟨hrests, hr.hasOpen rfl⟩
  | false => exact ⟨hrests, hr.done rfl⟩

/-- What a restriction of a space leaves. -/
def Restricted (s : Space) (P : Box → Prop) (s' : Space) : Prop :=
  if s'.isFailed then ∀ F : Box, F.Sound → F.Within s.store → ¬P F
  else s.state.Advances s'.state ∧
    ∀ F : Box, F.Sound → (F.Within s'.store ↔ F.Within s.store ∧ P F)

/-- To restrict a variable keeps exactly the restricted boxes. -/
theorem restrict_law (hs : s.state.Ready) {x : IntVar} (hx : x.index < s.store.ints.size)
    (hproper : x.Proper ∨ δ) (relation : Relation) (v : Int) :
    Yields δ (s.restrict x relation v) fun r =>
      (∃ state, r.2 = { s with state }) ∧ s.Restricted (x.Restricted relation v) r.2 := by
  have hlaw : Yields δ (s.state.restrict x relation v) _ :=
    (State.yields_restrict hs hx hproper relation v).self
  refine hlaw.bind fun r hr => Yields.pure ⟨⟨_, rfl⟩, ?_⟩
  obtain ⟨event, state⟩ := r
  obtain ⟨⟨hnarrowing, -⟩, heq⟩ := hr
  have hfailed := (State.of_narrow heq hs.alive).2
  unfold State.NarrowingLaw at hnarrowing
  unfold Restricted
  dsimp only at hnarrowing hfailed ⊢
  cases hevent : event.isFailed with
  | true =>
    rw [hevent] at hnarrowing
    have hf : { s with state }.isFailed = true := hfailed hevent
    rw [if_pos hf]
    exact hnarrowing
  | false =>
    rw [hevent] at hnarrowing
    obtain ⟨hadvances, hnarrowed, -⟩ := hnarrowing
    have halive : { s with state }.isFailed = false := hadvances.failed.trans hs.alive
    rw [halive, if_neg (by decide)]
    refine ⟨hadvances, fun F hF => ⟨fun hle => ?_, fun ⟨hle, hP⟩ => ?_⟩⟩
    · refine ⟨hadvances.store.within_of_within hle, fun u hu => ?_⟩
      exact hnarrowed.holds u (hle.ints _ (hadvances.store.size_ints ▸ hx) u hu)
    · exact hnarrowed.greatest F hF hle hP

end Space

/-! ### The nodes of a tree -/

/-- The boxes that an alternative covers. -/
def Choice.keeps (c : Choice) (i : Nat) : Set Box := {F | c.decision.Covers F i}

/-- The box has better values of the objective only than the store. -/
def Objective.Improves (best : Store) (F : Box) : Objective → Prop
  | minimise x => x.Restricted .atMost (x.edge best.box .upper - 1) F
  | maximise x => x.Restricted .atLeast (x.edge best.box .lower + 1) F

/-- The boxes of a space; none if the space has failed. -/
def Space.boxes (s : Space) : Set Box := {F | s.isFailed = false ∧ F.Within s.store}

/-- What the nodes of a search tree have in common: what was posted, the branchers, the domains of
the root, the objective, and the boxes that are looked for. -/
structure Tree where
  posted : List Propagator
  chain : List Brancher
  root : Store
  objective : Option Objective
  goal : Set Box

namespace Tree

variable {t : Tree} {s s' : Space} {T : Store} {Q R : Set Box} {a : Assignment} {F : Box}

/-- The box is stable for what was posted, and is looked for. -/
structure Wanted (t : Tree) (F : Box) : Prop where
  sound : F.Sound
  consistent : Space.Consistent t.posted F
  goal : F ∈ t.goal

/-- The assignment is one of the root, satisfies what was posted, and is looked for. -/
def Solution (t : Tree) (a : Assignment) : Prop := a.Within t.root ∧ t.Wanted a.box

/-- The branchers decide all variables. -/
structure Decides (t : Tree) : Prop where
  ints : ∀ i < t.root.ints.size, ∃ b ∈ t.chain, ∃ x ∈ b.ints, x.index = i ∧ x.Proper
  sets : ∀ i < t.root.sets.size, ∃ b ∈ t.chain, i ∈ b.sets

/-- The branchers decide all variables, and no propagator narrows a variable from both sides. Then
the spaces that are found are solutions. -/
structure Exact (t : Tree) : Prop where
  decides : t.Decides
  oriented : ∀ q ∈ t.posted, q.Oriented

/-- The domains hold all boxes of the region that are looked for, and only boxes of the region. -/
structure Frames (t : Tree) (Q : Set Box) (T : Store) : Prop where
  sound : T.Sound
  narrows : t.root.Narrows T
  within : ∀ F : Box, F.Sound → F.Within T → F ∈ Q
  kept : ∀ F ∈ Q, t.Wanted F → F.Within T

/-- The space is a node of the tree that has not failed, and stands for a region. -/
structure Stands (δ : Prop) (t : Tree) (s : Space) (Q : Set Box) : Prop where
  tracks : s.Tracks δ t.posted none
  lineup : Lineup t.chain s.store s.branchers s.active
  objective : s.objective = t.objective
  frames : t.Frames Q s.store

/-- The space stands for the region `Q`, or has failed rightly. -/
inductive Represents (δ : Prop) (t : Tree) (s : Space) (Q : Set Box) : Prop
  | failed (hfailed : s.isFailed = true) (hobjective : s.objective = t.objective)
      (hnone : ∀ F ∈ Q, ¬t.Wanted F)
  | stands (h : t.Stands δ s Q)

/-- The boxes of the root. -/
def whole (t : Tree) : Set Box := {F | F.Within t.root}

theorem frames_whole (h : t.root.Sound) : t.Frames t.whole t.root where
  sound := h
  narrows := .refl _
  within _ _ hF := hF
  kept _ hF _ := hF

theorem Solution.mem_whole (h : t.Solution a) : a.box ∈ t.whole := h.1.box

theorem Stands.alive (h : t.Stands δ s Q) : s.isFailed = false := h.tracks.ready.alive

theorem Represents.objective (h : t.Represents δ s Q) : s.objective = t.objective := by
  rcases h with ⟨-, hobjective, -⟩ | h
  · exact hobjective
  · exact h.objective

/-- An assignment in the region that is looked for is one of the domains. -/
theorem Frames.within_of_mem (h : t.Frames Q T) (ha : t.Solution a) (hmem : a.box ∈ Q) :
    a.Within T :=
  ha.1.of_box h.narrows (h.kept _ hmem ha.2)

theorem Frames.mem_of_within (h : t.Frames Q T) (ha : a.Within T) : a.box ∈ Q :=
  h.within _ ha.sound ha.box

theorem Frames.mono (h : t.Frames Q T) (hQR : Q ⊆ R) (hkept : ∀ F ∈ R, t.Wanted F → F ∈ Q) :
    t.Frames R T where
  sound := h.sound
  narrows := h.narrows
  within F hF hle := hQR (h.within F hF hle)
  kept F hF hw := h.kept F (hkept F hF hw) hw

/-- A node of a part of the region that has all of it that is looked for. -/
theorem Represents.mono (h : t.Represents δ s Q) (hQR : Q ⊆ R)
    (hkept : ∀ F ∈ R, t.Wanted F → F ∈ Q) : t.Represents δ s R := by
  rcases h with ⟨hfailed, hobjective, hnone⟩ | h
  · exact .failed hfailed hobjective fun F hF hw => hnone F (hkept F hF hw) hw
  · exact .stands ⟨h.tracks, h.lineup, h.objective, h.frames.mono hQR hkept⟩

/-- A node that has only boxes that are looked for. -/
theorem Represents.of_goal (h : t.Represents δ s (Q ∩ t.goal)) : t.Represents δ s Q :=
  h.mono Set.inter_subset_left fun _ hF hw => ⟨hF, hw.goal⟩

theorem Wanted.of_goal {G : Set Box} (hG : G ⊆ t.goal) (h : Wanted { t with goal := G } F) :
    t.Wanted F :=
  ⟨h.sound, h.consistent, hG h.goal⟩

theorem Frames.retarget {G : Set Box} (hG : G ⊆ t.goal) (h : t.Frames Q T) :
    Frames { t with goal := G } Q T :=
  ⟨h.sound, h.narrows, h.within, fun F hF hw => h.kept F hF (hw.of_goal hG)⟩

/-- If less is looked for, the space stands for the region still. -/
theorem Represents.retarget {G : Set Box} (hG : G ⊆ t.goal) (h : t.Represents δ s Q) :
    Represents δ { t with goal := G } s Q := by
  rcases h with ⟨hfailed, hobjective, hnone⟩ | h
  · exact .failed hfailed hobjective fun F hF hw => hnone F hF (hw.of_goal hG)
  · exact .stands ⟨h.tracks, h.lineup, h.objective, h.frames.retarget hG⟩

/-- Of what is looked for, the space has the boxes of its region. -/
theorem Represents.mem_boxes (h : t.Represents δ s Q) (hF : t.Wanted F) : F ∈ s.boxes ↔ F ∈ Q := by
  rcases h with ⟨hfailed, -, hnone⟩ | h
  · constructor
    · rintro ⟨halive, -⟩
      rw [hfailed] at halive
      cases halive
    · exact fun hmem => absurd hF (hnone F hmem)
  · exact ⟨fun hmem => h.frames.within F hF.sound hmem.2,
      fun hmem => ⟨h.alive, h.frames.kept F hmem hF⟩⟩

/-- A space stands for its own boxes, whatever is looked for. -/
theorem Stands.boxes {G : Set Box} (h : Stands δ { t with goal := G } s Q) :
    t.Stands δ s s.boxes :=
  ⟨h.tracks, h.lineup, h.objective,
    ⟨h.frames.sound, h.frames.narrows, fun _ _ hF => ⟨h.alive, hF⟩, fun _ hF _ => hF.2⟩⟩

theorem Represents.boxes {G : Set Box} (h : Represents δ { t with goal := G } s Q) :
    t.Represents δ s s.boxes := by
  rcases h with ⟨hfailed, hobjective, -⟩ | h
  · refine .failed hfailed hobjective fun F hF _ => ?_
    rw [hF.1] at hfailed
    cases hfailed
  · exact .stands h.boxes

/-! ### Status -/

/-- The domains of a node after propagation. They are stable for what was posted, except perhaps for
the cardinality of a set and for what narrows a variable from both sides. -/
structure Settles (t : Tree) (Q : Set Box) (T : Store) : Prop extends t.Frames Q T where
  stable : ∀ q ∈ t.posted, (∀ set x, q ≠ .setCardinality set x) → q.Oriented → q.Stable T.box

/-- The space is a node after propagation. -/
structure Rests (δ : Prop) (t : Tree) (s : Space) (Q : Set Box) : Prop
    extends t.Stands δ s Q where
  idle : ∀ n, s.state.queue.isScheduled n = false

/-- What the status of a node says about its region. -/
def Judged (δ : Prop) (t : Tree) (Q : Set Box) : SpaceStatus × Space → Prop
  | (.failed, s) => s.isFailed = true ∧ s.objective = t.objective ∧ ∀ F ∈ Q, ¬t.Wanted F
  | (.solved, s) => t.Rests δ s Q ∧ ∀ i b, s.branchers.get? i = some b → b.Done s.store
  | (.branch, s) => t.Rests δ s Q ∧ ∃ b, s.branchers.get? s.active = some b ∧ b.HasOpen s.store

theorem Judged.represents {status : SpaceStatus} (h : t.Judged δ Q (status, s)) :
    t.Represents δ s Q := by
  cases status with
  | failed => exact .failed h.1 h.2.1 h.2.2
  | solved => exact .stands h.1.toStands
  | branch => exact .stands h.1.toStands

theorem Judged.none_wanted (h : t.Judged δ Q (.failed, s)) : ∀ F ∈ Q, ¬t.Wanted F := h.2.2

theorem Rests.settles (h : t.Rests δ s Q) : t.Settles Q s.store where
  toFrames := h.frames
  stable q hq hset horiented := by
    obtain ⟨n, hn⟩ := List.getElem?_of_mem hq
    exact h.tracks.stable_of_idle (h.idle n) hn horiented fun set x heq => (hset set x heq).elim

/-- Narrowing that keeps what satisfies the constraints does not change what a space stands for. -/
theorem Stands.of_rests (h : t.Stands δ s Q) (hr : s.Rests δ t.posted t.chain s') :
    t.Rests δ s' Q where
  tracks := hr.tracks
  lineup := hr.lineup
  objective := hr.objective.trans h.objective
  frames :=
    { sound := hr.tracks.ready.sound
      narrows := h.frames.narrows.trans hr.narrows
      within := fun F hF hle => h.frames.within F hF (hr.narrows.within_of_within hle)
      kept := fun F hF hw => hr.kept F hw.sound hw.consistent (h.frames.kept F hF hw) }
  idle := hr.idle

theorem status_law (h : t.Represents δ s Q) : Journaled.Yields δ s.status (t.Judged δ Q) := by
  rcases h with ⟨hfailed, hobjective, hnone⟩ | h
  · unfold Space.status Space.propagate
    rw [if_pos hfailed]
    refine Journaled.Yields.bind (Journaled.Yields.pure rfl) ?_
    rintro s' rfl
    rw [if_pos hfailed]
    exact Journaled.Yields.pure ⟨hfailed, hobjective, hnone⟩
  refine (Space.status_law h.tracks h.lineup).mono fun r hr => ?_
  obtain ⟨status, s'⟩ := r
  cases status with
  | failed =>
    refine ⟨hr.1, hr.2.1.trans h.objective, fun F hF hw => ?_⟩
    exact hr.2.2 F hw.sound hw.consistent (h.frames.kept F hF hw)
  | solved => exact ⟨h.of_rests hr.1, hr.2⟩
  | branch => exact ⟨h.of_rests hr.1, hr.2⟩

/-- The variables of the space are decided, and their values are the only solution of the region. -/
structure Solves (t : Tree) (Q : Set Box) (s : Space) : Prop where
  assigned : s.store.Assigned
  mem_iff : ∀ a : Assignment, a.box ∈ Q ∧ t.Solution a ↔ a = s.store.assignment

/-- A space in which all branchers are done has one assignment, and this satisfies the
constraints. -/
theorem Rests.solves (h : t.Rests δ s Q) (ht : t.Exact) (hgoal : Q ⊆ t.goal)
    (hdone : ∀ i b, s.branchers.get? i = some b → b.Done s.store) : t.Solves Q s := by
  have hsound := h.frames.sound
  have hnarrows := h.frames.narrows
  have hexists {b : Brancher} (hb : b ∈ t.chain) :
      ∃ b' : Brancher, b'.base = b ∧ b'.Done s.store := by
    obtain ⟨i, hi⟩ := List.getElem?_of_mem hb
    rw [← h.lineup.base i] at hi
    obtain ⟨b', hb', rfl⟩ := Option.map_eq_some_iff.1 hi
    exact ⟨b', rfl, hdone i b' hb'⟩
  have hassigned : s.store.Assigned := by
    refine ⟨fun i hi => ?_, fun i hi => ?_⟩
    · obtain ⟨b, hb, x, hx, rfl, hproper⟩ := ht.decides.ints i (hnarrows.size_ints ▸ hi)
      obtain ⟨b', rfl, hb'⟩ := hexists hb
      rw [Brancher.ints_base] at hx
      exact hproper.isAssigned hsound (hb'.ints x hx)
    · obtain ⟨b, hb, hx⟩ := ht.decides.sets i (hnarrows.size_sets ▸ hi)
      obtain ⟨b', rfl, hb'⟩ := hexists hb
      rw [Brancher.sets_base] at hx
      exact hb'.sets i hx
  have hwithin := hassigned.assignment_within hsound
  have hmem : s.store.assignment.box ∈ Q := h.frames.mem_of_within hwithin
  have hconsistent : Space.Consistent t.posted s.store.assignment.box := by
    intro q hq
    obtain ⟨n, hn⟩ := List.getElem?_of_mem hq
    rw [hassigned.box_eq hsound]
    refine h.tracks.stable_of_idle (h.idle n) hn (ht.oriented q hq) ?_
    rintro set x rfl
    by_cases hset : set < s.store.sets.size
    · exact hassigned.sets set hset
    · have hget : s.store.sets.get? set = none := Array.getElem?_eq_none (not_lt.1 hset)
      simp only [Store.box, hget]
      rfl
  refine ⟨hassigned, fun a => ⟨fun ha => ?_, ?_⟩⟩
  · exact (hassigned.within_iff hsound).1 (h.frames.within_of_mem ha.2 ha.1)
  · rintro rfl
    exact ⟨hmem, hwithin.of_narrows hnarrows, hwithin.sound, hconsistent, hgoal hmem⟩

/-! ### Choices -/

/-- The choice is one of a brancher of the tree, and splits the domains of a node of the region. -/
structure Offers (t : Tree) (Q : Set Box) (c : Choice) : Prop where
  makes : ∃ b, t.chain[c.brancher]? = some b ∧ b.Makes t.root c.decision
  expressible : c.decision.Expressible
  node : ∃ T, t.Settles Q T ∧ c.decision.Splits T

namespace Offers

variable {c : Choice} {i j : Nat}

theorem two_le (h : t.Offers Q c) : 2 ≤ c.alternatives := by
  obtain ⟨T, -, hsplits⟩ := h.node
  rw [Choice.alternatives_eq]
  exact hsplits.two_le

theorem le_count (h : t.Offers Q c) : c.alternatives ≤ Word.count 32 := by
  obtain ⟨T, -, hsplits⟩ := h.node
  rw [Choice.alternatives_eq]
  exact hsplits.le_count

/-- Each solution is kept by an alternative. -/
theorem exists_keeps (h : t.Offers Q c) (ha : t.Solution a) (hmem : a.box ∈ Q) :
    ∃ i < c.alternatives, a.box ∈ c.keeps i := by
  obtain ⟨T, hsettles, hsplits⟩ := h.node
  obtain ⟨i, hi, hadmits⟩ := hsplits.exists_admits a (hsettles.within_of_mem ha hmem)
  rw [Choice.alternatives_eq]
  exact ⟨i, hi, Decision.covers_box.2 hadmits⟩

theorem unique (h : t.Offers Q c) (hi : i < c.alternatives) (hj : j < c.alternatives)
    (ha : a.box ∈ c.keeps i) (ha' : a.box ∈ c.keeps j) : i = j := by
  obtain ⟨T, -, hsplits⟩ := h.node
  rw [Choice.alternatives_eq] at hi hj
  exact hsplits.unique a i j hi hj (Decision.covers_box.1 ha) (Decision.covers_box.1 ha')

/-- No alternative keeps the whole region. -/
theorem exists_not_keeps (h : t.Offers Q c) (hi : i < c.alternatives) :
    ∃ a : Assignment, a.Within t.root ∧ a.box ∈ Q ∧ a.box ∉ c.keeps i := by
  obtain ⟨T, hsettles, hsplits⟩ := h.node
  rw [Choice.alternatives_eq] at hi
  obtain ⟨a, ha, hnot⟩ := hsplits.exists_not_admits i hi
  exact ⟨a, ha.of_narrows hsettles.narrows, hsettles.mem_of_within ha,
    fun hkeeps => hnot (Decision.covers_box.1 hkeeps)⟩

end Offers

theorem Offers.retarget {G : Set Box} (hG : G ⊆ t.goal) {c : Choice} (h : t.Offers Q c) :
    Offers { t with goal := G } Q c := by
  obtain ⟨T, hsettles, hsplits⟩ := h.node
  exact ⟨h.makes, h.expressible, T, ⟨hsettles.toFrames.retarget hG, hsettles.stable⟩, hsplits⟩

/-- A brancher that has made a choice may replace the one that was to make it. -/
theorem Stands.set (h : t.Stands δ s Q) {i : Nat} {b b' : Brancher}
    (hb : s.branchers.get? i = some b) (hbase : b'.base = b.base) (hsettled : b'.Settled s.store)
    (hi : s.active ≤ i) : t.Stands δ { s with branchers := s.branchers.set i b' } Q where
  tracks := h.tracks.congr rfl rfl
  lineup := h.lineup.set hb hbase hsettled fun hlt => absurd hi (not_le.2 hlt)
  objective := h.objective
  frames := h.frames

/-- A space with an open variable has a choice, which splits its region. -/
theorem choice_law (h : t.Rests δ s Q)
    (hopen : ∃ b, s.branchers.get? s.active = some b ∧ b.HasOpen s.store) :
    Yields δ s.choice fun r => t.Offers Q r.1 ∧ t.Represents δ r.2 Q := by
  obtain ⟨b, hb, hopen⟩ := hopen
  have hlt : s.active < s.branchers.size := (Array.getElem?_eq_some_iff.1 hb).1
  unfold Space.choice
  rw [if_neg (by simp [h.alive, hlt]), Table.fetch_eq_ok.2 hb]
  refine (Brancher.decide_law h.tracks.ready.sound (h.lineup.plain_of_get? hb)
    (h.lineup.settled _ b hb) hopen).bind fun r hr => ?_
  obtain ⟨decision, b'⟩ := r
  have hsplits := hr.splits
  have halternatives := Choice.alternatives_eq ⟨s.active, decision⟩
  dsimp only at halternatives ⊢
  rw [if_neg (by rw [halternatives]; exact not_lt.2 hsplits.two_le)]
  refine Yields.pure ⟨?_, .stands (h.set hb hr.base hr.settled (le_refl _))⟩
  refine ⟨⟨_, h.lineup.base_of_get? hb, ?_⟩, hr.expressible, s.store, h.settles, hsplits⟩
  have hnarrows := h.frames.narrows
  exact hr.makes.congr b.base_base hnarrows.size_ints.symm hnarrows.size_sets.symm

/-- To narrow a node to the boxes with a property leaves those of its region. -/
theorem Stands.narrow (h : t.Stands δ s Q) {i : Nat} {b : Brancher}
    (hb : s.branchers.get? i = some b) {state : State} {P : Box → Prop}
    (hadvances : s.state.Advances state)
    (hiff : ∀ F : Box, F.Sound → (F.Within state.store ↔ F.Within s.store ∧ P F)) :
    t.Stands δ { s with state, branchers := s.branchers.set i b } (Q ∩ {F | P F}) := by
  have htracks : Space.Tracks δ t.posted none { s with state } := h.tracks.advance hadvances
  have hlineup : Lineup t.chain state.store s.branchers s.active :=
    h.lineup.of_evolves h.tracks.ready.sound htracks.ready.sound hadvances.store.evolves
  refine ⟨htracks.congr rfl rfl, ?_, h.objective, ?_⟩
  · exact hlineup.set hb rfl (hlineup.settled _ _ hb) fun hlt => hlineup.done _ hlt _ hb
  · exact
      { sound := htracks.ready.sound
        narrows := h.frames.narrows.trans hadvances.store
        within := fun F hF hle => by
          obtain ⟨hwithin, hP⟩ := (hiff F hF).1 hle
          exact ⟨h.frames.within F hF hwithin, hP⟩
        kept := fun F hF hw => (hiff F hw.sound).2 ⟨h.frames.kept F hF.1 hw, hF.2⟩ }

/-- To commit an alternative leaves the part of the region that the alternative keeps. -/
theorem commit_law (h : t.Represents δ s Q) {c : Choice} (hc : t.Offers R c) {i : Nat}
    (hi : i < c.alternatives) :
    Yields δ (s.commit c i) (t.Represents δ · (Q ∩ c.keeps i)) := by
  unfold Space.commit
  rw [if_neg (not_le.2 hi)]
  rcases h with ⟨hfailed, hobjective, hnone⟩ | h
  · rw [if_pos hfailed]
    exact Yields.pure (.failed hfailed hobjective fun F hF => hnone F hF.1)
  rw [if_neg (by simp [h.alive])]
  have hnarrows := h.frames.narrows
  obtain ⟨b, hb, hmakes⟩ := hc.makes
  rw [← h.lineup.base] at hb
  obtain ⟨b', hb', rfl⟩ := Option.map_eq_some_iff.1 hb
  rw [Table.fetch_eq_ok.2 hb']
  have hplain := h.lineup.plain_of_get? hb'
  have hmakes' := hmakes.congr b'.base_base.symm hnarrows.size_ints hnarrows.size_sets
  rw [Choice.alternatives_eq] at hi
  have hcommit : Yields δ (b'.commit c.decision i s.state) _ :=
    Brancher.commit_law h.tracks.ready hplain hmakes' hi
  refine hcommit.bind fun r hr => ?_
  obtain ⟨outcome, state⟩ := r
  cases outcome with
  | error i =>
    refine Yields.pure (.failed rfl h.objective fun F hF hw => ?_)
    exact hr F hw.sound (h.frames.kept F hF.1 hw) hF.2
  | ok b'' =>
    obtain ⟨rfl, hadvances, hiff⟩ := hr
    exact Yields.pure (.stands (h.narrow hb' hadvances hiff))

/-! ### Objectives -/

/-- The variable of the objective can be read and narrowed. -/
def Admits (δ : Prop) (t : Tree) : Prop := ∀ o ∈ t.objective, o.variable.Admissible δ t.root

/-- The boxes that are better than a store. -/
def improving (t : Tree) (best : Store) : Set Box := {F | ∀ o ∈ t.objective, o.Improves best F}

/-- To restrict a variable leaves the restricted part of the region. -/
theorem restrict_law (h : t.Stands δ s Q) {x : IntVar} (hx : x.Admissible δ t.root)
    (relation : Relation) (v : Int) :
    Yields δ (s.restrict x relation v)
      fun r => t.Represents δ r.2 (Q ∩ {F | x.Restricted relation v F}) := by
  have hexists : x.index < s.store.ints.size := h.frames.narrows.size_ints ▸ hx.exists_var
  refine (Space.restrict_law h.tracks.ready hexists hx.proper relation v).mono fun r hr => ?_
  obtain ⟨event, s'⟩ := r
  obtain ⟨⟨state, rfl⟩, hr⟩ := hr
  unfold Space.Restricted at hr
  dsimp only
  by_cases hf : Space.isFailed { s with state } = true
  · rw [if_pos hf] at hr
    exact .failed hf h.objective fun F hF hw => hr F hw.sound (h.frames.kept F hF.1 hw) hF.2
  · rw [if_neg hf] at hr
    obtain ⟨hadvances, hiff⟩ := hr
    have htracks := h.tracks.advance hadvances
    refine .stands
      { tracks := htracks
        lineup := h.lineup.of_evolves h.tracks.ready.sound htracks.ready.sound
          hadvances.store.evolves
        objective := h.objective
        frames := ?_ }
    exact
      { sound := htracks.ready.sound
        narrows := h.frames.narrows.trans hadvances.store
        within := fun F hF hle => by
          obtain ⟨hwithin, hrestricted⟩ := (hiff F hF).1 hle
          exact ⟨h.frames.within F hF hwithin, hrestricted⟩
        kept := fun F hF hw => (hiff F hw.sound).2 ⟨h.frames.kept F hF.1 hw, hF.2⟩ }

/-- To ask for a better solution leaves the better part of the region. -/
theorem constrain_law (h : t.Represents δ s Q) (hobjective : t.Admits δ) {best : Space}
    (hsound : best.store.Sound)
    (hsize : best.store.ints.size = t.root.ints.size) :
    Yields δ (s.constrain best) (t.Represents δ · (Q ∩ t.improving best.store)) := by
  unfold Space.constrain
  rw [h.objective]
  cases ho : t.objective with
  | none =>
    have huniv : t.improving best.store = Set.univ := by
      refine Set.eq_univ_of_forall fun F o hmem => ?_
      rw [ho] at hmem
      cases hmem
    rw [huniv, Set.inter_univ]
    exact Yields.pure h
  | some o =>
    have hx := hobjective o ho
    have hread (side : Side) := IntVar.yields_bound (δ := δ) hsound
      (hsize ▸ hx.exists_var) side
    have himproving : t.improving best.store = {F | o.Improves best.store F} := by
      ext F
      simp only [improving, ho, Option.mem_some_iff, forall_eq']
    rw [himproving]
    have restrict {relation : Relation} {v : Int}
        (hv : ∀ F, o.variable.Restricted relation v F ↔ o.Improves best.store F) :
        Yields δ (do return (← s.restrict o.variable relation v).2)
          (t.Represents δ · (Q ∩ {F | o.Improves best.store F})) := by
      rcases h with ⟨hfailed, hs, hnone⟩ | h
      · have hrestrict : s.restrict o.variable relation v = .ok (.failed, s) := by
          unfold Space.restrict
          rw [State.restrict_of_failed hfailed]
          rfl
        rw [hrestrict]
        exact Yields.pure (.failed hfailed hs fun F hF => hnone F hF.1)
      · refine (restrict_law h hx relation v).bind fun r hr => Yields.pure ?_
        simpa only [hv] using hr
    cases o with
    | minimise x =>
      refine (hread .upper).bind fun v hv => (Word.yields_checked _ _).bind fun w hw => ?_
      obtain ⟨rfl, -⟩ := hv
      obtain ⟨rfl, -⟩ := hw
      exact restrict fun F => Iff.rfl
    | maximise x =>
      refine (hread .lower).bind fun v hv => (Word.yields_checked _ _).bind fun w hw => ?_
      obtain ⟨rfl, -⟩ := hv
      obtain ⟨rfl, -⟩ := hw
      exact restrict fun F => Iff.rfl

end Tree

end ConstraintSearch
