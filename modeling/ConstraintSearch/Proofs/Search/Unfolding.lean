import ConstraintSearch.Proofs.Confluence
import ConstraintSearch.Proofs.Search.Engine

/-!
# The unfolding of a search tree

The nodes of a tree in the order in which a depth-first search explores them. They are determined by
the region of the root: propagation ends in the greatest domains that are stable for the
constraints, and the branchers decide by the domains alone. So it does not matter which copies a
search stores and how it rebuilds nodes.

* `Visit`, `Space.walk`: the nodes of a naive recursion, which commits each alternative in a copy;
* `Search.visits`: the nodes that a search explores;
* `Tree.Sees`, `Tree.Unfolds`: the nodes of a list of regions, which are determined
  (`Tree.Unfolds.unique`);
* `Frontier.regions`: the regions that a search has before it;
* `Built.visits_eq_walk`: a depth-first search explores the nodes of the naive recursion.
-/

namespace ConstraintSearch

variable {δ : Prop} {t : Tree} {s : Space} {T T' : Store} {Q : Set Box} {Qs : List (Set Box)}
  {c c' : Choice}

/-! ### Visits -/

/-- A node that was explored, with its domains after propagation. -/
inductive Visit
  | failed
  | solved (store : Store)
  | branch (store : Store)

/-- A root that fails is not explored as a node. -/
def Visit.explored : List Visit → List Visit
  | [failed] => []
  | visits => visits

/-- What is seen at a node. -/
def Visit.of : SpaceStatus × Space → Visit
  | (.failed, _) => failed
  | (.solved, s) => solved s.store
  | (.branch, s) => branch s.store

/-- The nodes below a space, down to some depth. Each alternative is committed in a copy. -/
def Space.walk : Nat → Space → Journaled (List Visit)
  | 0, _ => throw .unfinished
  | depth + 1, s => do
      let (status, s) ← s.status
      match status with
      | .branch =>
          let (choice, split) ← s.choice
          let below ← (List.range choice.alternatives).mapM fun i => do
            walk depth (← split.commit choice i)
          return .branch s.store :: below.flatten
      | status => return [.of (status, s)]

variable {σ ρ : Type} [StopCondition σ] [CutoffSequence ρ]

namespace Search

/-- The node that a depth-first search explores next. -/
def nextNode : Search σ ρ → Journaled (Option Space)
  | complete (.depthFirst d) => do
      let (node, _) ← d.explorer.nextNode none
      return node
  | _ => return none

/-- The nodes that a depth-first search explores until its tree is exhausted, in so many steps at
most. -/
def visits : Nat → Search σ ρ → Journaled (List Visit)
  | 0, _ => throw .unfinished
  | steps + 1, search => do
      match ← search.nextNode with
      | none => return []
      | some s => do
          let seen ← s.status
          let (_, search) ← search.step
          return .of seen :: (← visits steps search)

end Search

/-! ### Nodes -/

namespace Tree

/-- All branchers of the tree are done. -/
def Done (t : Tree) (T : Store) : Prop := ∀ b ∈ t.chain, b.Done T

/-- The choice is the one of the first brancher that is not done. -/
def Chooses (t : Tree) (T : Store) (c : Choice) : Prop :=
  ∃ (state : State) (b b' : Brancher), state.store = T ∧ t.chain[c.brancher]? = some b.base ∧
    (∀ i < c.brancher, ∀ b₀, t.chain[i]? = some b₀ → b₀.Done T) ∧ b.Settled T ∧ b.HasOpen T ∧
    b.decide state = .ok (c.decision, b')

/-- What is seen at the node of a region, and the regions of its alternatives. -/
inductive Sees (t : Tree) (Q : Set Box) : Visit → List (Set Box) → Prop
  | failed (h : ∀ B ∈ Q, ¬t.Wanted B) : Sees t Q .failed []
  | solved {T : Store} (h : t.Settles Q T) (hdone : t.Done T) : Sees t Q (.solved T) []
  | branch {T : Store} {c : Choice} (h : t.Settles Q T) (hc : t.Chooses T c) :
      Sees t Q (.branch T) ((List.range c.alternatives).map fun i => Q ∩ c.keeps i)

/-- The nodes below a list of regions, each before those below the next region. -/
inductive Unfolds (t : Tree) : List (Set Box) → List Visit → Prop
  | nil : Unfolds t [] []
  | cons {Q : Set Box} {Qs parts : List (Set Box)} {visit : Visit} {visits : List Visit}
      (h : t.Sees Q visit parts) (hrest : Unfolds t (parts ++ Qs) visits) :
      Unfolds t (Q :: Qs) (visit :: visits)

/-- What determines the nodes of a tree: all solutions are looked for, no cardinality of a set is
constrained, no propagator narrows a variable from both sides, and the branchers decide by the
domains alone. -/
structure Determined (t : Tree) : Prop where
  goal : t.goal = Set.univ
  oriented : ∀ q ∈ t.posted, q.Oriented
  cardinality : ∀ q ∈ t.posted, ∀ set x, q ≠ .setCardinality set x
  readsStore : ∀ b ∈ t.chain, b.readsStore = true

/-- Domains that are stable for the constraints are looked for. -/
theorem Settles.wanted (ht : t.Determined) (h : t.Settles Q T) : t.Wanted T.box where
  sound := h.sound.box
  consistent q hq := h.stable q hq (ht.cardinality q hq) (ht.oriented q hq)
  goal := ht.goal ▸ Set.mem_univ _

theorem Settles.mem (h : t.Settles Q T) : T.box ∈ Q := h.within _ h.sound.box T.box_within

/-- The domains of a node are determined by its region. -/
theorem Settles.unique (ht : t.Determined) (h : t.Settles Q T) (h' : t.Settles Q T') : T = T' :=
  Store.eq_of_within h.sound h'.sound (h.narrows.size_ints.trans h'.narrows.size_ints.symm)
    (h.narrows.size_sets.trans h'.narrows.size_sets.symm)
    (h.narrows.floats.trans h'.narrows.floats.symm) (h'.kept _ h.mem (h.wanted ht))
    (h.kept _ h'.mem (h'.wanted ht))

theorem Chooses.not_done (h : t.Chooses T c) : ¬t.Done T := by
  obtain ⟨state, b, b', -, hget, -, -, hopen, -⟩ := h
  exact fun hdone => hopen.not_done (Brancher.done_base.1 (hdone _ (List.mem_of_getElem? hget)))

/-- The choice at a node is determined by its domains. -/
theorem Chooses.unique (ht : t.Determined) (h : t.Chooses T c) (h' : t.Chooses T c') : c = c' := by
  obtain ⟨i, decision⟩ := c
  obtain ⟨i', decision'⟩ := c'
  obtain ⟨state, b, next, hstore, hget, hdone, hsettled, hopen, hdecide⟩ := h
  obtain ⟨state', b', next', hstore', hget', hdone', hsettled', hopen', hdecide'⟩ := h'
  dsimp only at *
  have hle : i ≤ i' := not_lt.1 fun hlt =>
    hopen'.not_done (Brancher.done_base.1 (hdone i' hlt _ hget'))
  have hle' : i' ≤ i := not_lt.1 fun hlt =>
    hopen.not_done (Brancher.done_base.1 (hdone' i hlt _ hget))
  obtain rfl := le_antisymm hle hle'
  have hbase : b'.base = b.base := Option.some.inj (hget'.symm.trans hget)
  have hreads : b.readsStore = true := by
    rw [← b.readsStore_base]
    exact ht.readsStore _ (List.mem_of_getElem? hget)
  obtain rfl := Brancher.eq_of_base hreads hbase hsettled hopen hsettled' hopen'
  rw [Brancher.decide_congr hreads (hstore'.trans hstore.symm), hdecide] at hdecide'
  cases hdecide'
  rfl

/-- What is seen at a node is determined by its region. -/
theorem Sees.unique (ht : t.Determined) {visit visit' : Visit} {parts parts' : List (Set Box)}
    (h : t.Sees Q visit parts) (h' : t.Sees Q visit' parts') :
    visit = visit' ∧ parts = parts' := by
  cases h with
  | failed h =>
    cases h' with
    | failed => exact ⟨rfl, rfl⟩
    | solved h' | branch h' => exact absurd (h'.wanted ht) (h _ h'.mem)
  | solved h hdone =>
    cases h' with
    | failed h' => exact absurd (h.wanted ht) (h' _ h.mem)
    | solved h' =>
      obtain rfl := h.unique ht h'
      exact ⟨rfl, rfl⟩
    | branch h' hc =>
      obtain rfl := h.unique ht h'
      exact absurd hdone hc.not_done
  | branch h hc =>
    cases h' with
    | failed h' => exact absurd (h.wanted ht) (h' _ h.mem)
    | solved h' hdone =>
      obtain rfl := h.unique ht h'
      exact absurd hdone hc.not_done
    | branch h' hc' =>
      obtain rfl := h.unique ht h'
      obtain rfl := hc.unique ht hc'
      exact ⟨rfl, rfl⟩

/-- The nodes below a list of regions are determined. -/
theorem Unfolds.unique (ht : t.Determined) {visits visits' : List Visit} (h : t.Unfolds Qs visits)
    (h' : t.Unfolds Qs visits') : visits = visits' := by
  induction h generalizing visits' with
  | nil =>
    cases h'
    rfl
  | cons h _ ih =>
    cases h' with
    | cons h' hrest =>
      obtain ⟨rfl, rfl⟩ := h.unique ht h'
      rw [ih hrest]

/-- If all solutions are looked for, a region counts as a whole. -/
theorem Determined.inter_goal (ht : t.Determined) (Q : Set Box) : Q ∩ t.goal = Q := by
  rw [ht.goal, Set.inter_univ]

theorem Rests.done (h : t.Rests δ s Q)
    (hdone : ∀ i b, s.branchers.get? i = some b → b.Done s.store) : t.Done s.store := by
  intro b hb
  obtain ⟨i, hi⟩ := List.getElem?_of_mem hb
  rw [← h.lineup.base i] at hi
  obtain ⟨b', hb', rfl⟩ := Option.map_eq_some_iff.1 hi
  exact Brancher.done_base.2 (hdone i b' hb')

/-- The choice of a space is the one of its domains. -/
theorem Rests.chooses (h : t.Rests δ s Q)
    (hopen : ∃ b, s.branchers.get? s.active = some b ∧ b.HasOpen s.store) {s' : Space}
    (hchoice : s.choice = .ok (c, s')) : t.Chooses s.store c := by
  obtain ⟨b, hb, hopen⟩ := hopen
  have hlt : s.active < s.branchers.size := (Array.getElem?_eq_some_iff.1 hb).1
  unfold Space.choice at hchoice
  rw [if_neg (by simp [h.alive, hlt]), Table.fetch_eq_ok.2 hb] at hchoice
  change (b.decide s.state >>= _) = _ at hchoice
  obtain ⟨⟨decision, b'⟩, hdecide, hchoice⟩ := Yields.exists_of_bind hchoice
  dsimp only at hchoice
  split at hchoice
  · cases hchoice
  cases hchoice
  refine ⟨s.state, b, b', rfl, h.lineup.base_of_get? hb, fun i hi b₀ hb₀ => ?_,
    h.lineup.settled _ b hb, hopen, hdecide⟩
  rw [← h.lineup.base i] at hb₀
  obtain ⟨b₁, hb₁, rfl⟩ := Option.map_eq_some_iff.1 hb₀
  exact Brancher.done_base.2 (h.lineup.done i hi b₁ hb₁)

/-- What the status of a node says is seen there. -/
theorem Judged.visit_eq (ht : t.Determined)
    {seen : SpaceStatus × Space} (h : t.Judged δ Q seen) {visit : Visit} {parts : List (Set Box)}
    (hsees : t.Sees Q visit parts) : Visit.of seen = visit := by
  obtain ⟨status, s⟩ := seen
  cases status with
  | failed =>
    cases hsees with
    | failed => rfl
    | solved hsettles | branch hsettles =>
      exact absurd (hsettles.wanted ht) (h.none_wanted _ hsettles.mem)
  | solved =>
    exact ((Sees.solved h.1.settles (h.1.done h.2)).unique ht hsees).1
  | branch =>
    obtain ⟨hrests, b, hb, hopen⟩ := h
    have hsettles' := hrests.settles
    cases hsees with
    | failed hnone => exact absurd (hsettles'.wanted ht) (hnone _ hsettles'.mem)
    | solved hsettles hdone =>
      obtain rfl := hsettles.unique ht hsettles'
      have hchain := List.mem_of_getElem? (hrests.lineup.base_of_get? hb)
      exact absurd (Brancher.done_base.1 (hdone _ hchain)) hopen.not_done
    | branch hsettles =>
      obtain rfl := hsettles.unique ht hsettles'
      rfl

/-! ### The naive recursion -/

/-- Visits of regions, and then those of further regions. -/
theorem unfolds_flatten {parts : List (Set Box)} {below : List (List Visit)} {visits : List Visit}
    (h : List.Forall₂ (fun part below => ∀ Qs visits, t.Unfolds Qs visits →
      t.Unfolds (part :: Qs) (below ++ visits)) parts below) (hrest : t.Unfolds Qs visits) :
    t.Unfolds (parts ++ Qs) (below.flatten ++ visits) := by
  induction h with
  | nil => exact hrest
  | cons h _ ih =>
    rw [List.flatten_cons, List.append_assoc]
    exact h _ _ ih

/-- The naive recursion visits the nodes below a region. -/
theorem walk_law (ht : t.Regular δ) {depth : Nat} (h : t.Represents δ s Q)
    (hdepth : (t.points Q).ncard < depth) :
    Journaled.Yields δ (s.walk depth) fun below =>
      ∀ Qs visits, t.Unfolds Qs visits → t.Unfolds (Q :: Qs) (below ++ visits) := by
  induction depth generalizing s Q with
  | zero => exact absurd hdepth (Nat.not_lt_zero _)
  | succ depth ih =>
    unfold Space.walk
    refine (status_law h).bind ?_
    rintro ⟨status, s₁⟩ hjudged
    cases status with
    | failed =>
      exact Journaled.Yields.pure fun Qs visits hrest => .cons (.failed hjudged.none_wanted) hrest
    | solved =>
      obtain ⟨hrests, hdone⟩ := hjudged
      exact Journaled.Yields.pure fun Qs visits hrest =>
        .cons (.solved hrests.settles (hrests.done hdone)) hrest
    | branch =>
      obtain ⟨hrests, hopen⟩ := hjudged
      refine (Journaled.Yields.lift (choice_law hrests hopen).self).bind ?_
      rintro ⟨c, s₂⟩ ⟨⟨hoffers, hs₂⟩, hchoice⟩
      refine (Journaled.Yields.mapM (S := fun i below => ∀ Qs visits, t.Unfolds Qs visits →
        t.Unfolds ((Q ∩ c.keeps i) :: Qs) (below ++ visits)) fun i hi => ?_).bind
        fun below hbelow =>
          Journaled.Yields.pure fun Qs visits hrest => ?_
      · have hi := List.mem_range.1 hi
        have hlt : (t.points (Q ∩ c.keeps i)).ncard < (t.points Q).ncard :=
          hoffers.ncard_points_lt ht.root hi
        exact (Journaled.Yields.lift (commit_law hs₂ hoffers hi)).bind fun s₃ hs₃ =>
          ih hs₃ (by omega)
      · refine .cons (.branch hrests.settles (hrests.chooses hopen hchoice)) ?_
        exact unfolds_flatten (List.forall₂_map_left_iff.2 hbelow) hrest

end Tree

/-! ### Depth-first search -/

namespace Fork

variable {f g : Fork}

/-- The parts that are left, in their order. -/
def parts (f : Fork) : List (Set Box) :=
  ((List.range (f.edge.last + 1)).drop (f.edge.alternative + 1)).map f.part

theorem parts_of_isRightmost (hr : f.edge.isRightmost = true) : f.parts = [] := by
  have hlast : f.edge.last ≤ f.edge.alternative := of_decide_eq_true hr
  unfold parts
  rw [List.drop_eq_nil_of_le (by rw [List.length_range]; omega), List.map_nil]

/-- The next alternative comes first. -/
theorem parts_eq_cons (hr : f.edge.isRightmost = false) :
    f.parts = f.next.below :: f.next.parts := by
  have hlt : f.edge.alternative < f.edge.last := not_le.1 (of_decide_eq_false hr)
  unfold parts below
  rw [List.drop_eq_getElem_cons (by rw [List.length_range]; omega), List.map_cons,
    List.getElem_range, chosen_next hr]
  rfl

theorem below_cons_parts (h0 : f.edge.alternative = 0)
    (hfull : f.edge.last + 1 = f.edge.choice.alternatives) :
    f.below :: f.parts = (List.range f.edge.choice.alternatives).map f.part := by
  have hchosen : f.chosen = 0 := by
    unfold chosen
    omega
  unfold parts below
  rw [hfull]
  conv_rhs => rw [← List.drop_zero (l := List.range _)]
  rw [List.drop_eq_getElem_cons (i := 0) (by rw [List.length_range]; omega), List.map_cons,
    List.getElem_range, hchosen, h0]

theorem Alike.parts (h : g.Alike f) : g.parts = f.parts := by
  have hremaining := h.remaining
  have hlast := h.last
  unfold Fork.parts
  rw [h.part, hlast]
  by_cases hlt : f.edge.alternative < f.edge.last
  · have halternative : g.edge.alternative = f.edge.alternative := by omega
    rw [halternative]
  · rw [List.drop_eq_nil_of_le (by rw [List.length_range]; omega),
      List.drop_eq_nil_of_le (by rw [List.length_range]; omega)]

end Fork

namespace Frontier

variable {trail trail' : List Fork} {F G : Frontier} {mark : Nat}

/-- The regions that a search has before it, in their order. -/
def regions (F : Frontier) : List (Set Box) := F.ahead.toList ++ F.trail.flatMap Fork.parts

theorem regions_ofTrail_advanced (h : Trail δ t mark trail) :
    (ofTrail (advanced trail)).regions = trail.flatMap Fork.parts := by
  induction h with
  | nil => rfl
  | @cons f trail hf _ _ _ _ ih =>
    unfold advanced
    by_cases hr : f.edge.isRightmost = true
    · rw [if_pos hr, ih, List.flatMap_cons, Fork.parts_of_isRightmost hr, List.nil_append]
    · rw [if_neg hr, List.flatMap_cons, Fork.parts_eq_cons (by simpa using hr)]
      rfl

theorem flatMap_parts_vacated (trail : List Fork) :
    (vacated trail).flatMap Fork.parts = trail.flatMap Fork.parts := by
  cases trail with
  | nil => rfl
  | cons f trail =>
    by_cases hu : f.edge.isUsedUp = true
    · have hlt : f.edge.last < f.edge.alternative := of_decide_eq_true hu
      rw [vacated_of_isUsedUp hu, List.flatMap_cons,
        Fork.parts_of_isRightmost (decide_eq_true hlt.le), List.nil_append]
    · rw [vacated_of_not_isUsedUp hu]

theorem regions_of_alike (h : AlikeTrails G.trail F.trail) (hahead : G.ahead = F.ahead) :
    G.regions = F.regions := by
  obtain ⟨trail', ahead⟩ := G
  obtain ⟨trail, ahead'⟩ := F
  obtain rfl : ahead = ahead' := hahead
  unfold regions
  dsimp only at *
  congr 1
  unfold AlikeTrails at h
  induction h with
  | nil => rfl
  | cons hgf _ ih => rw [List.flatMap_cons, List.flatMap_cons, hgf.parts, ih]

/-- No fork is without solutions, so that the next node is always rebuilt. -/
theorem Follows.alike {n n' : Nat} (h : Follows t F n n' G) (ht : t.Determined)
    (hsound : ∀ f ∈ F.trail, f.Sound t) : AlikeTrails G.trail F.trail ∧ G.ahead = F.ahead := by
  rcases h.cases with ⟨halike, hahead, -⟩ | ⟨⟨f, hf, hnone⟩, -⟩
  · exact ⟨halike, hahead⟩
  · obtain ⟨T, hsettles, -⟩ := (hsound f hf).offers.node
    exact absurd (hsettles.wanted ht) (hnone _ hsettles.mem)

end Frontier

namespace Explorer

variable {e e' : Explorer} {explored : Explored} {trail : List Fork} {limit : Option Nat}
  {mark : Nat}

/-- A node that is explored is the one of its region, and its alternatives come next. -/
theorem Visited.sees (h : Visited δ t limit mark e trail Q (explored, e')) (ht : t.Regular δ)
    (hdetermined : t.Determined) (htrail : Trail δ t mark trail) :
    ∃ visit parts G, t.Sees Q visit parts ∧ e'.Explores δ t limit mark G ∧
      G.regions = parts ++ trail.flatMap Fork.parts ∧
      G.bound t < Frontier.bound t ⟨trail, some Q⟩ := by
  have hbound := (Frontier.ofTrail_advanced_le htrail ht.root).bound.trans_lt
    (Frontier.bound_lt_of_ahead trail Q)
  cases explored with
  | failed =>
    obtain ⟨-, -, hnone, hexplores⟩ := h
    exact ⟨_, _, _, .failed hnone, hexplores, Frontier.regions_ofTrail_advanced htrail, hbound⟩
  | solved s =>
    obtain ⟨-, -, hrests, hdone, -, hexplores⟩ := h
    rw [hdetermined.inter_goal] at hrests
    exact ⟨_, _, _, .solved hrests.settles (hrests.done hdone), hexplores,
      Frontier.regions_ofTrail_advanced htrail, hbound⟩
  | branched =>
    obtain ⟨-, -, f, s, hsplits, hexplores⟩ := h
    obtain ⟨rfl, hfresh, hfull, hsound, hrests, hopen, s', hchoice⟩ := hsplits
    rw [hdetermined.inter_goal] at hrests
    refine ⟨_, _, _, .branch hrests.settles (hrests.chooses hopen hchoice), hexplores,
      ?_, ?_⟩
    · have hparts : f.below :: f.parts = _ := Fork.below_cons_parts hfresh hfull
      show f.below :: (f.parts ++ (vacated trail).flatMap Fork.parts) = _
      rw [← List.cons_append, hparts, Frontier.flatMap_parts_vacated]
      rfl
    · exact ((Frontier.lt_of_split (vacated trail) hsound ht.root hfresh hfull).trans_le
        (Frontier.vacated_le htrail _)).bound

end Explorer

namespace Search

variable {d : DepthFirst (Option σ)} {limit : Option Nat} {F : Frontier}

/-- A search without a best solution aims at everything. -/
theorem aims_of_determined (ht : t.Determined) : t.Aims none 0 :=
  ⟨fun _ => rfl, fun _ => ht.goal, fun b hb => (by cases hb), fun b hb => (by cases hb),
    fun b hb => (by cases hb)⟩

omit [StopCondition σ] [CutoffSequence ρ] in
/-- The next node is the one of the region ahead. -/
theorem nextNode_law (ht : t.Regular δ) (hdetermined : t.Determined)
    (h : d.explorer.Explores δ t limit 0 F) :
    Journaled.Yields δ (nextNode (complete (.depthFirst d) : Search σ ρ)) fun
      | none => F.regions = []
      | some s => ∃ Q, F.ahead = some Q ∧ t.Represents δ s Q := by
  refine (Explorer.nextNode_law (aims_of_determined hdetermined) ht h).bind ?_
  rintro ⟨node, e, bound⟩ ⟨mark, G, -, -, -, -, hfollows, -, hnode⟩
  obtain ⟨halike, hahead⟩ := hfollows.alike hdetermined h.keeps.sound
  cases node with
  | none =>
    obtain rfl : G = ⟨[], none⟩ := hnode
    exact Journaled.Yields.pure (Frontier.regions_of_alike halike hahead).symm
  | some s =>
    obtain ⟨Q, hQ, hpoised⟩ := hnode
    have hrepresents := hpoised.represents
    rw [hdetermined.inter_goal] at hrepresents
    exact Journaled.Yields.pure ⟨Q, hahead.symm.trans hQ, hrepresents⟩

/-- A step explores the node of the region ahead, and has its alternatives before it then. -/
theorem step_sees_law (ht : t.Regular δ) (hdetermined : t.Determined) (hstop : d.stop = none)
    (h : d.explorer.Explores δ t limit 0 F) (hQ : F.ahead = some Q) :
    Journaled.Yields δ (step (complete (.depthFirst d) : Search σ ρ)) fun r => ∃ d' visit parts G,
      r.2 = complete (.depthFirst d') ∧ d'.stop = none ∧ d'.explorer.Explores δ t limit 0 G ∧
      t.Sees Q visit parts ∧ G.regions = parts ++ F.trail.flatMap Fork.parts ∧
      G.bound t < F.bound t := by
  have hstep : Journaled.Yields δ d.step fun r => ∃ visit parts G,
      r.2.stop = none ∧ r.2.explorer.Explores δ t limit 0 G ∧ t.Sees Q visit parts ∧
      G.regions = parts ++ F.trail.flatMap Fork.parts ∧ G.bound t < F.bound t := by
    unfold DepthFirst.step
    refine (Journaled.Yields.lift (polls_none d.stop hstop _)).bind ?_
    rintro ⟨holds, stop⟩ hpoll
    cases holds with
    | true => exact hpoll.elim
    | false =>
      obtain rfl : stop = none := hpoll
      refine (Explorer.nextNode_law (aims_of_determined hdetermined) ht h).bind ?_
      rintro ⟨node, e, bound⟩ ⟨mark, G, haims, -, -, hcurrent, hfollows, hkeeps, hnode⟩
      obtain rfl := haims.mark rfl
      obtain ⟨halike, hahead⟩ := hfollows.alike hdetermined h.keeps.sound
      cases node with
      | none =>
        obtain rfl : G = ⟨[], none⟩ := hnode
        rw [hQ] at hahead
        cases hahead
      | some s =>
        obtain ⟨Q', hQ', hpoised⟩ := hnode
        obtain rfl : Q' = Q := Option.some.inj ((hQ'.symm.trans hahead).trans hQ)
        have hregions := Frontier.regions_of_alike halike hahead
        refine (Explorer.explore_law hkeeps hcurrent hpoised).bind ?_
        rintro ⟨explored, e'⟩ hvisited
        obtain ⟨visit, parts, H, hsees, hexplores, hparts, hbound⟩ :=
          Explorer.Visited.sees hvisited ht hdetermined hkeeps.valid
        have htrail : G.trail.flatMap Fork.parts = F.trail.flatMap Fork.parts := by
          unfold Frontier.regions at hregions
          rw [hahead] at hregions
          exact List.append_cancel_left hregions
        rw [htrail] at hparts
        have hle : H.bound t < F.bound t := by
          rw [← hQ'] at hbound
          exact hbound.trans_le hfollows.le.bound
        cases explored with
        | solved s =>
          exact Journaled.Yields.pure ⟨visit, parts, H, rfl,
            hexplores.congr rfl rfl rfl (Nat.le_refl _), hsees, hparts, hle⟩
        | failed | branched =>
          exact Journaled.Yields.pure ⟨visit, parts, H, rfl, hexplores, hsees, hparts, hle⟩
  have hcomplete : Journaled.Yields δ (CompleteSearch.depthFirst d).step fun r => ∃ d',
      r.2 = .depthFirst d' ∧ ∃ visit parts G, d'.stop = none ∧ d'.explorer.Explores δ t limit 0 G ∧
        t.Sees Q visit parts ∧ G.regions = parts ++ F.trail.flatMap Fork.parts ∧
        G.bound t < F.bound t :=
    hstep.bind fun r hr => Journaled.Yields.pure ⟨r.2, rfl, hr⟩
  refine hcomplete.bind ?_
  rintro ⟨outcome, _⟩ ⟨d', rfl, visit, parts, G, hd'⟩
  exact Journaled.Yields.pure ⟨d', visit, parts, G, rfl, hd'⟩

/-- A depth-first search visits the nodes below the regions that it has before it. -/
theorem visits_law (ht : t.Regular δ) (hdetermined : t.Determined) {steps : Nat}
    (hstop : d.stop = none) (h : d.explorer.Explores δ t limit 0 F) (hsteps : F.bound t < steps) :
    Journaled.Yields δ (visits steps (complete (.depthFirst d) : Search σ ρ))
      (t.Unfolds F.regions) := by
  induction steps generalizing d F with
  | zero => exact absurd hsteps (Nat.not_lt_zero _)
  | succ steps ih =>
    unfold visits
    refine (nextNode_law ht hdetermined h).bind fun node hnode => ?_
    cases node with
    | none =>
      dsimp only at hnode
      rw [hnode]
      exact Journaled.Yields.pure .nil
    | some s =>
      obtain ⟨Q, hQ, hs⟩ := hnode
      refine (Tree.status_law hs).bind fun seen hseen => ?_
      refine (step_sees_law ht hdetermined hstop h hQ).bind ?_
      rintro ⟨outcome, _⟩ ⟨d', visit, parts, G, rfl, hstop', hexplores, hsees, hparts, hbound⟩
      refine (ih hstop' hexplores (by omega)).bind fun visits hvisits => Journaled.Yields.pure ?_
      rw [hseen.visit_eq hdetermined hsees]
      unfold Frontier.regions
      rw [hQ]
      rw [hparts] at hvisits
      exact .cons hsees hvisits

end Search

/-- **Recomputation explores the nodes of the naive recursion.** Whatever copies it stores, a
depth-first search explores the nodes that the naive recursion visits, in the same order and with
the same domains. Only a root that fails is not explored as a node. -/
theorem Built.visits_eq_walk {policy : Policy} {statements : List Statement}
    {options : SearchOptions σ ρ} (h : Built policy statements s) (hw : Searchable δ statements)
    (hsets : ∀ c ∈ postings statements, c.sets = [])
    (hreads : ∀ b ∈ branchings statements, b.readsStore = true) (hthreads : options.threads = 1)
    (hstop : options.stop = none) :
    Journaled.Yields δ (Engine.start .depthFirst s options).run fun r =>
      ∃ e rest, r = .ok (e, rest) ∧ ∃ n, ∀ steps > n, ∀ depth > n,
        Journaled.Yields δ (do return (← s.walk depth, ← e.search.visits steps))
          fun (naive, visits) => visits = Visit.explored naive := by
  obtain ⟨t, ht, hgoal, hobjective, hroot, hchain, hcompiles, hrepresents⟩ :=
    h.exists_tree hw.proper hw.branched fun o (ho : o ∈ (none : Option Objective)) => by cases ho
  have hdetermined : t.Determined := by
    refine ⟨hgoal, Tree.oriented_of_distinct hcompiles hw.distinct, fun q hq => ?_, fun b hb => ?_⟩
    · obtain ⟨c, hc, hcq⟩ := hcompiles.exists_posting hq
      exact Posting.ne_setCardinality hcq (hsets c hc)
    · rw [hchain] at hb
      obtain ⟨b', hb', rfl⟩ := List.mem_map.1 hb
      rw [b'.readsStore_base]
      exact hreads b' hb'
  have hnone : { s with objective := none } = s := by
    rw [← (h.arranged hw.branched).objective]
  rw [hnone] at hrepresents
  refine (Engine.start_law ht hgoal hrepresents hthreads (.inl rfl)).mono ?_
  rintro _ ⟨e, rest, search, F, rfl, hbegins⟩
  refine ⟨e, rest, rfl, max (F.bound t) (t.points t.whole).ncard,
    fun steps hsteps depth hdepth => ?_⟩
  have hseeks := hbegins.seeks
  have hsearch := hbegins.stop
  rw [hbegins.eq]
  cases search with
  | branchAndBound b => exact absurd hbegins.optimises Bool.noConfusion
  | parallel p => exact hseeks.elim
  | depthFirst d =>
    refine (Tree.walk_law ht hrepresents (by omega)).bind fun naive hnaive => ?_
    refine (Search.visits_law ht hdetermined (hsearch.trans hstop) hseeks.explores (by omega)).bind
      fun visits hvisits => Journaled.Yields.pure ?_
    have hnaive := hnaive [] [] .nil
    rw [List.append_nil] at hnaive
    have hopens := hbegins.opens
    clear hbegins hseeks hsteps
    cases hopens with
    | whole hrests =>
      obtain rfl : visits = naive := hvisits.unique hdetermined hnaive
      -- The root has not failed, so that it is seen as something else.
      cases hvisits with
      | cons hsees hrest =>
        cases hsees with
        | failed hnone =>
          rw [hdetermined.inter_goal] at hrests
          have hsettles := hrests.settles
          exact absurd (hsettles.wanted hdetermined) (hnone _ hsettles.mem)
        | solved | branch => rfl
    | failed hnone =>
      cases hvisits
      have hfailed : t.Unfolds [t.whole] [.failed] := .cons (.failed hnone) .nil
      rw [hnaive.unique hdetermined hfailed]
      rfl

/-- Copies at every third node only, and no no-goods. -/
theorem Built.visits_eq_walk_differing : ∃ s, ∃ e : Engine, ∃ rest,
    Built .costOrdered differing s ∧
      (Engine.start .depthFirst s
        { exploration := { copyDistance := 3, noGoodsLimit := 0 } }).run.Returns
        (.ok (e, rest)) ∧
      ∃ n, ∀ steps > n, ∀ depth > n,
        Journaled.Yields False (do return (← s.walk depth, ← e.search.visits steps))
          fun (naive, visits) => visits = Visit.explored naive := by
  have hcheck : buildsTo .costOrdered differing
      (Engine.runsTo .depthFirst { exploration := { copyDistance := 3, noGoodsLimit := 0 } } 9 9
        fun _ _ _ => true) = true := by
    decide +kernel
  obtain ⟨s, hs, hruns⟩ := exists_built_of_buildsTo hcheck
  obtain ⟨e, rest, -, -, -, hstart, -, -⟩ := Engine.exists_of_runsTo hruns
  have hequal : Journaled.Yields False (Engine.start .depthFirst s
      ({ exploration := { copyDistance := 3, noGoodsLimit := 0 } } : SearchOptions)).run _ :=
    hs.visits_eq_walk (by decide) (by decide) (by decide) rfl rfl
  obtain ⟨e', rest', hr, hvisits⟩ := hequal.of_returns hstart
  cases hr
  exact ⟨s, e, rest, hs, hstart, hvisits⟩

/-- Two variables that have one value only, and must be different. -/
def refuted : List Statement :=
  [.newInt 0 0, .newInt 0 0, .post (.notEquals (.root 0) (.root 1) 0),
    .branch (.int (.ofVariables [.root 0, .root 1] .inputOrder .min))]

/-- The root fails, and only the naive recursion visits it. -/
theorem Built.exists_unvisited_refuted : ∃ s, ∃ e : Engine, ∃ rest,
    Built .costOrdered refuted s ∧ Searchable False refuted ∧
      (∀ c ∈ postings refuted, c.sets = []) ∧ (∀ b ∈ branchings refuted, b.readsStore = true) ∧
      (Engine.start .depthFirst s {}).run.Returns (.ok (e, rest)) ∧
      (s.walk 9).Returns [.failed] ∧ (e.search.visits 9).Returns [] := by
  have hcheck : buildsTo .costOrdered refuted (fun s =>
      ((s.walk 9).check fun naive => naive matches [.failed]) &&
        (Engine.start .depthFirst s ({} : SearchOptions)).run.check fun r =>
          r.toOption.any fun started => (started.1.search.visits 9).check (·.isEmpty)) = true := by
    decide +kernel
  obtain ⟨s, hs, hproperty⟩ := exists_built_of_buildsTo hcheck
  obtain ⟨hwalk, hruns⟩ := Bool.and_eq_true_iff.1 hproperty
  obtain ⟨naive, hwalk, hnaive⟩ := Journaled.exists_of_check hwalk
  obtain ⟨r, hstart, hvisits⟩ := Journaled.exists_of_check hruns
  rcases r with error | ⟨e, rest⟩
  · cases hvisits
  obtain ⟨visits, hvisits, hempty⟩ := Journaled.exists_of_check hvisits
  obtain rfl : visits = [] := List.isEmpty_iff.1 hempty
  refine ⟨s, e, rest, hs, by decide, by decide, by decide, hstart, ?_, hvisits⟩
  split at hnaive
  · exact hwalk
  · cases hnaive

end ConstraintSearch
