import ConstraintSearch.Search.Explorer
import ConstraintSearch.Proofs.Search.Frontier
import ConstraintSearch.Proofs.Search.Path

/-!
# The theory of exploration

What a depth-first exploration keeps, whatever copies it stores and however it rebuilds nodes.

* `Explorer.Keeps`: the path carries a trail, and copies beyond the mark of a branch and bound have
  only boxes that are looked for;
* `Explorer.Poised`: a node is the one of a region below the trail;
* `Explorer.Explores`: the invariant of an exploration between two nodes;
* `Explorer.rebuild_law`: the node that the path points to is rebuilt, or a node above it turns out
  to have no solutions;
* `Explorer.nextNode_law`, `Explorer.explore_law`: the next node, and what becomes of it.
-/

namespace ConstraintSearch

variable {δ : Prop} {t : Tree} {limit : Option Nat} {mark : Nat} {best : Option Space}
  {e : Explorer}
  {s : Space} {f : Fork} {trail above deeper : List Fork} {Q : Set Box}

/-- What the exploration of a tree relies on. -/
structure Tree.Regular (δ : Prop) (t : Tree) : Prop where
  root : t.root.Sound
  objective : t.Admits δ

/-- What is better than the best solution is looked for. While there is none, all copies count as
made after it. -/
structure Tree.Aims (t : Tree) (best : Option Space) (mark : Nat) : Prop where
  mark : best = none → mark = 0
  all : best = none → t.goal = Set.univ
  sound : ∀ b ∈ best, b.store.Sound
  size : ∀ b ∈ best, b.store.ints.size = t.root.ints.size
  goal : ∀ b ∈ best, t.goal = t.improving b.store

/-- The bound of a search with a best solution. -/
def boundOf (best : Option Space) (mark : Nat) : Option Bound := best.map fun b => ⟨b, mark⟩

theorem Tree.Aims.lower {depth : Nat} (h : t.Aims best mark) (hdepth : depth < mark) :
    t.Aims best depth where
  mark hnone := by
    have := h.mark hnone
    omega
  all := h.all
  sound := h.sound
  size := h.size
  goal := h.goal

/-- The mark after a step. Without a best solution, it stays at the root. -/
theorem Tree.Aims.getD_boundOf {mark' : Nat} (h : t.Aims best mark) (h' : t.Aims best mark') :
    ((boundOf best mark').map Bound.mark).getD mark = mark' := by
  unfold boundOf
  cases hbest : best with
  | none => exact (h.mark hbest).trans (h'.mark hbest).symm
  | some b => rfl

/-- To constrain a node by the best solution leaves what is looked for. -/
theorem Tree.Aims.constrain_law (h : t.Aims best mark) (ht : t.Regular δ) {b : Space}
    (hb : b ∈ best) (hs : t.Represents δ s Q) :
    Yields δ (s.constrain b) (t.Represents δ · (Q ∩ t.goal)) := by
  rw [h.goal b hb]
  exact Tree.constrain_law hs ht.objective (h.sound b hb) (h.size b hb)

theorem Tree.Offers.of_goal {c : Choice} (h : t.Offers (Q ∩ t.goal) c) : t.Offers Q c := by
  obtain ⟨hmakes, hexpressible, T, hsettles, hsplits⟩ := h
  refine ⟨hmakes, hexpressible, T, ⟨?_, hsettles.stable⟩, hsplits⟩
  exact hsettles.toFrames.mono Set.inter_subset_left fun _ hF hw => ⟨hF, hw.goal⟩

theorem statusOf_law (h : t.Represents δ s Q) (statistics : Statistics) :
    Journaled.Yields δ (statusOf s statistics) fun r => t.Judged δ Q (r.1, r.2.1) ∧
      ∃ propagations, r.2.2 = { statistics with propagations } :=
  (Tree.status_law h).bind fun _ hr => Journaled.Yields.pure ⟨hr, _, rfl⟩

namespace Explorer

/-! ### Invariants -/

/-- The path carries the trail. If no-goods are taken from it, then no node is missing on it down to
the limit. -/
structure Keeps (δ : Prop) (t : Tree) (limit : Option Nat) (mark : Nat) (e : Explorer)
    (trail : List Fork) : Prop where
  carries : e.path.Carries limit trail
  valid : Trail δ t mark trail
  linked : ∀ n ∈ limit, Linked t.whole n trail
  depth : trail.length ≤ e.statistics.depth
  usedUp : ∀ n ∈ limit, ∀ f ∈ trail, f.edge.isUsedUp = true → n < e.statistics.depth

/-- The space is the node of the region `Q` below the trail. If the next copy is not to be stored on
the very next edge, then there is one on the trail from which the node can be rebuilt. Within the
limit of no-goods, the trail leads to the node. -/
structure Poised (δ : Prop) (t : Tree) (limit : Option Nat) (e : Explorer) (trail : List Fork)
    (Q : Set Box) (s : Space) : Prop where
  represents : t.Represents δ s (Q ∩ t.goal)
  nested : Nested trail Q
  anchored : e.distance = 0 ∨ Anchored trail Q
  leads : ∀ n ∈ limit, trail.length ≤ n → Leads t.whole trail.reverse Q

/-- The invariant of an exploration: the next node is at hand, or it is the one that the path points
to. -/
structure Explores (δ : Prop) (t : Tree) (limit : Option Nat) (mark : Nat) (e : Explorer)
    (F : Frontier) : Prop where
  keeps : e.Keeps δ t limit mark F.trail
  current : ∀ s ∈ e.current, ∃ Q, F.ahead = some Q ∧ e.Poised δ t limit F.trail Q s
  rebuildable : e.current = none →
    F = .ofTrail F.trail ∧ ∀ f ∈ F.trail.head?, Anchored F.trail f.below

/-- What an exploration never changes, or only increases. -/
structure Evolves (e e' : Explorer) : Prop where
  exploration : e'.exploration = e.exploration
  depth : e.statistics.depth ≤ e'.statistics.depth

theorem Evolves.refl (e : Explorer) : e.Evolves e := ⟨rfl, Nat.le_refl _⟩

theorem Evolves.trans {e' e'' : Explorer} (h : e.Evolves e') (h' : e'.Evolves e'') :
    e.Evolves e'' :=
  ⟨h'.exploration.trans h.exploration, h.depth.trans h'.depth⟩

theorem Keeps.sound (h : e.Keeps δ t limit mark trail) : ∀ f ∈ trail, f.Sound t := h.valid.sound

/-- The invariant depends on the path and the depth only. -/
theorem Keeps.congr {e' : Explorer} (h : e.Keeps δ t limit mark trail) (hpath : e'.path = e.path)
    (hdepth : e.statistics.depth ≤ e'.statistics.depth) : e'.Keeps δ t limit mark trail := by
  refine ⟨?_, h.valid, h.linked, h.depth.trans hdepth, fun n hn f hf hu => ?_⟩
  · rw [hpath]
    exact h.carries
  · exact (h.usedUp n hn f hf hu).trans_le hdepth

/-- After advancing, the next node is the one that the path points to. -/
theorem Keeps.advanced (h : e.Keeps δ t limit mark trail) {p : Path}
    (hp : p.Carries limit (advanced trail)) :
    Keeps δ t limit mark { e with path := p } (advanced trail) := by
  refine ⟨hp, h.valid.advanced, fun n hn => (h.linked n hn).advanced,
    (length_advanced_le trail).trans h.depth, fun n hn f hf hu => ?_⟩
  rcases advanced_cases trail with hnil | ⟨deeper, g, above, rfl, hg, hadvanced⟩
  · rw [hnil] at hf
    cases hf
  · rw [hadvanced] at hf
    rcases List.mem_cons.1 hf with rfl | hf
    · rw [Fork.isUsedUp_next hg] at hu
      cases hu
    · exact h.usedUp n hn f (by simp [hf]) hu

theorem Keeps.explores (h : e.Keeps δ t limit mark (ConstraintSearch.advanced trail))
    (htrail : Trail δ t mark trail) (hcurrent : e.current = none) :
    e.Explores δ t limit mark (.ofTrail (ConstraintSearch.advanced trail)) where
  keeps := h
  current s hs := by
    rw [hcurrent] at hs
    cases hs
  rebuildable _ := ⟨rfl, htrail.anchored_advanced⟩

/-! ### Rebuilding -/

/-- What becomes of the node of the region `Q` below the trail. Either it is rebuilt, or a fork
turns out to have no solutions, and the path ends above it. -/
def Rebuilt (δ : Prop) (t : Tree) (limit : Option Nat) (best : Option Space) (e : Explorer)
    (trail : List Fork) (Q : Set Box) : Option Space × Explorer × Option Bound → Prop
  | (node, e', bound) => ∃ mark, t.Aims best mark ∧ bound = boundOf best mark ∧ e.Evolves e' ∧
      e'.current = e.current ∧
      match node with
      | some s => ∃ trail', AlikeTrails trail' trail ∧ e'.Keeps δ t limit mark trail' ∧
          e'.Poised δ t limit trail' Q s ∧ e'.statistics.fails = e.statistics.fails
      | none => ∃ deeper f above, AlikeTrails (deeper ++ f :: above) trail ∧
          Trail δ t mark (deeper ++ f :: above) ∧ (∀ B ∈ f.region, ¬t.Wanted B) ∧
          e'.Keeps δ t limit mark above

/-- A fork without solutions ends the path. -/
theorem failAt_law {e' : Explorer} (haims : t.Aims best mark)
    (h : e'.Keeps δ t limit mark (deeper ++ f :: above)) (hnone : ∀ B ∈ f.region, ¬t.Wanted B)
    (halike : AlikeTrails (deeper ++ f :: above) trail) (he : e.Evolves e')
    (hcurrent : e'.current = e.current) :
    Journaled.Yields δ (e'.failAt above.length (boundOf best mark))
      (Rebuilt δ t limit best e trail Q) := by
  have hsplit : deeper ++ f :: above = (deeper ++ [f]) ++ above := by simp
  have hcarries := h.carries
  have hlast : ∀ d ∈ (deeper ++ [f]) ++ above, d.edge.last < d.edge.choice.alternatives :=
    fun d hd => (h.sound d (hsplit ▸ hd)).last
  rw [hsplit] at hcarries
  unfold failAt
  refine (Journaled.Yields.lift (Path.unwind_law hcarries hlast _)).bind fun r hr =>
    Journaled.Yields.pure ?_
  have hlength : above.length ≤ (deeper ++ f :: above).length := by
    simp only [List.length_append, List.length_cons]
    omega
  refine ⟨mark, haims, rfl, ⟨he.exploration, he.depth⟩, hcurrent, deeper, f, above, halike, h.valid,
    hnone, ?_⟩
  exact ⟨hr, h.valid.of_append.tail, fun n hn => (h.linked n hn).of_append.tail,
    hlength.trans h.depth, fun n hn g hg hu => h.usedUp n hn g (by simp [hg]) hu⟩

/-- Constrain a node by the best solution, unless its copy was made after that was found. -/
def constrainAbove (s : Space) (depth : Nat) : Option Bound → Journaled (Space × Option Bound)
  | none => return (s, none)
  | some b => do
      if depth < b.mark then return (← s.constrain b.best, some { b with mark := depth })
      else return (s, some b)

theorem constrainAbove_law (haims : t.Aims best mark) (ht : t.Regular δ) {depth : Nat}
    (hs : t.Represents δ s (Q ∩ t.aim mark depth)) :
    Journaled.Yields δ (constrainAbove s depth (boundOf best mark)) fun r => ∃ mark',
      t.Aims best mark' ∧ r.2 = boundOf best mark' ∧ t.Represents δ r.1 (Q ∩ t.goal) ∧
      (mark' = mark ∨ mark' = depth) := by
  have hkept (hle : mark ≤ depth) : t.Represents δ s (Q ∩ t.goal) := by
    unfold Tree.aim at hs
    rwa [if_pos hle] at hs
  cases hbest : best with
  | none =>
    subst hbest
    have hmark := haims.mark rfl
    exact Journaled.Yields.pure ⟨mark, haims, rfl, hkept (by omega), .inl rfl⟩
  | some b =>
    subst hbest
    show Journaled.Yields δ (if depth < mark then _ else _) _
    by_cases hlt : depth < mark
    · rw [if_pos hlt]
      have hconstrain := haims.constrain_law ht rfl hs.of_aim
      refine (Journaled.Yields.lift hconstrain).bind fun s' hs' => Journaled.Yields.pure ?_
      exact ⟨depth, haims.lower hlt, rfl, hs', .inr rfl⟩
    · rw [if_neg hlt]
      exact Journaled.Yields.pure ⟨mark, haims, rfl, hkept (not_lt.1 hlt), .inl rfl⟩

theorem reuseTop_eq (top : Edge) (copy : Space) (edges : List Edge) (bound : Option Bound) :
    e.reuseTop top copy edges bound = (do
      let memory ← lessen e.path.memory top.memory
      let s ← copy.commit top.choice top.alternative
      let (s, bound) ← constrainAbove s edges.length bound
      let alternative :=
        if e.path.noGoodDepth < edges.length + 1 then top.alternative + 1 else top.alternative
      let top := { top with space := none, memory := 0, alternative }
      return (some s,
        { e with path := { e.path with edges := top :: edges, memory }, distance := 0 },
          bound)) := by
  unfold reuseTop constrainAbove
  cases bound with
  | none => rfl
  | some b =>
    refine bind_congr fun memory => bind_congr fun s => ?_
    dsimp only
    split
    · rw [bind_assoc]
    · rfl

/-- The last alternative of the top edge is explored in the copy of the edge itself. -/
theorem reuseTop_law (haims : t.Aims best mark) (ht : t.Regular δ)
    (h : e.Keeps δ t limit mark (f :: above)) (hQ : Anchored (f :: above) Q)
    (hs : f.edge.space = some s) (hr : f.edge.isRightmost = true) :
    Journaled.Yields δ (e.reuseTop f.edge s (above.map Fork.edge) (boundOf best mark))
      (Rebuilt δ t limit best e (f :: above) Q) := by
  have hf := h.valid.head
  have hfresh : f.edge.isUsedUp = false := hQ.fresh f rfl
  have hlast : f.edge.last ≤ f.edge.alternative := of_decide_eq_true hr
  have hle : f.edge.alternative ≤ f.edge.last := not_lt.1 (of_decide_eq_false hfresh)
  have hchosen : f.chosen = f.edge.alternative := Nat.min_eq_left hle
  obtain rfl : f.below = Q := Option.some.inj hQ.below
  have hmemory := h.carries.memory
  rw [List.map_cons, List.sum_cons] at hmemory
  rw [reuseTop_eq, List.length_map]
  refine (Journaled.Yields.lift (yields_lessen (by omega))).bind fun memory hm => ?_
  have hcommit := Tree.commit_law (h.valid.copy hs) hf.offers hf.chosen_lt
  rw [hchosen] at hcommit
  refine (Journaled.Yields.lift hcommit).bind fun s₁ hs₁ => ?_
  rw [Set.inter_right_comm, ← hchosen] at hs₁
  refine (constrainAbove_law haims ht hs₁).bind ?_
  rintro ⟨s₂, bound⟩ ⟨mark', haims', hbound, hs₂, hmark⟩
  dsimp only at hbound hs₂ ⊢
  subst hbound
  refine Journaled.Yields.pure ?_
  set alternative := if e.path.noGoodDepth < above.length + 1 then f.edge.alternative + 1
    else f.edge.alternative with halternative
  have hge : f.edge.alternative ≤ alternative := by
    rw [halternative]
    split <;> omega
  have hbound : alternative ≤ f.edge.last + 1 := by
    rw [halternative]
    split <;> omega
  have halike := f.alike_spent hr hge
  have habove : Trail δ t mark' above := by
    rcases hmark with rfl | rfl
    · exact h.valid.tail
    · exact h.valid.tail.weaken (le_refl _)
  have hlimit {n : Nat} (hn : n ∈ limit) (hused : f.edge.last < alternative) :
      n < above.length + 1 := by
    rw [← h.carries.noGoodDepth n hn]
    by_contra hle
    rw [halternative, if_neg hle] at hused
    omega
  have hlinked : ∀ n ∈ limit, Linked t.whole n (f.spent alternative :: above) := fun n hn =>
    (h.linked n hn).of_head rfl rfl rfl fun hlength =>
      decide_eq_false fun hused => absurd (hlimit hn hused) (by omega)
  refine ⟨mark', haims', rfl, ⟨rfl, Nat.le_refl _⟩, rfl, f.spent alternative :: above,
    .cons halike (AlikeTrails.refl above), ⟨?_, ?_, hlinked, h.depth, ?_⟩,
    ⟨hs₂, ?_, .inl rfl, fun n hn => (hlinked n hn).leads (congrArg some halike.below)⟩, rfl⟩
  · refine ⟨h.carries.noGoodDepth, rfl, ?_, ?_⟩
    · simp only [List.map_cons, List.sum_cons, Fork.spent]
      omega
    · have hwork := h.carries.work
      have hnone : f.edge.hasWork = false := decide_eq_false (not_lt.2 hlast)
      have hnone' : (f.spent alternative).edge.hasWork = false :=
        decide_eq_false (not_lt.2 (hlast.trans hge))
      rw [List.countP_cons, hnone] at hwork
      rw [List.countP_cons, hnone']
      exact hwork
  · refine .cons (hf.spent hbound) (fun s' hs' => by cases hs') h.valid.nested (.inl ?_) habove
    exact decide_eq_true (hlast.trans hge)
  · refine fun n hn => List.forall_mem_cons.2 ⟨fun hu => ?_, fun g hg =>
      h.usedUp n hn g (List.mem_cons_of_mem _ hg)⟩
    exact (hlimit hn (of_decide_eq_true hu)).trans_le h.depth
  · rintro g hg
    cases hg
    exact halike.below.ge

/-- The edges of a path whose fork `f` has another copy. -/
theorem map_edge_stored (s : Space) (memory : Nat) :
    (deeper ++ f.stored s memory :: above).map Fork.edge =
      deeper.map Fork.edge ++ { f.edge with space := some s, memory } :: above.map Fork.edge := by
  simp [Fork.stored]

/-- A copy is stored at a fork. The mark may be put to its depth if there are no copies below it. -/
theorem Keeps.stored {mark' memory total : Nat} (h : e.Keeps δ t limit mark (deeper ++ f :: above))
    (hs : t.Represents δ s (f.region ∩ t.goal))
    (hmark : mark' = mark ∨ mark' = above.length ∧ ∀ d ∈ deeper, d.edge.space = none)
    (htotal : total + f.edge.memory = e.path.memory + memory) :
    Keeps δ t limit mark'
      { e with path := { e.path with
        edges := (deeper ++ f.stored s memory :: above).map Fork.edge
        memory := total } }
      (deeper ++ f.stored s memory :: above) := by
  have hlength : (deeper ++ f.stored s memory :: above).length = (deeper ++ f :: above).length := by
    simp
  have habove : Trail δ t mark' above := by
    rcases hmark with rfl | ⟨rfl, -⟩
    · exact h.valid.of_append.tail
    · exact h.valid.of_append.tail.weaken (le_refl _)
  have hcopy : t.Represents δ s (f.region ∩ t.aim mark' above.length) := by
    unfold Tree.aim
    split
    · exact hs
    · rw [Set.inter_univ]
      exact hs.of_goal
  refine ⟨⟨h.carries.noGoodDepth, rfl, ?_, ?_⟩, ?_, fun n hn => (h.linked n hn).stored s memory,
    hlength ▸ h.depth, fun n hn g hg hu => ?_⟩
  · have hmemory := h.carries.memory
    simp only [List.map_append, List.sum_append, List.map_cons, List.sum_cons] at hmemory ⊢
    show total = _ + (memory + _)
    omega
  · rw [h.carries.work, List.countP_append, List.countP_append, List.countP_cons, List.countP_cons]
    rfl
  · exact h.valid.stored habove hcopy (hmark.imp_right (·.2))
  · have hg : g ∈ deeper ∨ g = f.stored s memory ∨ g ∈ above := by simpa using hg
    rcases hg with hg | rfl | hg
    · exact h.usedUp n hn g (by simp [hg]) hu
    · exact h.usedUp n hn f (by simp) hu
    · exact h.usedUp n hn g (by simp [hg]) hu

/-- The node is rebuilt as it is. -/
theorem Rebuilt.of_keeps {e' : Explorer} (haims : t.Aims best mark)
    (h : e'.Keeps δ t limit mark above) (halike : AlikeTrails above trail) (hQ : Anchored above Q)
    (hs : t.Represents δ s (Q ∩ t.goal)) (he : e.Evolves e') (hcurrent : e'.current = e.current)
    (hfails : e'.statistics.fails = e.statistics.fails) :
    Rebuilt δ t limit best e trail Q (some s, e', boundOf best mark) :=
  ⟨mark, haims, rfl, he, hcurrent, above, halike, h,
    ⟨hs, hQ.nested, .inr hQ, fun n hn => (h.linked n hn).leads hQ.below⟩, hfails⟩

/-- The forks of a segment that is replayed: the upper half, those of the lower half before the next
copy, and the others. -/
theorem exists_halves (forks : List Fork) : ∃ upper skipped remaining : List Fork,
    forks = upper ++ skipped ++ remaining ∧
      (forks.map Fork.edge).take ((forks.map Fork.edge).length / 2) = upper.map Fork.edge ∧
      ((forks.map Fork.edge).drop ((forks.map Fork.edge).length / 2)).takeWhile (·.isRightmost) =
        skipped.map Fork.edge ∧
      ((forks.map Fork.edge).drop ((forks.map Fork.edge).length / 2)).dropWhile (·.isRightmost) =
        remaining.map Fork.edge := by
  refine ⟨forks.take (forks.length / 2),
    (forks.drop (forks.length / 2)).takeWhile (·.edge.isRightmost),
    (forks.drop (forks.length / 2)).dropWhile (·.edge.isRightmost), ?_, ?_, ?_, ?_⟩
  · rw [List.append_assoc, List.takeWhile_append_dropWhile, List.take_append_drop]
  · rw [List.length_map, List.map_take]
  · rw [List.length_map, ← List.map_drop, List.takeWhile_map]
    rfl
  · rw [List.length_map, ← List.map_drop, List.dropWhile_map]
    rfl

/-- The node is rebuilt from a copy far above it, and another copy is left halfway. -/
theorem replayHalfway_law {e' : Explorer} {forks : List Fork} (haims : t.Aims best mark)
    (h : e'.Keeps δ t limit mark (forks.reverse ++ above))
    (halike : AlikeTrails (forks.reverse ++ above) trail) (hQ : Anchored (forks.reverse ++ above) Q)
    {R : Set Box} (hleads : Leads R forks Q) (hfresh : ∀ f ∈ forks, f.edge.isUsedUp = false)
    (hs : t.Represents δ s (R ∩ t.goal))
    (he : e.Evolves e') (hcurrent : e'.current = e.current)
    (hfails : e'.statistics.fails = e.statistics.fails) :
    Journaled.Yields δ
      (e'.replayHalfway s (forks.map Fork.edge) (above.map Fork.edge) (boundOf best mark))
      (Rebuilt δ t limit best e trail Q) := by
  obtain ⟨upper, skipped, remaining, rfl, hupper, hskipped, hremaining⟩ := exists_halves forks
  obtain ⟨M, hM, hrest⟩ := leads_append.1 hleads
  have hsound {g : Fork} (hg : g ∈ upper ++ skipped ++ remaining) : g.Sound t :=
    h.sound g (List.mem_append_left _ (List.mem_reverse.2 hg))
  unfold replayHalfway
  dsimp only
  rw [hupper, hskipped, hremaining, ← List.map_append]
  refine (Journaled.Yields.lift (replay_law hM (fun f hf => hsound (List.mem_append_left _ hf))
    (fun f hf => hfresh f (List.mem_append_left _ hf)) hs)).bind fun s₁ hs₁ => ?_
  have hreplay {s : Space} (hs : t.Represents δ s (M ∩ t.goal)) :=
    replay_law hrest (fun f hf => hsound (List.mem_append_right _ hf))
      (fun f hf => hfresh f (List.mem_append_right _ hf)) hs
  -- Unless two forks remain at least, no copy is stored.
  have hshort : Journaled.Yields δ (do
      let s ← replay s₁ (remaining.map Fork.edge)
      pure (some s, e', boundOf best mark)) (Rebuilt δ t limit best e trail Q) :=
    (Journaled.Yields.lift (hreplay hs₁)).bind fun s₂ hs₂ => Journaled.Yields.pure
      (Rebuilt.of_keeps haims h halike hQ hs₂ he hcurrent hfails)
  match remaining, hrest with
  | [], _ => exact hshort
  | [f], _ => exact hshort
  | first :: second :: rest, hrest =>
    obtain ⟨rfl, -⟩ := leads_cons.1 hrest
    set kept := skipped.reverse ++ upper.reverse ++ above with hkept
    have htrail : (upper ++ skipped ++ first :: second :: rest).reverse ++ above =
        (second :: rest).reverse ++ first :: kept := by
      simp [hkept]
    rw [htrail] at h halike hQ
    simp only [List.map_cons]
    refine (statusOf_law hs₁ e'.statistics).bind ?_
    rintro ⟨status, s₂, statistics⟩ ⟨hjudged, propagations, rfl⟩
    dsimp only at hjudged ⊢
    have hkeeps : Keeps δ t limit mark { e' with statistics := { e'.statistics with propagations } }
        ((second :: rest).reverse ++ first :: kept) := h.congr rfl (Nat.le_refl _)
    by_cases hfailed : status = .failed
    · subst hfailed
      have hdepth : (above.map Fork.edge).length + (upper.map Fork.edge).length +
          (skipped.map Fork.edge).length = kept.length := by
        simp only [hkept, List.length_map, List.length_append, List.length_reverse]
        omega
      rw [if_pos rfl, hdepth]
      refine failAt_law haims hkeeps (fun B hB hw => ?_) halike ⟨he.exploration, he.depth⟩ hcurrent
      exact hjudged.none_wanted B ⟨hB, hw.goal⟩ hw
    · rw [if_neg hfailed]
      have hmemory := h.carries.memory
      simp only [List.map_append, List.sum_append, List.map_cons, List.sum_cons] at hmemory
      have hle : first.edge.memory ≤ e'.path.memory := by omega
      refine (Journaled.Yields.lift (yields_lessen hle)).bind fun memory hm => ?_
      have hstored := hkeeps.stored hjudged.represents (.inl rfl)
        (show memory + s₂.memory + first.edge.memory = e'.path.memory + s₂.memory by omega)
      have hedges : (second.edge :: rest.map Fork.edge).reverse ++
          { first.edge with space := some s₂, memory := s₂.memory } ::
            ((skipped.map Fork.edge).reverse ++ (upper.map Fork.edge).reverse ++
              above.map Fork.edge) =
          ((second :: rest).reverse ++ first.stored s₂ s₂.memory :: kept).map Fork.edge := by
        rw [map_edge_stored]
        simp [hkept]
      rw [hedges]
      refine (Journaled.Yields.lift (hreplay hjudged.represents)).bind fun s₃ hs₃ =>
        Journaled.Yields.pure ?_
      refine Rebuilt.of_keeps haims (hstored.congr rfl (Nat.le_refl _)) ?_ (hQ.stored _ _) hs₃
        ⟨he.exploration, he.depth⟩ hcurrent hfails
      exact (AlikeTrails.append _ (first.alike_stored _ _)).trans halike

/-- Constrain a copy on the path by the best solution and propagate it, unless it was made after
that was found. -/
def refreshCopy (e : Explorer) (below : List Edge) (edge : Edge) (copy : Space)
    (above : List Edge) :
    Option Bound → Journaled (SpaceStatus × Space × Explorer × Option Bound)
  | none => return (.branch, copy, e, none)
  | some b => do
      if above.length < b.mark then
        let copy ← copy.constrain b.best
        let (status, copy, statistics) ← statusOf copy e.statistics
        let edges := below ++ { edge with space := some copy } :: above
        return (status, copy, { e with statistics, path := { e.path with edges } },
          some { b with mark := above.length })
      else return (.branch, copy, e, some b)

/-- The copy of the top edge is taken only if it is the last that is used. -/
theorem reuse_of_far {α : Type} {top : Edge}
    (hfar : top.space.isSome = true → top.isRightmost = false) (reuse : Space → α) (far : α) :
    (match top.space, top.isRightmost with
      | some copy, true => reuse copy
      | _, _ => far) = far := by
  cases hspace : top.space with
  | none => rfl
  | some copy =>
    rw [hfar (by rw [hspace]; rfl)]

theorem rebuild_eq [MemoryMeasure] {top edge : Edge} {edges below above : List Edge} {copy : Space}
    (hedges : e.path.edges = top :: edges)
    (hfar : top.space.isSome = true → top.isRightmost = false)
    (hsplit : Path.splitAtCopy? (top :: edges) = some (below, edge, copy, above))
    (bound : Option Bound) :
    e.rebuild bound = (do
      let (status, copy, e, bound) ←
        refreshCopy { e with distance := below.length + 1 } below edge copy above bound
      if status = .failed then e.failAt above.length bound
      else
        let segment := { edge with space := some copy } :: below.reverse
        if e.distance < e.exploration.adaptiveDistance then
          return (some (← replay copy segment), e, bound)
        else e.replayHalfway copy segment above bound) := by
  unfold rebuild refreshCopy
  rw [hedges]
  refine (reuse_of_far hfar _ _).trans ?_
  rw [hsplit]
  cases bound with
  | none => rfl
  | some b =>
    dsimp only
    split
    · simp only [bind_assoc, pure_bind]
    · rfl

/-- A node is rebuilt in the copy of the top edge, or from the closest copy on the path, or not at
all. -/
theorem rebuild_cases [MemoryMeasure] (e : Explorer) (bound : Option Bound) :
    (∃ fault, e.rebuild bound = throwThe Fault fault) ∨
    (∃ top copy edges, e.path.edges = top :: edges ∧ top.space = some copy ∧
      top.isRightmost = true ∧ e.rebuild bound = e.reuseTop top copy edges bound) ∨
    ∃ top edges below edge copy above, e.path.edges = top :: edges ∧
      (top.space.isSome = true → top.isRightmost = false) ∧
      Path.splitAtCopy? (top :: edges) = some (below, edge, copy, above) := by
  cases hedges : e.path.edges with
  | nil =>
    refine .inl ⟨.brokenCondition, ?_⟩
    unfold rebuild
    rw [hedges]
    rfl
  | cons top edges =>
    by_cases hfar : top.space.isSome = true → top.isRightmost = false
    · cases hsplit : Path.splitAtCopy? (top :: edges) with
      | none =>
        refine .inl ⟨.missingCopy, ?_⟩
        unfold rebuild
        rw [hedges]
        refine (reuse_of_far hfar _ _).trans ?_
        rw [hsplit]
        rfl
      | some found => exact .inr (.inr ⟨top, edges, _, _, _, _, rfl, hfar, hsplit⟩)
    · rw [Classical.not_imp, Bool.not_eq_false, Option.isSome_iff_exists] at hfar
      obtain ⟨⟨copy, hcopy⟩, hr⟩ := hfar
      refine .inr (.inl ⟨top, copy, edges, rfl, hcopy, hr, ?_⟩)
      unfold rebuild
      rw [hedges]
      dsimp only
      rw [hcopy, hr]

/-- A copy on the path, once it is constrained by the best solution. -/
structure Refreshed (δ : Prop) (t : Tree) (limit : Option Nat) (best : Option Space) (e : Explorer)
    (below : List Fork) (g : Fork) (above : List Fork)
    (r : SpaceStatus × Space × Explorer × Option Bound) (mark : Nat) : Prop where
  aims : t.Aims best mark
  bound : r.2.2.2 = boundOf best mark
  evolves : e.Evolves r.2.2.1
  current : r.2.2.1.current = e.current
  distance : r.2.2.1.distance = e.distance
  fails : r.2.2.1.statistics.fails = e.statistics.fails
  keeps : r.2.2.1.Keeps δ t limit mark (below ++ g.stored r.2.1 g.edge.memory :: above)
  represents : t.Represents δ r.2.1 (g.region ∩ t.goal)
  failed : r.1 = .failed → ∀ B ∈ g.region, ¬t.Wanted B

theorem refreshCopy_law {g : Fork} {below : List Fork} (haims : t.Aims best mark)
    (ht : t.Regular δ) (h : e.Keeps δ t limit mark (below ++ g :: above))
    (hs : g.edge.space = some s)
    (hnone : ∀ d ∈ below, d.edge.space = none) :
    Journaled.Yields δ
      (refreshCopy e (below.map Fork.edge) g.edge s (above.map Fork.edge) (boundOf best mark))
      fun r => ∃ mark, Refreshed δ t limit best e below g above r mark := by
  have hcopy := h.valid.of_append.copy hs
  have hsame : g.stored s g.edge.memory = g := by
    unfold Fork.stored
    rw [← hs]
  have hkept (hle : mark ≤ above.length) :
      Refreshed δ t limit best e below g above (.branch, s, e, boundOf best mark) mark := by
    unfold Tree.aim at hcopy
    rw [if_pos hle] at hcopy
    exact ⟨haims, rfl, .refl e, rfl, rfl, rfl, by rwa [hsame], hcopy, fun hf => by cases hf⟩
  cases hbest : best with
  | none =>
    subst hbest
    have hmark := haims.mark rfl
    exact Journaled.Yields.pure ⟨mark, hkept (by omega)⟩
  | some b =>
    subst hbest
    unfold refreshCopy
    rw [List.length_map]
    show Journaled.Yields δ (if above.length < mark then _ else _) _
    by_cases hlt : above.length < mark
    · rw [if_pos hlt]
      refine (Journaled.Yields.lift (haims.constrain_law ht rfl hcopy.of_aim)).bind fun s₁ hs₁ => ?_
      refine (statusOf_law hs₁ e.statistics).bind ?_
      rintro ⟨status, s₂, statistics⟩ ⟨hjudged, propagations, rfl⟩
      refine Journaled.Yields.pure
        ⟨above.length, haims.lower hlt, rfl, ⟨rfl, Nat.le_refl _⟩, rfl, rfl,
        rfl, ?_, hjudged.represents, ?_⟩
      · have hstored := h.stored hjudged.represents (.inr ⟨rfl, hnone⟩)
          (show e.path.memory + g.edge.memory = e.path.memory + g.edge.memory from rfl)
        refine hstored.congr ?_ (Nat.le_refl _)
        rw [map_edge_stored]
      · rintro rfl B hB hw
        exact hjudged.none_wanted B ⟨hB, hw.goal⟩ hw
    · rw [if_neg hlt]
      exact Journaled.Yields.pure ⟨mark, hkept (not_lt.1 hlt)⟩

/-- The node that the path points to is rebuilt, or a fork above it turns out to have no
solutions. -/
theorem rebuild_law (haims : t.Aims best mark) (ht : t.Regular δ)
    (h : e.Keeps δ t limit mark (f :: above)) (hQ : Anchored (f :: above) Q) :
    Journaled.Yields δ (e.rebuild (boundOf best mark))
      (Rebuilt δ t limit best e (f :: above) Q) := by
  have hedges := h.carries.edges
  rw [List.map_cons] at hedges
  by_cases hreuse : f.edge.space.isSome = true ∧ f.edge.isRightmost = true
  · obtain ⟨hspace, hr⟩ := hreuse
    obtain ⟨s, hs⟩ := Option.isSome_iff_exists.1 hspace
    have hrebuild : e.rebuild (boundOf best mark) =
        e.reuseTop f.edge s (above.map Fork.edge) (boundOf best mark) := by
      unfold rebuild
      rw [hedges]
      dsimp only
      rw [hs, hr]
    rw [hrebuild]
    exact reuseTop_law haims ht h hQ hs hr
  have hfar : f.edge.space.isSome = true → f.edge.isRightmost = false := fun hspace => by
    simpa [hspace] using hreuse
  obtain ⟨below, above', g, s, htrail, hs, hnone, hfresh, hsplit, hleads⟩ :=
    hQ.rebuildable.exists_copy hQ.fresh
  obtain rfl : f.below = Q := Option.some.inj hQ.below
  have hleads := hleads f rfl
  rw [List.map_cons] at hsplit
  rw [htrail] at h hQ ⊢
  rw [rebuild_eq hedges hfar hsplit, List.length_map]
  have hfar : Keeps δ t limit mark { e with distance := below.length + 1 } (below ++ g :: above') :=
    h.congr rfl (Nat.le_refl _)
  refine (refreshCopy_law haims ht hfar hs hnone).bind ?_
  rintro ⟨status, s₁, e₁, bound⟩ ⟨mark', hr⟩
  obtain ⟨haims', hbound, hevolves, hcurrent, hdistance, hfails, hkeeps, hs₁, hfailed⟩ := hr
  dsimp only at hbound hevolves hcurrent hdistance hfails hkeeps hs₁ hfailed ⊢
  subst hbound
  have hevolves' : e.Evolves e₁ := ⟨hevolves.exploration, hevolves.depth⟩
  have halike : AlikeTrails (below ++ g.stored s₁ g.edge.memory :: above') (below ++ g :: above') :=
    AlikeTrails.append below (g.alike_stored _ _)
  rw [List.length_map]
  by_cases hf : status = .failed
  · rw [if_pos hf]
    exact failAt_law haims' hkeeps (hfailed hf) halike hevolves' hcurrent
  rw [if_neg hf]
  -- The edges below the copy are replayed, and perhaps another copy is left.
  set g' := g.stored s₁ g.edge.memory with hg'
  have hsegment : { g.edge with space := some s₁ } :: (below.map Fork.edge).reverse =
      (g' :: below.reverse).map Fork.edge := by
    rw [List.map_cons, List.map_reverse]
    rfl
  have hleads' : Leads g.region (g' :: below.reverse) f.below :=
    leads_cons.2 ⟨rfl, (leads_cons.1 hleads).2⟩
  have hfresh' : ∀ d ∈ g' :: below.reverse, d.edge.isUsedUp = false := by
    intro d hd
    rcases List.mem_cons.1 hd with rfl | hd
    · exact hfresh g List.mem_cons_self
    · exact hfresh d (List.mem_cons_of_mem _ (List.mem_reverse.1 hd))
  have hanchored : Anchored (below ++ g' :: above') f.below := hQ.stored _ _
  rw [hsegment]
  by_cases hnear : e₁.distance < e₁.exploration.adaptiveDistance
  · rw [if_pos hnear]
    have hsound : ∀ d ∈ g' :: below.reverse, d.Sound t := by
      intro d hd
      refine hkeeps.sound d ?_
      rcases List.mem_cons.1 hd with rfl | hd
      · simp
      · exact List.mem_append_left _ (List.mem_reverse.1 hd)
    refine (Journaled.Yields.lift (replay_law hleads' hsound hfresh' hs₁)).bind fun s₂ hs₂ =>
      Journaled.Yields.pure ?_
    exact Rebuilt.of_keeps haims' hkeeps halike hanchored hs₂ hevolves' hcurrent hfails
  · rw [if_neg hnear]
    have hreverse : (g' :: below.reverse).reverse ++ above' = below ++ g' :: above' := by simp
    exact replayHalfway_law haims' (hreverse ▸ hkeeps) (hreverse ▸ halike) (hreverse ▸ hanchored)
      hleads' hfresh' hs₁ hevolves' hcurrent hfails

/-! ### The next node -/

/-- What the next node is, and how the search gets to it. -/
def Arrives (δ : Prop) (t : Tree) (limit : Option Nat) (best : Option Space) (e : Explorer)
    (F : Frontier) : Option Space × Explorer × Option Bound → Prop
  | (node, e', bound) => ∃ mark G, t.Aims best mark ∧ bound = boundOf best mark ∧ e.Evolves e' ∧
      e'.current = none ∧ Frontier.Follows t F e.statistics.fails e'.statistics.fails G ∧
      e'.Keeps δ t limit mark G.trail ∧
      match node with
      | some s => ∃ Q, G.ahead = some Q ∧ e'.Poised δ t limit G.trail Q s
      | none => G = ⟨[], none⟩

theorem nextNodeWithin_law {steps : Nat} {F : Frontier} (haims : t.Aims best mark)
    (ht : t.Regular δ) (h : e.Explores δ t limit mark F) (hsteps : F.trail.length < steps) :
    Journaled.Yields δ (nextNodeWithin steps e (boundOf best mark))
      (Arrives δ t limit best e F) := by
  induction steps generalizing e mark F with
  | zero => exact absurd hsteps (Nat.not_lt_zero _)
  | succ steps ih =>
    unfold nextNodeWithin
    cases hcurrent : e.current with
    | some s =>
      obtain ⟨Q, hahead, hpoised⟩ := h.current s hcurrent
      refine Journaled.Yields.pure ⟨mark, F, haims, rfl, ⟨rfl, Nat.le_refl _⟩, rfl,
        ⟨.refl t F, .inl ⟨.refl _, rfl, rfl⟩⟩, h.keeps.congr rfl (Nat.le_refl _), Q, hahead, ?_⟩
      exact ⟨hpoised.represents, hpoised.nested, hpoised.anchored, hpoised.leads⟩
    | none =>
      obtain ⟨hF, hanchored⟩ := h.rebuildable hcurrent
      have hkeeps := h.keeps
      generalize F.trail = trail at hF hanchored hkeeps hsteps
      subst hF
      have hempty : e.path.isEmpty = trail.isEmpty := by
        unfold Path.isEmpty
        rw [hkeeps.carries.edges, List.isEmpty_map]
      dsimp only
      rw [hempty]
      cases trail with
      | nil =>
        exact Journaled.Yields.pure ⟨mark, _, haims, rfl, .refl e, hcurrent,
          ⟨.refl t _, .inl ⟨.refl _, rfl, rfl⟩⟩, hkeeps, rfl⟩
      | cons f above =>
        rw [if_neg (by simp)]
        refine (rebuild_law haims ht hkeeps (hanchored f rfl)).bind ?_
        rintro ⟨node, e₁, bound⟩ ⟨mark', haims', rfl, hevolves, hcurrent₁, hnode⟩
        rw [hcurrent] at hcurrent₁
        dsimp only
        cases node with
        | some s =>
          obtain ⟨trail', halike, hkeeps', hpoised, hfails⟩ := hnode
          refine Journaled.Yields.pure ⟨mark', ⟨trail', some f.below⟩, haims', rfl, hevolves,
            hcurrent₁, ⟨?_, .inl ⟨halike, rfl, hfails⟩⟩, hkeeps', f.below, rfl, hpoised⟩
          exact Frontier.le_of_alike halike _
        | none =>
          obtain ⟨deeper, g, above', halike, htrail, hnone, hkeeps'⟩ := hnode
          refine (Journaled.Yields.lift (Path.advance_law hkeeps'.carries)).bind fun p hp => ?_
          have hadvanced := hkeeps'.advanced hp
          have hlength := halike.length_eq
          simp only [List.length_append, List.length_cons] at hlength hsteps
          have hle := length_advanced_le above'
          refine (ih haims' (hadvanced.explores hkeeps'.valid hcurrent₁) ?_).mono ?_
          · show (advanced above').length < steps
            omega
          rintro ⟨node, e₂, bound⟩
            ⟨mark'', G, haims'', hbound, hevolves', hcurrent₂, hfollows, hrest⟩
          exact ⟨mark'', G, haims'', hbound, ⟨hevolves'.exploration.trans hevolves.exploration,
            hevolves.depth.trans hevolves'.depth⟩, hcurrent₂,
            .of_skip halike htrail hnone ht.root hfollows, hrest⟩

theorem nextNode_law {F : Frontier} (haims : t.Aims best mark) (ht : t.Regular δ)
    (h : e.Explores δ t limit mark F) :
    Journaled.Yields δ (e.nextNode (boundOf best mark)) (Arrives δ t limit best e F) := by
  refine nextNodeWithin_law haims ht h ?_
  rw [h.keeps.carries.length]
  exact Nat.lt_succ_self _

/-- The next node may be put back. -/
theorem Arrives.explores {F : Frontier} {node : Option Space} {e' : Explorer} {bound : Option Bound}
    (h : Arrives δ t limit best e F (node, e', bound)) :
    ∃ mark G, t.Aims best mark ∧ bound = boundOf best mark ∧
      Frontier.Follows t F e.statistics.fails e'.statistics.fails G ∧
      Explores δ t limit mark { e' with current := node } G := by
  obtain ⟨mark, G, haims, rfl, -, -, hfollows, hkeeps, hnode⟩ := h
  refine ⟨mark, G, haims, rfl, hfollows, hkeeps.congr rfl (Nat.le_refl _), fun s hs => ?_,
    fun hnone => ?_⟩
  · cases hs
    obtain ⟨Q, hahead, hpoised⟩ := hnode
    exact ⟨Q, hahead, hpoised.represents, hpoised.nested, hpoised.anchored, hpoised.leads⟩
  · cases hnone
    obtain rfl : G = ⟨[], none⟩ := hnode
    exact ⟨rfl, fun f hf => by cases hf⟩

/-! ### Exploring a node -/

/-- The invariant says nothing of the trace and of the other counters. -/
theorem Explores.congr {e' : Explorer} {F : Frontier} (h : e.Explores δ t limit mark F)
    (hpath : e'.path = e.path) (hcurrent : e'.current = e.current)
    (hdistance : e'.distance = e.distance)
    (hdepth : e.statistics.depth ≤ e'.statistics.depth) : e'.Explores δ t limit mark F where
  keeps := h.keeps.congr hpath hdepth
  current s hs := by
    rw [hcurrent] at hs
    obtain ⟨Q, hahead, hpoised⟩ := h.current s hs
    exact ⟨Q, hahead, hpoised.represents, hpoised.nested, hdistance ▸ hpoised.anchored,
      hpoised.leads⟩
  rebuildable hnone := h.rebuildable (hcurrent ▸ hnone)

theorem exists_reportNode (e : Explorer) (edge : Option EdgeInfo) (id : NodeId) (kind : NodeKind) :
    ∃ tracing, e.reportNode edge id kind = { e with tracing } := by
  cases edge with
  | none => exact ⟨_, rfl⟩
  | some edge => exact ⟨_, rfl⟩

theorem yields_edgeInfo_of_last {e : Explorer}
    (h : ∀ top ∈ e.path.edges.head?, top.last < top.choice.alternatives) :
    Yields δ e.edgeInfo fun _ => True := by
  unfold edgeInfo
  cases hedges : e.path.edges with
  | nil =>
    unfold Path.topEdge?
    rw [hedges]
    exact trivial
  | cons top edges =>
    refine (Path.yields_topEdge? hedges (h top (by rw [hedges]; rfl))).bind fun _ _ => ?_
    exact Yields.pure trivial

theorem yields_edgeInfo (h : e.Keeps δ t limit mark trail) : Yields δ e.edgeInfo fun _ => True := by
  refine yields_edgeInfo_of_last fun top htop => ?_
  rw [h.carries.edges] at htop
  cases trail with
  | nil => cases htop
  | cons f trail =>
    cases htop
    exact h.valid.head.last

/-- A node that was split: the fork that it leaves, and the space that has made the choice. -/
structure Splits (δ : Prop) (t : Tree) (Q : Set Box) (f : Fork) (s : Space) : Prop where
  region : f.region = Q
  fresh : f.edge.alternative = 0
  full : f.edge.last + 1 = f.edge.choice.alternatives
  sound : f.Sound t
  rests : t.Rests δ s (Q ∩ t.goal)
  hasOpen : ∃ b, s.branchers.get? s.active = some b ∧ b.HasOpen s.store
  choice : ∃ s', s.choice = .ok (f.edge.choice, s')

/-- What became of the node of the region `Q` below the trail, and what is explored after it. -/
def Visited (δ : Prop) (t : Tree) (limit : Option Nat) (mark : Nat) (e : Explorer)
    (trail : List Fork) (Q : Set Box) : Explored × Explorer → Prop
  | (.failed, e') => e.Evolves e' ∧ e'.statistics.fails = e.statistics.fails + 1 ∧
      (∀ B ∈ Q, ¬t.Wanted B) ∧ e'.Explores δ t limit mark (.ofTrail (advanced trail))
  | (.solved s, e') => e.Evolves e' ∧ e'.statistics.fails = e.statistics.fails ∧
      t.Rests δ s (Q ∩ t.goal) ∧ (∀ i b, s.branchers.get? i = some b → b.Done s.store) ∧
      e'.current = none ∧ e'.Explores δ t limit mark (.ofTrail (advanced trail))
  | (.branched, e') => e.Evolves e' ∧ e'.statistics.fails = e.statistics.fails ∧
      ∃ f s, Splits δ t Q f s ∧ e'.Explores δ t limit mark ⟨f :: vacated trail, some f.below⟩

/-- To report the node changes the trace only. -/
theorem Visited.report {explored : Explored} {e' : Explorer}
    (h : Visited δ t limit mark e trail Q (explored, e')) (edge : Option EdgeInfo) (id : NodeId)
    (kind : NodeKind) :
    Visited δ t limit mark e trail Q (explored, e'.reportNode edge id kind) := by
  obtain ⟨tracing, htracing⟩ := exists_reportNode e' edge id kind
  rw [htracing]
  cases explored with
  | failed =>
    obtain ⟨he, hfails, hnone, hexplores⟩ := h
    exact ⟨⟨he.exploration, he.depth⟩, hfails, hnone, hexplores.congr rfl rfl rfl (Nat.le_refl _)⟩
  | solved s =>
    obtain ⟨he, hfails, hrests, hdone, hcurrent, hexplores⟩ := h
    exact ⟨⟨he.exploration, he.depth⟩, hfails, hrests, hdone, hcurrent,
      hexplores.congr rfl rfl rfl (Nat.le_refl _)⟩
  | branched =>
    obtain ⟨he, hfails, f, s, hsplits, hexplores⟩ := h
    exact ⟨⟨he.exploration, he.depth⟩, hfails, f, s, hsplits,
      hexplores.congr rfl rfl rfl (Nat.le_refl _)⟩

/-- The fork of a node that is split. -/
theorem sound_of_split {c : Choice} {copy : Option Space} {memory : Nat} {id : NodeId}
    (hoffers : t.Offers Q c) (hf : f = ⟨⟨copy, memory, c, 0, c.alternatives - 1, id⟩, Q⟩) :
    f.Sound t := by
  have htwo := hoffers.two_le
  subst hf
  exact ⟨by dsimp only; omega, Nat.zero_le _, hoffers⟩

/-- All alternatives of a node that is split are to be explored. -/
theorem full_of_split {c : Choice} {copy : Option Space} {memory : Nat} {id : NodeId}
    (hoffers : t.Offers Q c) (hf : f = ⟨⟨copy, memory, c, 0, c.alternatives - 1, id⟩, Q⟩) :
    f.edge.last + 1 = f.edge.choice.alternatives := by
  have htwo := hoffers.two_le
  subst hf
  exact Nat.sub_add_cancel (by omega)

/-- The node below the first alternative of a node that is split. -/
theorem explores_of_split {s₁ s₂ : Space} {e' : Explorer} {p : Path} {copied : Prop}
    [Decidable copied] {c : Choice} {memory : Nat} {id : NodeId} (h : e.Keeps δ t limit mark trail)
    (hs : e.Poised δ t limit trail Q s) (hoffers : t.Offers Q c)
    (hcopy : t.Represents δ s₁ (Q ∩ t.goal))
    (hfirst : t.Represents δ s₂ ((Q ∩ t.goal) ∩ c.keeps 0)) (hcopied : e.distance = 0 → copied)
    (hf : f = ⟨⟨if copied then some s₁ else none, memory, c, 0, c.alternatives - 1, id⟩, Q⟩)
    (hp : p.Carries limit (f :: vacated trail)) (he : e.Evolves e')
    (hpath : e'.path = p) (hcurrent : e'.current = some s₂)
    (hdepth : p.length ≤ e'.statistics.depth) :
    e'.Explores δ t limit mark ⟨f :: vacated trail, some f.below⟩ := by
  have hsound := sound_of_split hoffers hf
  have hregion : f.region = Q := by rw [hf]
  have hchoice : f.edge.choice = c := by rw [hf]
  have halternative : f.edge.alternative = 0 := by rw [hf]
  have hspace : f.edge.space = if copied then some s₁ else none := by rw [hf]
  have hchosen : f.chosen = 0 := by
    unfold Fork.chosen
    omega
  have hfresh : f.edge.isUsedUp = false := decide_eq_false (by omega)
  have hrebuildable : Rebuildable (f :: vacated trail) := by
    by_cases hc : copied
    · exact .copy (by rw [hspace, if_pos hc]; rfl)
    · have hanchored := hs.anchored.resolve_left fun h0 => hc (hcopied h0)
      exact hanchored.rebuildable_cons hregion
  have hvalid : Trail δ t mark (f :: vacated trail) := by
    refine .cons hsound (fun s' hs' => ?_) ?_ (.inr hrebuildable) h.valid.vacated
    · rw [hspace] at hs'
      split at hs'
      · cases hs'
        rw [hregion]
        unfold Tree.aim
        split
        · exact hcopy
        · rw [Set.inter_univ]
          exact hcopy.of_goal
      · cases hs'
    · rw [hregion]
      exact h.valid.nested_vacated hs.nested
  have hlinked : ∀ n ∈ limit, Linked t.whole n (f :: vacated trail) := fun n hn =>
    (h.linked n hn).push hfresh (full_of_split hoffers hf) (hregion ▸ hs.leads n hn)
  refine ⟨⟨?_, hvalid, hlinked, ?_, fun n hn g hg hu => ?_⟩, fun s' hs' => ?_, fun hnone => ?_⟩
  · rw [hpath]
    exact hp
  · rw [← hp.length]
    exact hdepth
  · rcases List.mem_cons.1 hg with rfl | hg
    · rw [hfresh] at hu
      cases hu
    · exact (h.usedUp n hn g (mem_of_mem_vacated hg) hu).trans_le he.depth
  · rw [hcurrent] at hs'
    cases hs'
    refine ⟨f.below, rfl, ?_, fun g hg => ?_, .inr ⟨rfl, fun g hg => ?_, hrebuildable⟩,
      fun n hn => (hlinked n hn).leads rfl⟩
    · have hbelow : f.below = Q ∩ c.keeps 0 := by
        unfold Fork.below Fork.part
        rw [hregion, hchoice, hchosen]
      rwa [hbelow, Set.inter_right_comm]
    · cases hg
      exact Set.Subset.refl _
    · cases hg
      exact hfresh
  · rw [hcurrent] at hnone
    cases hnone

/-- What becomes of a node. -/
theorem explore_law (h : e.Keeps δ t limit mark trail) (hcurrent : e.current = none)
    (hs : e.Poised δ t limit trail Q s) :
    Journaled.Yields δ (e.explore s) (Visited δ t limit mark e trail Q) := by
  unfold explore
  extract_lets statistics visit
  -- What becomes of the node does not depend on how it is reported.
  suffices hvisit : ∀ edge, Journaled.Yields δ (visit edge) (Visited δ t limit mark e trail Q) by
    split
    · refine (Journaled.Yields.lift (yields_edgeInfo h)).bind fun edge _ => ?_
      rw [pure_bind]
      exact hvisit (some edge)
    · rw [pure_bind]
      exact hvisit none
  intro edge
  refine (statusOf_law hs.represents _).bind ?_
  rintro ⟨status, s₁, counted⟩ ⟨hjudged, propagations, rfl⟩
  dsimp only at hjudged ⊢
  cases status with
  | failed =>
    refine (Journaled.Yields.lift (Path.advance_law h.carries)).bind fun p hp =>
      Journaled.Yields.pure (Visited.report ?_ _ _ _)
    refine ⟨⟨rfl, Nat.le_refl _⟩, rfl, fun B hB hw => ?_, ?_⟩
    · exact hjudged.none_wanted B ⟨hB, hw.goal⟩ hw
    · exact ((h.advanced hp).explores h.valid hcurrent).congr rfl rfl rfl (Nat.le_refl _)
  | solved =>
    refine (Journaled.Yields.lift (Path.advance_law h.carries)).bind fun p hp =>
      Journaled.Yields.pure (Visited.report ?_ _ _ _)
    refine ⟨⟨rfl, Nat.le_refl _⟩, rfl, hjudged.1, hjudged.2, hcurrent, ?_⟩
    exact ((h.advanced hp).explores h.valid hcurrent).congr rfl rfl rfl (Nat.le_refl _)
  | branch =>
    obtain ⟨hrests, hopen⟩ := hjudged
    refine (Journaled.Yields.lift (Tree.choice_law hrests hopen).self).bind ?_
    rintro ⟨choice, split⟩ ⟨⟨hoffers, hsplit⟩, hchoice⟩
    dsimp only at hoffers hsplit ⊢
    refine (Journaled.Yields.lift (Path.push_law h.carries choice _ _ Q)).bind fun p hp => ?_
    have hpos : 0 < choice.alternatives := Nat.zero_lt_of_lt hoffers.two_le
    refine (Journaled.Yields.lift (Tree.commit_law hsplit hoffers hpos)).bind fun first hfirst =>
      Journaled.Yields.pure (Visited.report ?_ _ _ _)
    generalize hf : Fork.mk _ Q = f at hp
    have hfork := hf.symm
    refine ⟨⟨rfl, Nat.le_max_left _ _⟩, rfl, f, s₁,
      ⟨hf ▸ rfl, hf ▸ rfl, full_of_split hoffers.of_goal hfork,
      sound_of_split hoffers.of_goal hfork,
        hrests, hopen, split, ?_⟩, ?_⟩
    · rw [hfork]
      exact hchoice
    · exact explores_of_split h hs hoffers.of_goal (.stands hrests.toStands) hfirst
        (fun h0 => .inl h0) hfork hp ⟨rfl, Nat.le_max_left _ _⟩ rfl rfl (Nat.le_max_right _ _)

/-! ### The beginning -/

/-- The exploration of a tree begins at its root, unless that has no solutions. -/
theorem start_law (mark : Nat) (hs : t.Represents δ s (t.whole ∩ t.goal)) :
    Journaled.Yields δ (e.start s) fun e' => e.Evolves e' ∧ ∃ ahead,
      e'.Explores δ t (some e.exploration.noGoodsLimit) mark ⟨[], ahead⟩ ∧
      ((ahead = some t.whole ∧ e'.statistics.fails = e.statistics.fails ∧
          ∃ s', t.Rests δ s' (t.whole ∩ t.goal)) ∨
        (ahead = none ∧ ∀ B ∈ t.whole, ¬t.Wanted B)) := by
  unfold start
  refine (statusOf_law hs _).bind ?_
  rintro ⟨status, s₁, statistics⟩ ⟨hjudged, propagations, rfl⟩
  dsimp only at hjudged ⊢
  have hkeeps {e' : Explorer} (hpath : e'.path = .empty e.exploration.noGoodsLimit) :
      e'.Keeps δ t (some e.exploration.noGoodsLimit) mark [] := by
    refine ⟨hpath ▸ Path.carries_empty fun n hn => Option.some.inj hn, .nil, fun _ _ => .nil,
      Nat.zero_le _, fun _ _ f hf => ?_⟩
    cases hf
  by_cases hfailed : status = .failed
  · subst hfailed
    rw [if_pos rfl]
    refine Journaled.Yields.pure ⟨⟨rfl, Nat.le_refl _⟩, none, ⟨hkeeps rfl, ?_, ?_⟩, .inr ⟨rfl, ?_⟩⟩
    · exact fun s' hs' => by cases hs'
    · exact fun _ => ⟨rfl, fun f hf => by cases hf⟩
    · exact fun B hB hw => hjudged.none_wanted B ⟨hB, hw.goal⟩ hw
  · rw [if_neg hfailed]
    refine Journaled.Yields.pure
      ⟨⟨rfl, Nat.le_refl _⟩, some t.whole, ⟨hkeeps rfl, ?_, ?_⟩, .inl ⟨rfl, rfl, s₁, ?_⟩⟩
    · rintro s' hs'
      cases hs'
      exact ⟨t.whole, rfl, hjudged.represents, fun f hf => (by cases hf), .inl rfl,
        fun _ _ _ => .nil _⟩
    · exact fun hnone => by cases hnone
    · cases status with
      | failed => exact absurd rfl hfailed
      | solved => exact hjudged.1
      | branch => exact hjudged.1

end Explorer

end ConstraintSearch
