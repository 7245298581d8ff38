import ConstraintSearch.Proofs.Search.Explorer

/-!
# The theory of stealing

A worker without work takes the last alternative of an edge of another one's path.

* `Fork.robbed`, `Fork.lastPart`: the fork that is left, and the part that is given away. Together
  they have what was left before (`Fork.mem_left_iff_robbed`);
* `Path.steal_law`: the space that is given away is the node of the last part of a fork;
* `Frontier.Shared`: a region is shared out between two parts;
* `Explorer.steal_law`: the victim goes on with what it has not given away;
* `Explorer.adopt_law`: the thief begins with the node that it was given.
-/

namespace ConstraintSearch

variable {δ : Prop} {t : Tree} {limit : Option Nat} {mark : Nat} {f : Fork}
  {trail above deeper : List Fork} {Q R : Set Box} {F : Box} {a : Assignment} {s : Space}

/-! ### Forks -/

namespace Fork

/-- The fork whose last alternative was given away. -/
def robbed (f : Fork) : Fork := { f with edge := { f.edge with last := f.edge.last - 1 } }

/-- The part that is given away next. -/
def lastPart (f : Fork) : Set Box := f.part f.edge.last

section HasWork

variable (hwork : f.edge.hasWork = true)

include hwork

theorem alternative_lt : f.edge.alternative < f.edge.last := of_decide_eq_true hwork

theorem isUsedUp_of_hasWork : f.edge.isUsedUp = false :=
  decide_eq_false (not_lt.2 (alternative_lt hwork).le)

/-- To give away an alternative that is not explored yet changes nothing of the one that is. -/
theorem chosen_robbed : f.robbed.chosen = f.chosen := by
  have hlt := alternative_lt hwork
  show min f.edge.alternative (f.edge.last - 1) = min f.edge.alternative f.edge.last
  omega

theorem matches_robbed : f.robbed.Matches f where
  region := rfl
  below := congrArg f.part (chosen_robbed hwork)
  isUsedUp := by
    have hlt := alternative_lt hwork
    rw [isUsedUp_of_hasWork hwork]
    exact decide_eq_false (by show ¬f.edge.last - 1 < f.edge.alternative; omega)

/-- What is left is given away, or is left still. -/
theorem mem_left_iff_robbed : F ∈ f.left ↔ F ∈ f.robbed.left ∨ F ∈ f.lastPart := by
  have hlt := alternative_lt hwork
  constructor
  · rintro ⟨i, hi, hle, hF⟩
    rcases Nat.eq_or_lt_of_le hle with rfl | hlast
    · exact .inr hF
    · exact .inl ⟨i, hi, Nat.le_sub_one_of_lt hlast, hF⟩
  · rintro (⟨i, hi, hle, hF⟩ | hF)
    · exact ⟨i, hi, hle.trans (Nat.sub_le _ _), hF⟩
    · exact ⟨f.edge.last, hlt, le_refl _, hF⟩

theorem Sound.robbed (h : f.Sound t) : f.robbed.Sound t := by
  have hlt := alternative_lt hwork
  refine ⟨(Nat.sub_le _ _).trans_lt h.last, ?_, h.offers⟩
  show f.edge.alternative ≤ f.edge.last - 1 + 1
  omega

/-- What was given away is not explored here. -/
theorem Sound.not_mem_of_lastPart (h : f.Sound t) (ha : a.box ∈ f.lastPart) :
    a.box ∉ f.below ∧ a.box ∉ f.robbed.left := by
  have hlt := alternative_lt hwork
  constructor
  · intro hbelow
    have heq := h.offers.unique h.chosen_lt h.last hbelow.2 ha.2
    unfold chosen at heq
    omega
  · rintro ⟨i, -, hle, hmem⟩
    have hle : i ≤ f.edge.last - 1 := hle
    have heq := h.offers.unique (by have := h.last; omega) h.last hmem.2 ha.2
    omega

end HasWork

end Fork

/-! ### Trails -/

theorem Rebuildable.robbed (h : Rebuildable (f :: trail)) : Rebuildable (f.robbed :: trail) := by
  cases h with
  | copy hcopy => exact .copy hcopy
  | step hregion hg h => exact .step hregion hg h

section Robbed

variable (hwork : f.edge.hasWork = true)

include hwork

theorem Trail.robbed (h : Trail δ t mark (deeper ++ f :: trail)) :
    Trail δ t mark (deeper ++ f.robbed :: trail) := by
  have hf := h.of_append
  refine h.exchange (Fork.matches_robbed hwork) Rebuildable.robbed ?_ (.inl rfl)
  have hr : f.edge.isRightmost = false :=
    decide_eq_false (not_le.2 (Fork.alternative_lt hwork))
  exact .cons (hf.head.robbed hwork) (fun s hs => hf.copy hs) hf.nested
    (.inr (hf.rebuildable hr).robbed) hf.tail

theorem Anchored.robbed (h : Anchored (deeper ++ f :: trail) Q) :
    Anchored (deeper ++ f.robbed :: trail) Q :=
  h.exchange (Fork.matches_robbed hwork) Rebuildable.robbed

theorem head_robbed : (deeper ++ f.robbed :: trail).head?.map Fork.below =
    (deeper ++ f :: trail).head?.map Fork.below := by
  cases deeper with
  | nil => exact congrArg some (Fork.matches_robbed hwork).below
  | cons d deeper => rfl

theorem exists_head_of_robbed {g : Fork} (hg : g ∈ (deeper ++ f.robbed :: trail).head?) :
    ∃ g' ∈ (deeper ++ f :: trail).head?, g'.below = g.below := by
  have hbelow : (deeper ++ f.robbed :: trail).head?.map Fork.below =
      (deeper ++ f :: trail).head?.map Fork.below := head_robbed hwork
  rw [Option.mem_def.1 hg] at hbelow
  exact Option.map_eq_some_iff.1 hbelow.symm

end Robbed

/-! ### Paths -/

namespace Path

/-- The fork from which an alternative is given away has one. -/
theorem exists_of_stealable {n : Nat} {trail : List Fork} {below above : List Edge} {edge : Edge}
    (h : stealable? n 0 (trail.map Fork.edge) = some (below, edge, above)) :
    ∃ deeper f rest, trail = deeper ++ f :: rest ∧ f.edge.hasWork = true ∧
      below = deeper.map Fork.edge ∧ edge = f.edge ∧ above = rest.map Fork.edge := by
  obtain ⟨hedges, hwork, -⟩ := edges_of_stealable? (Nat.zero_le n) h
  obtain ⟨deeper, rest, rfl, rfl, hrest⟩ := List.map_eq_append_iff.1 hedges
  obtain ⟨f, rest, rfl, rfl, rfl⟩ := List.map_eq_cons_iff.1 hrest
  exact ⟨deeper, f, rest, rfl, hwork, rfl, rfl, rfl⟩

/-- What was stolen from the trail, if anything was: the node of the last part of a fork. -/
def Stolen (δ : Prop) (t : Tree) (limit : Option Nat) (trail : List Fork) :
    Option (Space × EdgeInfo × Path) → Prop
  | none => True
  | some (s, _, p) => ∃ deeper f above, trail = deeper ++ f :: above ∧ f.edge.hasWork = true ∧
      t.Represents δ s f.lastPart ∧ p.Carries limit (deeper ++ f.robbed :: above)

/-- The path that is left when the fork `f` has given away an alternative. -/
theorem Carries.robbed {p : Path} (work : Nat) (h : p.Carries limit (deeper ++ f :: above))
    (hwork : f.edge.hasWork = true)
    (hcount : work = p.edgesWithWork - if f.robbed.edge.hasWork = true then 0 else 1) : Carries
      { p with
        edges := deeper.map Fork.edge ++ f.robbed.edge :: above.map Fork.edge
        edgesWithWork := work }
      limit (deeper ++ f.robbed :: above) := by
  have hbefore := h.work
  have hmemory := h.memory
  rw [List.countP_append, List.countP_cons, if_pos hwork] at hbefore
  rw [List.map_append, List.map_cons] at hmemory
  refine ⟨h.noGoodDepth, by rw [List.map_append, List.map_cons], ?_, ?_⟩
  · rw [List.map_append, List.map_cons]
    exact hmemory
  · show work = _
    rw [List.countP_append, List.countP_cons]
    by_cases hnext : f.robbed.edge.hasWork = true
    · rw [if_pos hnext] at hcount ⊢
      omega
    · rw [if_neg hnext] at hcount ⊢
      omega

theorem steal_law {p : Path} (h : p.Carries limit trail) (hvalid : Trail δ t mark trail) (n : Nat) :
    Yields δ (p.steal? n) (Stolen δ t limit trail) := by
  unfold steal?
  rw [h.edges]
  cases hstealable : stealable? n 0 (trail.map Fork.edge) with
  | none => exact Yields.pure trivial
  | some found =>
    obtain ⟨below, edge, rest⟩ := found
    obtain ⟨deeper, f, above, rfl, hwork, rfl, rfl, rfl⟩ :=
      exists_of_stealable hstealable
    have hf := hvalid.of_append
    have hr : f.edge.isRightmost = false := decide_eq_false (not_le.2 (Fork.alternative_lt hwork))
    obtain ⟨between, above', g, s, htrail, hs, -, hfresh, hsplit, hleads⟩ :=
      (hf.rebuildable hr).exists_copy fun f' hf' => by
        cases hf'
        exact Fork.isUsedUp_of_hasWork hwork
    have hleads := hleads f rfl
    rw [List.map_cons] at hsplit
    dsimp only
    rw [hsplit]
    have hcopy : t.Represents δ s (g.region ∩ Set.univ) := by
      rw [htrail] at hf
      rw [Set.inter_univ]
      exact (hf.of_append.copy hs).of_aim
    have hsound : ∀ d ∈ g :: between, d.Sound t := by
      intro d hd
      refine hf.sound d ?_
      rw [htrail]
      rcases List.mem_cons.1 hd with rfl | hd
      · simp
      · exact List.mem_append_left _ hd
    -- The copy leads to the node of the fork.
    refine Yields.bind (P := (t.Represents δ · f.region)) ?_ fun s₁ hs₁ => ?_
    · cases between with
      | nil =>
        obtain ⟨rfl, -⟩ := List.cons.inj htrail
        rw [Set.inter_univ] at hcopy
        exact Yields.pure hcopy
      | cons f' between =>
        obtain ⟨rfl, -⟩ := List.cons.inj htrail
        rw [List.reverse_cons, ← List.cons_append] at hleads
        obtain ⟨M, hM, hlast⟩ := leads_append.1 hleads
        obtain ⟨rfl, -⟩ := leads_cons.1 hlast
        have hsubset : g :: between.reverse ⊆ g :: f :: between := by
          intro d hd
          rcases List.mem_cons.1 hd with rfl | hd
          · exact List.mem_cons_self
          · exact List.mem_cons_of_mem _ (List.mem_cons_of_mem _ (List.mem_reverse.1 hd))
        have hnode := replay_law hM (fun d hd => hsound d (hsubset hd))
          (fun d hd => hfresh d (hsubset hd)) hcopy
        rw [List.map_cons, List.map_reverse, Set.inter_univ] at hnode
        exact hnode
    refine (Tree.commit_law hs₁ hf.head.offers hf.head.last).bind fun s₂ hs₂ => ?_
    refine (EdgeInfo.yields_ofChoice _ hf.head.last).bind fun info _ => ?_
    -- The fork keeps its place in the count unless its last alternative was given away.
    have hcarries (work : Nat) := h.robbed work hwork
    by_cases hnext : f.robbed.edge.hasWork = true
    · rw [if_pos hnext] at hcarries
      rw [if_pos (show Edge.hasWork { f.edge with last := f.edge.last - 1 } = true from hnext)]
      exact Yields.pure ⟨deeper, f, above, rfl, hwork, hs₂, hcarries _ rfl⟩
    · rw [if_neg hnext] at hcarries
      rw [if_neg (show ¬Edge.hasWork { f.edge with last := f.edge.last - 1 } = true from hnext)]
      have hcount : 1 ≤ p.edgesWithWork := by
        rw [h.work, List.countP_append, List.countP_cons, if_pos hwork]
        omega
      refine (yields_lessen hcount).bind fun work hw => ?_
      exact Yields.pure ⟨deeper, f, above, rfl, hwork, hs₂, hcarries _ hw⟩

end Path

/-! ### Frontiers -/

/-- The assignments of the region `P` are shared out between `Q` and `R`. -/
def SharedOut (P Q R : Set Box) : Prop :=
  ∀ a : Assignment, (a.box ∈ P ↔ a.box ∈ Q ∨ a.box ∈ R) ∧ ¬(a.box ∈ Q ∧ a.box ∈ R)

/-- What lies ahead lies below the trail. -/
def Frontier.Lies (G : Frontier) : Prop := ∀ Q ∈ G.ahead, Nested G.trail Q

theorem Frontier.lies_ofTrail (trail : List Fork) : (Frontier.ofTrail trail).Lies := by
  rintro Q hQ f hf
  obtain ⟨g, hg, rfl⟩ := Option.map_eq_some_iff.1 hQ
  cases Option.some.inj (hg.symm.trans hf)
  exact Set.Subset.refl _

theorem Frontier.sharedOut_robbed {ahead : Option (Set Box)}
    (h : Trail δ t mark (deeper ++ f :: above)) (hwork : f.edge.hasWork = true)
    (hlies : Frontier.Lies ⟨deeper ++ f :: above, ahead⟩) :
    SharedOut (region ⟨deeper ++ f :: above, ahead⟩) (region ⟨deeper ++ f.robbed :: above, ahead⟩)
      f.lastPart := by
  refine fun a => ⟨?_, ?_⟩
  · have hleft := Fork.mem_left_iff_robbed hwork (F := a.box)
    simp only [region, Set.mem_ofPred_eq, List.mem_append, List.mem_cons, or_and_right, exists_or,
      exists_eq_left, hleft]
    grind
  · rintro ⟨hregion, hlast⟩
    obtain ⟨hbelow, hrobbed⟩ := h.of_append.head.not_mem_of_lastPart hwork hlast
    have hmem : a.box ∈ f.region := hlast.1
    rcases hregion with ⟨Q, hQ, haQ⟩ | ⟨g, hg, hleft⟩
    · exact hbelow (h.subset_below (hlies Q hQ) f (by simp) haQ)
    · have hg : g ∈ deeper ∨ g = f.robbed ∨ g ∈ above := by simpa using hg
      rcases hg with hg | rfl | hg
      · -- What is left of a fork below lies in the alternative that is being explored.
        obtain ⟨before, between, rfl⟩ := List.append_of_mem hg
        rw [List.append_assoc, List.cons_append] at h
        exact hbelow (h.region_subset_below f (by simp) (g.left_subset hleft))
      · exact hrobbed hleft
      · exact (h.of_append.tail.sound g hg).not_mem_left (h.region_subset_below g hg hmem) hleft

/-! ### Explorers -/

namespace Explorer

variable {e : Explorer} {F G : Frontier}

theorem Explores.lies (h : e.Explores δ t limit mark F) : F.Lies := by
  cases hcurrent : e.current with
  | some s =>
    obtain ⟨Q, hahead, hpoised⟩ := h.current s hcurrent
    intro R hR
    cases Option.some.inj (hahead.symm.trans hR)
    exact hpoised.nested
  | none =>
    rw [(h.rebuildable hcurrent).1]
    exact Frontier.lies_ofTrail _

/-- Nothing is assumed of the limit of no-goods. -/
theorem Explores.unlimited (h : e.Explores δ t limit mark F) : e.Explores δ t none mark F where
  keeps :=
    ⟨⟨(fun n hn => by cases hn), h.keeps.carries.edges, h.keeps.carries.memory,
      h.keeps.carries.work⟩,
      h.keeps.valid, (fun n hn => by cases hn), h.keeps.depth, fun n hn => by cases hn⟩
  current s hs := by
    obtain ⟨Q, hahead, hpoised⟩ := h.current s hs
    exact ⟨Q, hahead, hpoised.represents, hpoised.nested, hpoised.anchored,
      fun n hn => by cases hn⟩
  rebuildable := h.rebuildable

/-- An explorer without a subtree has nothing to explore. -/
theorem explores_empty (hedges : e.path.edges = []) (hmemory : e.path.memory = 0)
    (hwork : e.path.edgesWithWork = 0) (hcurrent : e.current = none) :
    e.Explores δ t none mark ⟨[], none⟩ where
  keeps :=
    ⟨⟨(fun n hn => by cases hn), hedges, hmemory, hwork⟩, .nil, fun _ _ => .nil, Nat.zero_le _,
      fun n hn => by cases hn⟩
  current s hs := by
    rw [hcurrent] at hs
    cases hs
  rebuildable _ := ⟨rfl, fun f hf => by cases hf⟩

/-- The victim goes on with what it has not given away. -/
theorem Explores.robbed {ahead : Option (Set Box)} {p : Path}
    (h : e.Explores δ t none mark ⟨deeper ++ f :: above, ahead⟩) (hwork : f.edge.hasWork = true)
    (hp : p.Carries none (deeper ++ f.robbed :: above)) :
    Explores δ t none mark { e with path := p } ⟨deeper ++ f.robbed :: above, ahead⟩ where
  keeps := by
    refine ⟨hp, h.keeps.valid.robbed hwork, (fun n hn => by cases hn), ?_, fun n hn => by cases hn⟩
    have hdepth := h.keeps.depth
    rw [List.length_append, List.length_cons] at hdepth ⊢
    exact hdepth
  current s hs := by
    obtain ⟨Q, hahead, hpoised⟩ := h.current s hs
    refine ⟨Q, hahead, hpoised.represents, ?_, hpoised.anchored.imp_right (·.robbed hwork),
      fun n hn => by cases hn⟩
    intro g hg
    obtain ⟨g', hg', heq⟩ := exists_head_of_robbed hwork hg
    rw [← heq]
    exact hpoised.nested g' hg'
  rebuildable hnone := by
    obtain ⟨hahead, hanchored⟩ := h.rebuildable hnone
    constructor
    · unfold Frontier.ofTrail at hahead ⊢
      rw [head_robbed hwork]
      exact congrArg (Frontier.mk _) (Frontier.mk.inj hahead).2
    · intro g hg
      obtain ⟨g', hg', heq⟩ := exists_head_of_robbed hwork hg
      rw [← heq]
      exact (hanchored g' hg').robbed hwork

/-- What is given away is the node of a region; the victim goes on with the rest. -/
def Robs (δ : Prop) (t : Tree) (mark : Nat) (e : Explorer) (F : Frontier) :
    Option (Space × EdgeInfo × Path) → Prop
  | none => True
  | some (s, _, p) => ∃ R G, t.Represents δ s R ∧ Explores δ t none mark { e with path := p } G ∧
      F ≠ ⟨[], none⟩ ∧ SharedOut F.region G.region R

theorem steal_law (h : e.Explores δ t none mark F) (n : Nat) :
    Yields δ (e.path.steal? n) (Robs δ t mark e F) := by
  refine (Path.steal_law h.keeps.carries h.keeps.valid n).mono ?_
  rintro (_ | ⟨s, edge, p⟩) hstolen
  · exact trivial
  · obtain ⟨trail, ahead⟩ := F
    obtain ⟨deeper, f, above, rfl, hwork, hs, hp⟩ := hstolen
    refine ⟨f.lastPart, _, hs, h.robbed hwork hp, fun hnil => ?_,
      Frontier.sharedOut_robbed h.keeps.valid hwork h.lies⟩
    exact List.append_ne_nil_of_right_ne_nil _ (List.cons_ne_nil _ _) (Frontier.mk.inj hnil).1

/-- The thief begins with the node that it was given. -/
theorem adopt_law (e : Explorer) (hs : t.Represents δ s (Q ∩ t.goal)) (edge : EdgeInfo) :
    (e.adopt s edge).Explores δ t none mark ⟨[], some Q⟩ where
  keeps :=
    ⟨Path.carries_empty fun n hn => (by cases hn), .nil, fun _ _ => .nil, Nat.zero_le _,
      fun n hn => by cases hn⟩
  current s' hs' := by
    cases hs'
    exact ⟨Q, rfl, hs, fun f hf => (by cases hf), .inl rfl, fun n hn => by cases hn⟩
  rebuildable hnone := by cases hnone

end Explorer

end ConstraintSearch
