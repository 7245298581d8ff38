import Mathlib.Data.List.Forall2
import ConstraintSearch.Proofs.Search.Counters
import ConstraintSearch.Proofs.Search.Node

/-!
# Trails

Each edge of a path belongs to a node that was split, and this node stands for a region. The edges
with their regions make a trail.

* `Fork`: an edge with the region of the node above it, the part below it, and the parts that are
  left;
* `Trail`: the invariant of a trail. Regions lie within each other, copies stand for the regions
  of their nodes, and the node below an edge can be rebuilt (`Rebuildable`) unless no alternative
  is left;
* `Leads`, `replay_law`: to replay edges that continue each other leads to the node below the last
  one;
* `advanced`, `vacated`, `Fork.stored`, `Fork.spent`: what becomes of a trail. A fork with another
  copy is `Fork.Alike` to the one before;
* `Linked`: down to a limit, no node is missing on the trail.
-/

namespace ConstraintSearch

variable {δ : Prop} {t : Tree} {mark mark' : Nat}

/-- A node that was split: the edge below it, and the region of the node. -/
structure Fork where
  edge : Edge
  region : Set Box

namespace Fork

variable {f g : Fork} {F : Box} {a : Assignment} {i : Nat}

/-- The part of the region that an alternative keeps. -/
def part (f : Fork) (i : Nat) : Set Box := f.region ∩ f.edge.choice.keeps i

/-- The alternative that is being explored: the last one if the edge is used up. -/
def chosen (f : Fork) : Nat := min f.edge.alternative f.edge.last

/-- The part that is being explored. -/
def below (f : Fork) : Set Box := f.part f.chosen

/-- The parts that are not yet explored, and were not given away. -/
def left (f : Fork) : Set Box :=
  {F | ∃ i, f.edge.alternative < i ∧ i ≤ f.edge.last ∧ F ∈ f.part i}

/-- The edge, with its next alternative. -/
def next (f : Fork) : Fork :=
  { f with edge := { f.edge with alternative := f.edge.alternative + 1 } }

theorem below_subset (f : Fork) : f.below ⊆ f.region := Set.inter_subset_left

theorem left_subset (f : Fork) : f.left ⊆ f.region := fun _ ⟨_, _, _, hF⟩ => hF.1

theorem not_mem_left_of_isRightmost (hr : f.edge.isRightmost = true) : F ∉ f.left := by
  rintro ⟨i, hlt, hi, -⟩
  have hle : f.edge.last ≤ f.edge.alternative := of_decide_eq_true hr
  omega

theorem isUsedUp_next (hr : f.edge.isRightmost = false) : f.next.edge.isUsedUp = false := by
  have hlt : f.edge.alternative < f.edge.last := not_le.1 (of_decide_eq_false hr)
  exact decide_eq_false (not_lt.2 hlt)

theorem chosen_next (hr : f.edge.isRightmost = false) : f.next.chosen = f.edge.alternative + 1 := by
  have hlt : f.edge.alternative < f.edge.last := not_le.1 (of_decide_eq_false hr)
  exact Nat.min_eq_left hlt

/-- The alternatives that are left are the next one and those behind it. -/
theorem mem_left_iff (hr : f.edge.isRightmost = false) :
    F ∈ f.left ↔ F ∈ f.next.below ∨ F ∈ f.next.left := by
  have hchosen := chosen_next hr
  have hle : f.edge.alternative < f.edge.last := not_le.1 (of_decide_eq_false hr)
  constructor
  · rintro ⟨i, hlt, hi, hmem⟩
    rcases Nat.eq_or_lt_of_le (Nat.succ_le_of_lt hlt) with rfl | hlt
    · left
      show F ∈ f.part f.next.chosen
      rw [hchosen]
      exact hmem
    · exact .inr ⟨i, hlt, hi, hmem⟩
  · rintro (hmem | ⟨i, hlt, hi, hmem⟩)
    · refine ⟨f.next.chosen, ?_, Nat.min_le_right _ _, hmem⟩
      rw [hchosen]
      exact Nat.lt_succ_self _
    · exact ⟨i, Nat.lt_of_succ_lt hlt, hi, hmem⟩

/-- The choice splits the region. -/
structure Sound (t : Tree) (f : Fork) : Prop where
  last : f.edge.last < f.edge.choice.alternatives
  le : f.edge.alternative ≤ f.edge.last + 1
  offers : t.Offers f.region f.edge.choice

namespace Sound

theorem taken_lt (h : f.Sound t) : f.edge.taken < f.edge.choice.alternatives :=
  Edge.taken_lt_alternatives h.last

theorem chosen_lt (h : f.Sound t) : f.chosen < f.edge.choice.alternatives :=
  (Nat.min_le_right _ _).trans_lt h.last

/-- The edge of a node that is rebuilt names the alternative that is explored. -/
theorem taken_eq (h : f.Sound t) (hused : f.edge.isUsedUp = false) : f.edge.taken = f.chosen := by
  have := h.last
  have hle : f.edge.alternative ≤ f.edge.last := not_lt.1 (of_decide_eq_false hused)
  unfold Edge.taken chosen
  omega

/-- What is being explored is not left. -/
theorem not_mem_left (h : f.Sound t) (ha : a.box ∈ f.below) : a.box ∉ f.left := by
  rintro ⟨i, hlt, hi, hmem⟩
  have heq := h.offers.unique h.chosen_lt (hi.trans_lt h.last) ha.2 hmem.2
  unfold chosen at heq
  omega

theorem next (h : f.Sound t) (hr : f.edge.isRightmost = false) : f.next.Sound t := by
  have hlt : f.edge.alternative < f.edge.last := not_le.1 (of_decide_eq_false hr)
  exact ⟨h.last, by show f.edge.alternative + 1 ≤ f.edge.last + 1; omega, h.offers⟩

end Sound

/-- The forks differ in their copies only, or in how far an alternative lies behind the last one. -/
structure Alike (g f : Fork) : Prop where
  region : g.region = f.region
  choice : g.edge.choice = f.edge.choice
  last : g.edge.last = f.edge.last
  chosen : g.chosen = f.chosen
  remaining : g.edge.last - g.edge.alternative = f.edge.last - f.edge.alternative
  le : f.edge.alternative ≤ g.edge.alternative

namespace Alike

theorem refl (f : Fork) : f.Alike f := ⟨rfl, rfl, rfl, rfl, rfl, Nat.le_refl _⟩

theorem trans {h : Fork} (hgf : g.Alike f) (hfh : f.Alike h) : g.Alike h :=
  ⟨hgf.region.trans hfh.region, hgf.choice.trans hfh.choice, hgf.last.trans hfh.last,
    hgf.chosen.trans hfh.chosen, hgf.remaining.trans hfh.remaining, hfh.le.trans hgf.le⟩

theorem part (h : g.Alike f) : g.part = f.part := by
  funext i
  simp only [Fork.part, h.region, h.choice]

theorem below (h : g.Alike f) : g.below = f.below := by
  simp only [Fork.below, h.part, h.chosen]

theorem left (h : g.Alike f) : g.left = f.left := by
  have hremaining := h.remaining
  have hlast := h.last
  refine Set.ext fun F => exists_congr fun i => ?_
  rw [h.part, hlast]
  constructor
  · rintro ⟨hlt, hi, hF⟩
    exact ⟨by omega, hi, hF⟩
  · rintro ⟨hlt, hi, hF⟩
    exact ⟨by omega, hi, hF⟩

end Alike

end Fork

/-! ### Trails -/

/-- What lies beyond the mark of a branch and bound has only boxes that are looked for. -/
def Tree.aim (t : Tree) (mark depth : Nat) : Set Box := if mark ≤ depth then t.goal else Set.univ

theorem Tree.Represents.of_aim {s : Space} {Q : Set Box} {depth : Nat}
    (h : t.Represents δ s (Q ∩ t.aim mark depth)) : t.Represents δ s Q := by
  unfold aim at h
  split at h
  · exact h.of_goal
  · rwa [Set.inter_univ] at h

/-- The node below the first fork can be rebuilt: there is a copy, and from the copy on, each node
that was split is the one below the edge before it. -/
inductive Rebuildable : List Fork → Prop
  | copy {f : Fork} {trail : List Fork} (h : f.edge.space.isSome = true) : Rebuildable (f :: trail)
  | step {f g : Fork} {trail : List Fork} (h : f.region = g.below) (hg : g.edge.isUsedUp = false)
      (ht : Rebuildable (g :: trail)) : Rebuildable (f :: g :: trail)

/-- The region lies below the first fork. -/
def Nested (trail : List Fork) (Q : Set Box) : Prop := ∀ g ∈ trail.head?, Q ⊆ g.below

/-- The forks of a path, the deepest one first. Each of them lies below the next one, and can be
rebuilt as long as alternatives are left. -/
inductive Trail (δ : Prop) (t : Tree) (mark : Nat) : List Fork → Prop
  | nil : Trail δ t mark []
  | cons {f : Fork} {trail : List Fork} (hf : f.Sound t)
      (hcopy : ∀ s, f.edge.space = some s →
        t.Represents δ s (f.region ∩ t.aim mark trail.length))
      (hnested : Nested trail f.region)
      (hrebuild : f.edge.isRightmost = true ∨ Rebuildable (f :: trail))
      (h : Trail δ t mark trail) : Trail δ t mark (f :: trail)

/-- The trail of the next node: forks without alternatives are left, and the next alternative is
taken. -/
def advanced : List Fork → List Fork
  | [] => []
  | f :: trail => if f.edge.isRightmost then advanced trail else f.next :: trail

variable {f g : Fork} {trail trail' above deeper : List Fork} {Q R : Set Box} {a : Assignment}
  {s : Space}

theorem Rebuildable.next (h : Rebuildable (f :: trail)) : Rebuildable (f.next :: trail) := by
  cases h with
  | copy hcopy => exact .copy hcopy
  | step hregion hg ht => exact .step hregion hg ht

namespace Trail

theorem head (h : Trail δ t mark (f :: trail)) : f.Sound t := by
  cases h
  assumption

theorem copy (h : Trail δ t mark (f :: trail)) (hs : f.edge.space = some s) :
    t.Represents δ s (f.region ∩ t.aim mark trail.length) := by
  cases h with
  | cons _ hcopy _ _ _ => exact hcopy s hs

theorem tail (h : Trail δ t mark (f :: trail)) : Trail δ t mark trail := by
  cases h
  assumption

theorem nested (h : Trail δ t mark (f :: trail)) : Nested trail f.region := by
  cases h
  assumption

theorem rebuildable (h : Trail δ t mark (f :: trail)) (hr : f.edge.isRightmost = false) :
    Rebuildable (f :: trail) := by
  cases h with
  | cons _ _ _ hrebuild _ =>
    refine hrebuild.resolve_left ?_
    rw [hr]
    decide

theorem sound (h : Trail δ t mark trail) : ∀ f ∈ trail, f.Sound t := by
  induction h with
  | nil => exact fun f hf => absurd hf List.not_mem_nil
  | cons hf _ _ _ _ ih => exact List.forall_mem_cons.2 ⟨hf, ih⟩

theorem of_append (h : Trail δ t mark (above ++ trail)) : Trail δ t mark trail := by
  induction above with
  | nil => exact h
  | cons f above ih => exact ih h.tail

/-- What lies below the first fork lies below all of them. -/
theorem subset_below (h : Trail δ t mark trail) (hQ : Nested trail Q) :
    ∀ f ∈ trail, Q ⊆ f.below := by
  induction h generalizing Q with
  | nil => exact fun f hf => absurd hf List.not_mem_nil
  | @cons f trail _ _ hnested _ _ ih =>
    have hbelow : Q ⊆ f.below := hQ f rfl
    refine List.forall_mem_cons.2 ⟨hbelow, ih ?_⟩
    exact fun g hg => (hbelow.trans f.below_subset).trans (hnested g hg)

/-- A fork lies below all forks above it. -/
theorem region_subset_below (h : Trail δ t mark (deeper ++ f :: trail)) :
    ∀ g ∈ trail, f.region ⊆ g.below :=
  (h.of_append).tail.subset_below h.of_append.nested

/-- A region within a trail holds the regions of the forks below it. -/
theorem region_subset (h : Trail δ t mark (deeper ++ f :: trail)) :
    ∀ g ∈ deeper ++ [f], g.region ⊆ f.region := by
  intro g hg
  rcases List.mem_append.1 hg with hg | hg
  · obtain ⟨deeper, between, rfl⟩ := List.append_of_mem hg
    rw [List.append_assoc, List.cons_append] at h
    exact (h.region_subset_below f (by simp)).trans f.below_subset
  · rw [List.mem_singleton.1 hg]

theorem advanced (h : Trail δ t mark trail) : Trail δ t mark (advanced trail) := by
  induction h with
  | nil => exact .nil
  | @cons f trail hf hcopy hnested hrebuild h ih =>
    unfold ConstraintSearch.advanced
    by_cases hr : f.edge.isRightmost = true
    · rw [if_pos hr]
      exact ih
    · rw [if_neg hr]
      have hr : f.edge.isRightmost = false := by simpa using hr
      have hrebuildable := (Trail.cons hf hcopy hnested hrebuild h).rebuildable hr
      exact .cons (hf.next hr) hcopy hnested (.inr hrebuildable.next) h

/-- If less is looked for, then the copies may have more than that. -/
theorem retarget (h : Trail δ t mark trail) {G : Set Box} (hG : G ⊆ t.goal)
    (hmark : trail.length ≤ mark') : Trail δ { t with goal := G } mark' trail := by
  induction h with
  | nil => exact .nil
  | @cons f trail hf hcopy hnested hrebuild _ ih =>
    have hlength := Nat.lt_of_succ_le hmark
    refine .cons ⟨hf.last, hf.le, hf.offers.retarget hG⟩ (fun s hs => ?_) hnested hrebuild
      (ih hlength.le)
    unfold Tree.aim
    rw [if_neg (not_le.2 hlength), Set.inter_univ]
    exact (hcopy s hs).of_aim.retarget hG

/-- Nothing is known of the copies above a greater mark. -/
theorem weaken (h : Trail δ t mark trail) (hmark : trail.length ≤ mark') :
    Trail δ t mark' trail :=
  h.retarget (Set.Subset.refl _) hmark

end Trail

/-! ### Replaying -/

/-- The forks, listed from the root downwards, lead from one region to another. -/
inductive Leads : Set Box → List Fork → Set Box → Prop
  | nil (Q : Set Box) : Leads Q [] Q
  | cons {f : Fork} {forks : List Fork} {Q : Set Box} (h : Leads f.below forks Q) :
      Leads f.region (f :: forks) Q

theorem leads_nil : Leads Q [] R ↔ Q = R := by
  constructor
  · intro h
    cases h
    rfl
  · rintro rfl
    exact .nil Q

theorem leads_cons {forks : List Fork} :
    Leads Q (f :: forks) R ↔ Q = f.region ∧ Leads f.below forks R := by
  constructor
  · intro h
    cases h with
    | cons h => exact ⟨rfl, h⟩
  · rintro ⟨rfl, h⟩
    exact .cons h

theorem leads_append {forks forks' : List Fork} :
    Leads Q (forks ++ forks') R ↔ ∃ M, Leads Q forks M ∧ Leads M forks' R := by
  constructor
  · intro h
    induction forks generalizing Q with
    | nil => exact ⟨Q, .nil Q, h⟩
    | cons f forks ih =>
      cases h with
      | cons h =>
        obtain ⟨M, hM, hR⟩ := ih h
        exact ⟨M, .cons hM, hR⟩
  · rintro ⟨M, hM, hR⟩
    induction hM with
    | nil => exact hR
    | cons _ ih => exact .cons (ih hR)

/-- The edges that were taken lead to the node below the last one. What only a part of the regions
is looked for stays so. -/
theorem replay_law {forks : List Fork} (h : Leads Q forks R) (hsound : ∀ f ∈ forks, f.Sound t)
    (hfresh : ∀ f ∈ forks, f.edge.isUsedUp = false) {G : Set Box}
    (hs : t.Represents δ s (Q ∩ G)) :
    Yields δ (replay s (forks.map Fork.edge)) (t.Represents δ · (R ∩ G)) := by
  induction h generalizing s with
  | nil => exact Yields.pure hs
  | @cons f forks _ _ ih =>
    obtain ⟨hf, hsound⟩ := List.forall_mem_cons.1 hsound
    obtain ⟨hused, hfresh⟩ := List.forall_mem_cons.1 hfresh
    rw [List.map_cons]
    unfold replay
    refine (Tree.commit_law hs hf.offers hf.taken_lt).bind fun s hs => ih hsound hfresh ?_
    rwa [Set.inter_right_comm, hf.taken_eq hused] at hs

/-- The closest copy leads to the node below the first fork. -/
theorem Rebuildable.exists_copy (h : Rebuildable trail)
    (hfresh : ∀ f ∈ trail.head?, f.edge.isUsedUp = false) :
    ∃ (below above : List Fork) (g : Fork) (s : Space), trail = below ++ g :: above ∧
      g.edge.space = some s ∧ (∀ f ∈ below, f.edge.space = none) ∧
      (∀ f ∈ g :: below, f.edge.isUsedUp = false) ∧
      Path.splitAtCopy? (trail.map Fork.edge) =
        some (below.map Fork.edge, g.edge, s, above.map Fork.edge) ∧
      ∀ f ∈ trail.head?, Leads g.region (g :: below.reverse) f.below := by
  -- A copy on the first fork is the closest one.
  have hfirst {f : Fork} {s : Space} (trail : List Fork) (hs : f.edge.space = some s)
      (hused : f.edge.isUsedUp = false) :
      ∃ (below above : List Fork) (g : Fork) (s : Space), f :: trail = below ++ g :: above ∧
        g.edge.space = some s ∧ (∀ f ∈ below, f.edge.space = none) ∧
        (∀ f ∈ g :: below, f.edge.isUsedUp = false) ∧
        Path.splitAtCopy? ((f :: trail).map Fork.edge) =
          some (below.map Fork.edge, g.edge, s, above.map Fork.edge) ∧
        ∀ f' ∈ (f :: trail).head?, Leads g.region (g :: below.reverse) f'.below := by
    refine ⟨[], trail, f, s, rfl, hs, by simp, by simpa using hused, ?_, ?_⟩
    · simp only [List.map_cons, Path.splitAtCopy?, hs, List.map_nil]
    · rintro f' hf'
      cases hf'
      exact .cons (.nil _)
  induction h with
  | @copy f trail hcopy =>
    obtain ⟨s, hs⟩ := Option.isSome_iff_exists.1 hcopy
    exact hfirst trail hs (hfresh f rfl)
  | @step f g trail hregion hg _ ih =>
    have hused := hfresh f rfl
    cases hs : f.edge.space with
    | some s => exact hfirst (g :: trail) hs hused
    | none =>
      obtain ⟨below, above, g', s, htrail, hs', hnone, hall, hsplit, hleads⟩ := ih fun g' hg' => by
        cases hg'
        exact hg
      refine ⟨f :: below, above, g', s, by rw [htrail]; rfl, hs',
        List.forall_mem_cons.2 ⟨hs, hnone⟩, ?_, ?_, ?_⟩
      · obtain ⟨hg', hbelow⟩ := List.forall_mem_cons.1 hall
        exact List.forall_mem_cons.2 ⟨hg', List.forall_mem_cons.2 ⟨hused, hbelow⟩⟩
      · rw [List.map_cons, Path.splitAtCopy?, hs, hsplit]
        rfl
      · rintro f' hf'
        cases hf'
        rw [List.reverse_cons, ← List.cons_append]
        refine leads_append.2 ⟨g.below, hleads g rfl, ?_⟩
        rw [← hregion]
        exact .cons (.nil _)

/-! ### The node below a trail -/

/-- The node of the region `Q` lies below the first fork, and can be rebuilt. -/
structure Anchored (trail : List Fork) (Q : Set Box) : Prop where
  below : trail.head?.map Fork.below = some Q
  fresh : ∀ f ∈ trail.head?, f.edge.isUsedUp = false
  rebuildable : Rebuildable trail

theorem Anchored.nested (h : Anchored trail Q) : Nested trail Q := by
  intro f hf
  have hbelow := h.below
  rw [Option.mem_def.1 hf] at hbelow
  exact (Option.some.inj hbelow).ge

/-- After advancing, the next node can be rebuilt. -/
theorem Trail.anchored_advanced (h : Trail δ t mark trail) :
    ∀ f ∈ (ConstraintSearch.advanced trail).head?,
      Anchored (ConstraintSearch.advanced trail) f.below := by
  induction h with
  | nil => exact fun f hf => by cases hf
  | @cons f trail hf hcopy hnested hrebuild h ih =>
    unfold ConstraintSearch.advanced
    by_cases hr : f.edge.isRightmost = true
    · rw [if_pos hr]
      exact ih
    · rw [if_neg hr]
      have hr : f.edge.isRightmost = false := by simpa using hr
      have hrebuildable := (Trail.cons hf hcopy hnested hrebuild h).rebuildable hr
      rintro f' hf'
      cases hf'
      refine ⟨rfl, ?_, hrebuildable.next⟩
      rintro f' hf'
      cases hf'
      exact Fork.isUsedUp_next hr

theorem length_advanced_le (trail : List Fork) : (advanced trail).length ≤ trail.length := by
  induction trail with
  | nil => exact Nat.le_refl _
  | cons f trail ih =>
    unfold advanced
    split
    · exact Nat.le_succ_of_le ih
    · exact Nat.le_refl _

/-- To advance leaves a part of the trail, of which the first fork has a new alternative. -/
theorem advanced_cases (trail : List Fork) : advanced trail = [] ∨
    ∃ deeper f above, trail = deeper ++ f :: above ∧ f.edge.isRightmost = false ∧
      advanced trail = f.next :: above := by
  induction trail with
  | nil => exact .inl rfl
  | cons f trail ih =>
    unfold advanced
    by_cases hr : f.edge.isRightmost = true
    · rw [if_pos hr]
      rcases ih with ih | ⟨deeper, g, above, rfl, hg, hadvanced⟩
      · exact .inl ih
      · exact .inr ⟨f :: deeper, g, above, rfl, hg, hadvanced⟩
    · rw [if_neg hr]
      exact .inr ⟨[], f, trail, rfl, by simpa using hr, rfl⟩

/-! ### Changes of a trail -/

/-- The trails have the same forks up to their copies. -/
def AlikeTrails (trail' trail : List Fork) : Prop := List.Forall₂ Fork.Alike trail' trail

namespace AlikeTrails

theorem refl (trail : List Fork) : AlikeTrails trail trail :=
  List.forall₂_same.2 fun f _ => .refl f

theorem trans {trail'' : List Fork} (h : AlikeTrails trail'' trail')
    (h' : AlikeTrails trail' trail) : AlikeTrails trail'' trail := by
  unfold AlikeTrails at *
  induction h generalizing trail with
  | nil => exact h'
  | cons hgf _ ih =>
    cases h' with
    | cons hfh h' => exact .cons (hgf.trans hfh) (ih h')

theorem exists_mem (h : AlikeTrails trail' trail) (hf : f ∈ trail') : ∃ g ∈ trail, f.Alike g := by
  unfold AlikeTrails at h
  induction h with
  | nil => cases hf
  | @cons g' g _ _ hgg' _ ih =>
    rcases List.mem_cons.1 hf with rfl | hf
    · exact ⟨g, List.mem_cons_self, hgg'⟩
    · obtain ⟨g', hg', hfg'⟩ := ih hf
      exact ⟨g', List.mem_cons_of_mem _ hg', hfg'⟩

theorem exists_mem' (h : AlikeTrails trail' trail) (hf : f ∈ trail) :
    ∃ g ∈ trail', g.Alike f := by
  unfold AlikeTrails at h
  induction h with
  | nil => cases hf
  | @cons g g' _ _ hgg' _ ih =>
    rcases List.mem_cons.1 hf with rfl | hf
    · exact ⟨g, List.mem_cons_self, hgg'⟩
    · obtain ⟨g, hg, hgf⟩ := ih hf
      exact ⟨g, List.mem_cons_of_mem _ hg, hgf⟩

theorem append (deeper : List Fork) (h : g.Alike f) :
    AlikeTrails (deeper ++ g :: trail) (deeper ++ f :: trail) :=
  List.rel_append (refl deeper) (.cons h (refl trail))

theorem map_below (h : AlikeTrails trail' trail) :
    trail'.head?.map Fork.below = trail.head?.map Fork.below := by
  cases h with
  | nil => rfl
  | cons hgf _ => exact congrArg some hgf.below

theorem nested (h : AlikeTrails trail' trail) (hQ : Nested trail Q) : Nested trail' Q := by
  cases h with
  | nil => exact hQ
  | cons hgf _ =>
    rintro g hg
    cases hg
    rw [hgf.below]
    exact hQ _ rfl

end AlikeTrails

namespace Fork

/-- The fork with a copy of its node. -/
def stored (f : Fork) (s : Space) (memory : Nat) : Fork :=
  { f with edge := { f.edge with space := some s, memory } }

/-- The fork whose last alternative is explored with its own copy. -/
def spent (f : Fork) (alternative : Nat) : Fork :=
  { f with edge := { f.edge with space := none, memory := 0, alternative } }

theorem alike_stored (f : Fork) (s : Space) (memory : Nat) : (f.stored s memory).Alike f :=
  ⟨rfl, rfl, rfl, rfl, rfl, Nat.le_refl _⟩

theorem alike_spent (hr : f.edge.isRightmost = true) {alternative : Nat}
    (hle : f.edge.alternative ≤ alternative) : (f.spent alternative).Alike f := by
  have hlast : f.edge.last ≤ f.edge.alternative := of_decide_eq_true hr
  refine ⟨rfl, rfl, rfl, ?_, ?_, hle⟩
  · show min alternative f.edge.last = min f.edge.alternative f.edge.last
    omega
  · show f.edge.last - alternative = f.edge.last - f.edge.alternative
    omega

theorem Sound.spent (h : f.Sound t) {alternative : Nat} (hle : alternative ≤ f.edge.last + 1) :
    (f.spent alternative).Sound t :=
  ⟨h.last, hle, h.offers⟩

end Fork

variable {memory : Nat}

/-- The forks belong to the same node, and the same part of it is being explored. -/
structure Fork.Matches (g f : Fork) : Prop where
  region : g.region = f.region
  below : g.below = f.below
  isUsedUp : g.edge.isUsedUp = f.edge.isUsedUp

/-! A fork within a trail may be exchanged for one that matches it. -/

section Exchange

variable (hmatches : g.Matches f)
  (hrebuild : Rebuildable (f :: trail) → Rebuildable (g :: trail))

include hmatches hrebuild

theorem Rebuildable.exchange (h : Rebuildable (deeper ++ f :: trail)) :
    Rebuildable (deeper ++ g :: trail) := by
  induction deeper with
  | nil => exact hrebuild h
  | cons d deeper ih =>
    cases deeper with
    | nil =>
      cases h with
      | copy hcopy => exact .copy hcopy
      | step hregion hf h =>
        exact .step (hregion.trans hmatches.below.symm) (hmatches.isUsedUp.trans hf) (hrebuild h)
    | cons d' deeper =>
      cases h with
      | copy hcopy => exact .copy hcopy
      | step hregion hd' h => exact .step hregion hd' (ih h)

/-- The mark may be put to its depth if there are no copies below it. -/
theorem Trail.exchange (h : Trail δ t mark (deeper ++ f :: trail))
    (hg : Trail δ t mark' (g :: trail))
    (hmark : mark' = mark ∨ ∀ d ∈ deeper, d.edge.space = none) :
    Trail δ t mark' (deeper ++ g :: trail) := by
  induction deeper with
  | nil => exact hg
  | cons d deeper ih =>
    have hnested := h.nested
    have hmark' : mark' = mark ∨ ∀ d ∈ deeper, d.edge.space = none :=
      hmark.imp_right fun hnone d hd => hnone d (List.mem_cons_of_mem _ hd)
    refine .cons h.head (fun s' hs' => ?_) ?_ ?_ (ih h.tail hmark')
    · rcases hmark with rfl | hnone
      · have hlength : (deeper ++ g :: trail).length = (deeper ++ f :: trail).length := by simp
        change t.Represents δ s' (d.region ∩ t.aim mark' (deeper ++ _ :: trail).length)
        rw [hlength]
        exact h.copy hs'
      · rw [hnone d List.mem_cons_self] at hs'
        cases hs'
    · cases deeper with
      | nil =>
        rintro g' hg'
        cases hg'
        rw [hmatches.below]
        exact hnested f rfl
      | cons d' deeper => exact hnested
    · by_cases hr : d.edge.isRightmost = true
      · exact .inl hr
      · have hrebuildable : Rebuildable ((d :: deeper) ++ f :: trail) :=
          h.rebuildable (by simpa using hr)
        exact .inr (hrebuildable.exchange hmatches hrebuild)

theorem Anchored.exchange (h : Anchored (deeper ++ f :: trail) Q) :
    Anchored (deeper ++ g :: trail) Q := by
  have hbelow := h.below
  have hfresh := h.fresh
  cases deeper with
  | nil =>
    refine ⟨?_, ?_, h.rebuildable.exchange hmatches hrebuild⟩
    · rw [← hbelow]
      exact congrArg some hmatches.below
    · rintro g' hg'
      cases hg'
      exact hmatches.isUsedUp.trans (hfresh f rfl)
  | cons d deeper => exact ⟨hbelow, hfresh, h.rebuildable.exchange hmatches hrebuild⟩

end Exchange

theorem Fork.matches_stored (f : Fork) (s : Space) (memory : Nat) :
    (f.stored s memory).Matches f :=
  ⟨rfl, rfl, rfl⟩

/-- Another copy does no harm. -/
theorem Trail.stored (h : Trail δ t mark (deeper ++ f :: trail)) (htrail : Trail δ t mark' trail)
    (hs : t.Represents δ s (f.region ∩ t.aim mark' trail.length))
    (hmark : mark' = mark ∨ ∀ d ∈ deeper, d.edge.space = none) :
    Trail δ t mark' (deeper ++ f.stored s memory :: trail) := by
  have hf := h.of_append
  refine h.exchange (f.matches_stored s memory) (fun _ => .copy rfl) ?_ hmark
  refine .cons ⟨hf.head.last, hf.head.le, hf.head.offers⟩ (fun s' hs' => ?_) hf.nested
    (.inr (.copy rfl)) htrail
  cases hs'
  exact hs

theorem Anchored.stored (s : Space) (memory : Nat) (h : Anchored (deeper ++ f :: trail) Q) :
    Anchored (deeper ++ f.stored s memory :: trail) Q :=
  h.exchange (f.matches_stored s memory) fun _ => .copy rfl

/-- The trail below which a node is split: an edge that is used up makes room. -/
def vacated : List Fork → List Fork
  | [] => []
  | f :: trail => if f.edge.isUsedUp then trail else f :: trail

theorem vacated_of_isUsedUp (h : f.edge.isUsedUp = true) : vacated (f :: trail) = trail := if_pos h

theorem vacated_of_not_isUsedUp (h : ¬f.edge.isUsedUp = true) : vacated (f :: trail) = f :: trail :=
  if_neg h

theorem Trail.vacated (h : Trail δ t mark trail) : Trail δ t mark (vacated trail) := by
  cases trail with
  | nil => exact h
  | cons f trail =>
    by_cases hu : f.edge.isUsedUp = true
    · rw [vacated_of_isUsedUp hu]
      exact h.tail
    · rw [vacated_of_not_isUsedUp hu]
      exact h

theorem Trail.nested_vacated (h : Trail δ t mark trail) (hQ : Nested trail Q) :
    Nested (ConstraintSearch.vacated trail) Q := by
  cases trail with
  | nil => exact hQ
  | cons f trail =>
    by_cases hu : f.edge.isUsedUp = true
    · rw [vacated_of_isUsedUp hu]
      exact fun g hg => ((hQ f rfl).trans f.below_subset).trans (h.nested g hg)
    · rw [vacated_of_not_isUsedUp hu]
      exact hQ

theorem Anchored.vacated (h : Anchored trail Q) : vacated trail = trail := by
  cases trail with
  | nil => rfl
  | cons f trail =>
    refine vacated_of_not_isUsedUp ?_
    rw [h.fresh f rfl]
    decide

/-- The node that a new fork splits can be rebuilt, so the one below the fork can be as well. -/
theorem Anchored.rebuildable_cons (h : Anchored trail Q) (hregion : f.region = Q) :
    Rebuildable (f :: ConstraintSearch.vacated trail) := by
  have hbelow := h.below
  rw [h.vacated]
  cases trail with
  | nil => cases hbelow
  | cons g trail =>
    exact .step (hregion.trans (Option.some.inj hbelow).symm) (h.fresh g rfl) h.rebuildable

theorem mem_vacated_or (h : f ∈ trail) : f ∈ vacated trail ∨ f.edge.isUsedUp = true := by
  cases trail with
  | nil => cases h
  | cons g trail =>
    by_cases hu : g.edge.isUsedUp = true
    · rw [vacated_of_isUsedUp hu]
      rcases List.mem_cons.1 h with rfl | h
      · exact .inr hu
      · exact .inl h
    · rw [vacated_of_not_isUsedUp hu]
      exact .inl h

theorem mem_of_mem_vacated (h : f ∈ vacated trail) : f ∈ trail := by
  cases trail with
  | nil => exact h
  | cons g trail =>
    by_cases hu : g.edge.isUsedUp = true
    · rw [vacated_of_isUsedUp hu] at h
      exact List.mem_cons_of_mem _ h
    · rwa [vacated_of_not_isUsedUp hu] at h

/-! ### Trails without gaps -/

theorem Leads.of_alike {forks forks' : List Fork} (h : Leads Q forks R)
    (halike : AlikeTrails forks' forks) : Leads Q forks' R := by
  unfold AlikeTrails at halike
  induction halike generalizing Q with
  | nil => exact h
  | @cons g f _ _ hgf _ ih =>
    obtain ⟨hQ, hbelow⟩ := leads_cons.1 h
    exact leads_cons.2 ⟨hQ.trans hgf.region.symm, hgf.below ▸ ih hbelow⟩

theorem AlikeTrails.reverse (h : AlikeTrails trail' trail) :
    AlikeTrails trail'.reverse trail.reverse :=
  List.forall₂_reverse_iff.2 h

/-- The fork is not used up, no alternative of it was given away, and the forks above it lead from
the region `R` to its node. -/
structure Fork.Recorded (R : Set Box) (above : List Fork) (f : Fork) : Prop where
  fresh : f.edge.isUsedUp = false
  full : f.edge.last + 1 = f.edge.choice.alternatives
  leads : Leads R above.reverse f.region

/-- Down to a limit, each node that was split is the one below the edge before it, no edge is used
up, and no alternative was given away: the trail says how the nodes were reached from the region
`R`. -/
inductive Linked (R : Set Box) (limit : Nat) : List Fork → Prop
  | nil : Linked R limit []
  | cons {f : Fork} {trail : List Fork} (hf : trail.length < limit → f.Recorded R trail)
      (h : Linked R limit trail) : Linked R limit (f :: trail)

namespace Linked

variable {limit : Nat}

theorem head (h : Linked R limit (f :: trail)) (hlength : trail.length < limit) :
    f.Recorded R trail := by
  cases h with
  | cons hf _ => exact hf hlength

theorem tail (h : Linked R limit (f :: trail)) : Linked R limit trail := by
  cases h
  assumption

theorem of_append (h : Linked R limit (deeper ++ trail)) : Linked R limit trail := by
  induction deeper with
  | nil => exact h
  | cons f deeper ih => exact ih h.tail

/-- Within the limit, no edge is used up. -/
theorem fresh (h : Linked R limit trail) (hlength : trail.length ≤ limit) :
    ∀ f ∈ trail, f.edge.isUsedUp = false := by
  induction h with
  | nil => exact fun f hf => absurd hf List.not_mem_nil
  | cons hf _ ih =>
    exact List.forall_mem_cons.2 ⟨(hf hlength).fresh, ih (Nat.le_of_succ_le hlength)⟩

/-- Within the limit, the trail leads to the node below its first fork. -/
theorem leads (h : Linked R limit trail) (hQ : trail.head?.map Fork.below = some Q)
    (hlength : trail.length ≤ limit) : Leads R trail.reverse Q := by
  cases trail with
  | nil => cases hQ
  | cons f trail =>
    cases hQ
    rw [List.reverse_cons]
    exact leads_append.2 ⟨f.region, (h.head hlength).leads, .cons (.nil _)⟩

theorem of_head {g : Fork} (h : Linked R limit (f :: trail)) (hregion : g.region = f.region)
    (hchoice : g.edge.choice = f.edge.choice) (hlast : g.edge.last = f.edge.last)
    (hused : trail.length < limit → g.edge.isUsedUp = false) : Linked R limit (g :: trail) := by
  refine .cons (fun hlength => ?_) h.tail
  have hf := h.head hlength
  exact ⟨hused hlength, by rw [hchoice, hlast, hf.full], hregion ▸ hf.leads⟩

theorem advanced (h : Linked R limit trail) : Linked R limit (advanced trail) := by
  induction h with
  | nil => exact .nil
  | @cons f trail hf h ih =>
    unfold ConstraintSearch.advanced
    by_cases hr : f.edge.isRightmost = true
    · rw [if_pos hr]
      exact ih
    · rw [if_neg hr]
      exact (Linked.cons hf h).of_head rfl rfl rfl fun _ =>
        Fork.isUsedUp_next (by simpa using hr)

theorem stored (h : Linked R limit (deeper ++ f :: trail)) (s : Space) (memory : Nat) :
    Linked R limit (deeper ++ f.stored s memory :: trail) := by
  induction deeper with
  | nil => exact h.of_head rfl rfl rfl fun hlength => (h.head hlength).fresh
  | cons d deeper ih =>
    have halike : AlikeTrails (deeper ++ f.stored s memory :: trail) (deeper ++ f :: trail) :=
      AlikeTrails.append deeper (f.alike_stored s memory)
    refine .cons (fun hlength => ?_) (ih h.tail)
    have hd := h.head (halike.length_eq ▸ hlength)
    exact ⟨hd.fresh, hd.full, hd.leads.of_alike halike.reverse⟩

/-- A node is split. The edge that makes room for it is beyond the limit. -/
theorem push (h : Linked R limit trail) (hfresh : f.edge.isUsedUp = false)
    (hfull : f.edge.last + 1 = f.edge.choice.alternatives)
    (hf : trail.length ≤ limit → Leads R trail.reverse f.region) :
    Linked R limit (f :: vacated trail) := by
  cases trail with
  | nil => exact .cons (fun _ => ⟨hfresh, hfull, hf (Nat.zero_le _)⟩) .nil
  | cons g trail =>
    by_cases hu : g.edge.isUsedUp = true
    · rw [vacated_of_isUsedUp hu]
      refine .cons (fun hlength => ?_) h.tail
      rw [(h.head hlength).fresh] at hu
      cases hu
    · rw [vacated_of_not_isUsedUp hu]
      exact .cons (fun hlength => ⟨hfresh, hfull, hf hlength.le⟩) h

end Linked

end ConstraintSearch
