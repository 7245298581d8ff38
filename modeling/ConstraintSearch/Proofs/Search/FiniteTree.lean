import ConstraintSearch.Proofs.Search.Chart
import ConstraintSearch.Proofs.Search.Learning

/-!
# Finite trees

What a search can come to below a root of any kind. Since nodes are rebuilt and constrained, a place
of the tree has several spaces.

* `Space.Hosts`: the spaces at the places of the tree; `Space.Faults`: the faults of their
  operations;
* `Space.HasFiniteTree`: no place is deeper than a bound;
* `Space.Roots.hasFiniteTree`, `Built.hasFiniteTree`: the trees of models are finite.
-/

namespace ConstraintSearch

namespace Space

variable {root s s' s₀ s₁ s₂ best : Space} {improves : Prop} {ρ ρ' : Place} {c : Choice} {i : Nat}

/-- The tree of a root has a space at a place: the root, or what becomes of a space there by its
status, by making a choice, or by committing an alternative of a choice that is made there. A search
that `improves` asks the spaces for something better than a solution, too. -/
inductive Hosts (root : Space) (improves : Prop) : Place → Space → Prop
  | root : Hosts root improves [] root
  | status {ρ : Place} {s s' : Space} {status : SpaceStatus} (h : Hosts root improves ρ s)
      (hstatus : s.status.Returns (status, s')) : Hosts root improves ρ s'
  | choice {ρ : Place} {s s₁ s₂ : Space} {c : Choice} (h : Hosts root improves ρ s)
      (hstatus : s.status.Returns (.branch, s₁)) (hchoice : s₁.choice = .ok (c, s₂)) :
      Hosts root improves ρ s₂
  | constrain {ρ ρ' : Place} {s s₀ best s' : Space} (himproves : improves)
      (h : Hosts root improves ρ s) (h₀ : Hosts root improves ρ' s₀)
      (hsolved : s₀.status.Returns (.solved, best)) (hconstrain : s.constrain best = .ok s') :
      Hosts root improves ρ s'
  | commit {ρ : Place} {s s₀ s₁ s₂ s' : Space} {c : Choice} {i : Nat}
      (h : Hosts root improves ρ s) (h₀ : Hosts root improves ρ s₀)
      (hstatus : s₀.status.Returns (.branch, s₁)) (hchoice : s₁.choice = .ok (c, s₂))
      (hi : i < c.alternatives) (hcommit : s.commit c i = .ok s') :
      Hosts root improves ((c, i) :: ρ) s'

/-- A choice is made at a place. -/
def Splits (root : Space) (improves : Prop) (ρ : Place) (c : Choice) : Prop :=
  ∃ s s₁ s₂, root.Hosts improves ρ s ∧ s.status.Returns (.branch, s₁) ∧ s₁.choice = .ok (c, s₂)

/-- A solution is found somewhere, and something better is asked for. -/
def Finds (root : Space) (improves : Prop) (best : Space) : Prop :=
  improves ∧ ∃ ρ s, root.Hosts improves ρ s ∧ s.status.Returns (.solved, best)

/-- What is known of the tree of a root. -/
def chart (root : Space) (improves : Prop) : Chart :=
  ⟨root.Hosts improves, root.Splits improves, improves, root.Finds improves⟩

/-- An operation of a search, applied to a space of the tree, ends in a fault. -/
inductive Faults (root : Space) (improves : Prop) (fault : Fault) : Prop
  | status {ρ : Place} {s : Space} {journal : Journal} (h : root.Hosts improves ρ s)
      (hfault : (s.status journal).1 = .error fault)
  | choice {ρ : Place} {s s₁ : Space} (h : root.Hosts improves ρ s)
      (hstatus : s.status.Returns (.branch, s₁)) (hfault : s₁.choice = .error fault)
  | commit {ρ : Place} {s : Space} {c : Choice} {i : Nat} (h : root.Hosts improves ρ s)
      (hc : root.Splits improves ρ c) (hi : i < c.alternatives)
      (hfault : s.commit c i = .error fault)
  | constrain {ρ : Place} {s best : Space} (h : root.Hosts improves ρ s)
      (hbest : root.Finds improves best) (hfault : s.constrain best = .error fault)
  | describe {ρ : Place} {c : Choice} {i : Nat} (hc : root.Splits improves ρ c)
      (hi : i < c.alternatives) (hfault : c.describe i = .error fault)

theorem closed_chart (root : Space) (improves : Prop) :
    (root.chart improves).Closed (root.Faults improves) where
  status {ρ s} hs journal := by
    cases hr : (s.status journal).1 with
    | error fault => exact Faults.status hs hr
    | ok r =>
      exact ⟨.status hs ⟨journal, hr⟩, fun himproves hsolved =>
        ⟨himproves, ρ, s, hs, journal, hsolved ▸ hr⟩⟩
  choice {ρ s s'} hs hstatus := by
    cases hr : s'.choice with
    | error fault => exact Faults.choice hs hstatus hr
    | ok r => exact ⟨⟨s, s', r.2, hs, hstatus, hr⟩, .choice hs hstatus hr⟩
  commit {ρ s c i} hs hc hi := by
    obtain ⟨s₀, s₁, s₂, h₀, hstatus, hchoice⟩ := hc
    cases hr : s.commit c i with
    | error fault => exact Faults.commit hs ⟨s₀, s₁, s₂, h₀, hstatus, hchoice⟩ hi hr
    | ok s' => exact .commit hs h₀ hstatus hchoice hi hr
  constrain {ρ s best} hs hbest := by
    cases hr : s.constrain best with
    | error fault => exact Faults.constrain hs hbest hr
    | ok s' =>
      obtain ⟨himproves, ρ', s₀, h₀, hsolved⟩ := hbest
      exact .constrain himproves hs h₀ hsolved hr
  describe {ρ c i} hc hi node := by
    unfold EdgeInfo.ofChoice
    cases hr : c.describe i with
    | error fault => exact Faults.describe hc hi hr
    | ok description => exact trivial

/-- No place in the tree is deeper than a bound. -/
def HasFiniteTree (root : Space) (improves : Prop) : Prop :=
  ∃ depth, ∀ ρ s, root.Hosts improves ρ s → ρ.length ≤ depth

/-! ### The trees of models -/

/-- The boxes at a place. -/
def regionAt (t : Tree) : Place → Set Box
  | [] => t.whole
  | (c, i) :: ρ => regionAt t ρ ∩ c.keeps i

variable {δ : Prop} {posted : List Propagator} {chain : List Brancher} {t : Tree}

/-- A choice at a place splits its region. -/
theorem offers_of_choice (h : t.Represents δ s (regionAt t ρ))
    (hstatus : s.status.Returns (.branch, s₁)) (hchoice : s₁.choice = .ok (c, s₂)) :
    t.Offers (regionAt t ρ) c ∧ t.Represents δ s₂ (regionAt t ρ) := by
  obtain ⟨hrests, hopen⟩ := (Tree.status_law h).of_returns hstatus
  exact (Tree.choice_law hrests hopen).of_ok hchoice

/-- The spaces of a place stand for its region, if nothing is looked for. -/
theorem Hosts.represents (h : root.Hosts improves ρ s) (hgoal : t.goal = ∅)
    (hroot : t.Represents δ root t.whole) (hadmits : t.Admits δ) :
    t.Represents δ s (regionAt t ρ) := by
  have hnone (F : Box) : ¬t.Wanted F := fun hw => by
    have hF := hw.goal
    rw [hgoal] at hF
    exact hF
  induction h with
  | root => exact hroot
  | status _ hstatus ih => exact ((Tree.status_law ih).of_returns hstatus).represents
  | choice _ hstatus hchoice ih => exact (offers_of_choice ih hstatus hchoice).2
  | constrain _ _ _ hsolved hconstrain ih ih₀ =>
    obtain ⟨hrests, -⟩ := (Tree.status_law ih₀).of_returns hsolved
    have hbetter := (Tree.constrain_law ih hadmits hrests.frames.sound
      hrests.frames.narrows.size_ints).of_ok hconstrain
    exact hbetter.mono Set.inter_subset_left fun F _ hw => absurd hw (hnone F)
  | commit _ _ hstatus hchoice hi hcommit ih ih₀ =>
    exact (Tree.commit_law ih (offers_of_choice ih₀ hstatus hchoice).1 hi).of_ok hcommit

/-- Each place has fewer assignments than the one above it. -/
theorem Hosts.length_add_le (h : root.Hosts improves ρ s) (hgoal : t.goal = ∅)
    (hroot : t.Represents δ root t.whole) (hadmits : t.Admits δ) (hsound : t.root.Sound) :
    ρ.length + (t.points (regionAt t ρ)).ncard ≤ (t.points t.whole).ncard := by
  induction h with
  | root => exact (Nat.zero_add _).le
  | status _ _ ih | choice _ _ _ ih | constrain _ _ _ _ _ ih _ => exact ih
  | @commit ρ s s₀ s₁ s₂ s' c i _ h₀ hstatus hchoice hi _ ih _ =>
    have hoffers := (offers_of_choice (h₀.represents hgoal hroot hadmits) hstatus hchoice).1
    have hlt := hoffers.ncard_points_lt hsound hi
    show ρ.length + 1 + (t.points (regionAt t ρ ∩ c.keeps i)).ncard ≤ _
    omega

/-- The tree of a model is finite. -/
theorem Roots.hasFiniteTree (h : s.Roots δ posted chain) (improves : Prop) :
    s.HasFiniteTree improves := by
  let t : Tree := ⟨posted, chain, s.store, s.objective, ∅⟩
  have hsound := h.tracks.ready.sound
  have hroot : t.Represents δ s t.whole :=
    .stands ⟨h.tracks, h.lineup, rfl, Tree.frames_whole hsound⟩
  refine ⟨(t.points t.whole).ncard, fun ρ s' hs' => ?_⟩
  have hle := hs'.length_add_le rfl hroot h.objective hsound
  omega

end Space

theorem Built.hasFiniteTree {policy : Policy} {statements : List Statement} {s : Space}
    (h : Built policy statements s) (hbranched : Branched 0 0 statements)
    {objective : Option Objective} (ho : ∀ o ∈ objective, o.variable.Admissible True s.store)
    (improves : Prop) : Space.HasFiniteTree { s with objective } improves := by
  obtain ⟨posted, -, hroots⟩ :=
    h.exists_roots (δ := True) (fun _ _ _ _ => .inr trivial) hbranched ho
  exact hroots.hasFiniteTree improves

end ConstraintSearch
