import ConstraintSearch.Proofs.Search.Explorer
import ConstraintSearch.Proofs.Search.SpaceTree
import Mathlib.Algebra.Order.Group.Multiset

/-!
# Where a path leads

A path that is explored and rebuilt, for spaces of any kind. Each edge has its place in the tree,
and the copies on the path are spaces that stand at the places of their edges.

* `Place`, `Chart`: the places in a tree, and what is known of them; `Chart.Closed` if the
  operations of a search do not leave it;
* `Chained`, `Restorable`: edges that follow each other, and edges below which the node can be
  rebuilt;
* `Stocked`: every edge with alternatives is restorable. Only the deepest edge can be used up;
* `Path.levels`: the depths of the nodes that a path has still to explore;
* `Explorer.rebuild_meets`, `Explorer.nextNode_meets`, `Explorer.explore_meets`: the operations of
  an explorer add no faults of their own, and a node that is explored is replaced by its children.
-/

namespace ConstraintSearch

variable {P : Fault → Prop}

/-! ### Places in a tree -/

/-- The way from the root of a tree to a node: the choices with the alternatives that are taken, the
last one first. -/
abbrev Place := List (Choice × Nat)

/-- What is known of the nodes of a tree. More than one space may stand at a place, since nodes are
rebuilt, and are asked to lead to something better. -/
structure Chart where
  stands : Place → Space → Prop
  /-- The choices that are made there. -/
  splits : Place → Choice → Prop
  /-- Whether spaces are asked to lead to something better than a solution. -/
  improves : Prop
  /-- The solutions that are found somewhere. -/
  found : Space → Prop

/-- The operations of a search lead to spaces that stand where they ought to, and end in faults with
the property `P` only. -/
structure Chart.Closed (M : Chart) (P : Fault → Prop) : Prop where
  status {ρ : Place} {s : Space} (hs : M.stands ρ s) :
    Journaled.Meets P s.status fun r =>
      M.stands ρ r.2 ∧ (M.improves → r.1 = .solved → M.found r.2)
  choice {ρ : Place} {s s' : Space} (hs : M.stands ρ s) (hstatus : s.status.Returns (.branch, s')) :
    Meets P s'.choice fun r => M.splits ρ r.1 ∧ M.stands ρ r.2
  commit {ρ : Place} {s : Space} {c : Choice} {i : Nat} (hs : M.stands ρ s) (hc : M.splits ρ c)
    (hi : i < c.alternatives) : Meets P (s.commit c i) (M.stands ((c, i) :: ρ))
  constrain {ρ : Place} {s best : Space} (hs : M.stands ρ s) (hbest : M.found best) :
    Meets P (s.constrain best) (M.stands ρ)
  describe {ρ : Place} {c : Choice} {i : Nat} (hc : M.splits ρ c) (hi : i < c.alternatives)
    (node : NodeId) : Meets P (EdgeInfo.ofChoice node c i) fun _ => True

variable {M : Chart} {ℓ ℓ' : Nat → Place} {ρ : Place}

theorem Chart.Closed.statusOf (hM : M.Closed P) {s : Space} (hs : M.stands ρ s)
    (statistics : Statistics) : Journaled.Meets P (ConstraintSearch.statusOf s statistics) fun r =>
      M.stands ρ r.2.1 ∧ (M.improves → r.1 = .solved → M.found r.2.1) ∧
        s.status.Returns (r.1, r.2.1) :=
  (hM.status hs).self.bind fun _ ⟨⟨hstands, hfound⟩, hreturns⟩ =>
    Journaled.Meets.pure ⟨hstands, hfound, hreturns⟩

/-! ### Edges -/

/-- What an edge holds: its alternatives are some of those of its choice, and the memory of a copy
is counted only where there is one. -/
structure Edge.Holds (M : Chart) (ρ : Place) (d : Edge) : Prop where
  splits : M.splits ρ d.choice
  last : d.last < d.choice.alternatives
  alternative : d.alternative ≤ d.last + 1
  space : ∀ s ∈ d.space, M.stands ρ s
  memory : d.space = none → d.memory = 0

/-- The place below edges that are listed from the deepest one upwards; `ℓ` are the places of their
nodes. -/
def placeBelow (ℓ : Nat → Place) : List Edge → Place
  | [] => ℓ 0
  | d :: edges => (d.choice, d.taken) :: ℓ edges.length

/-- The place below edges that are listed from the depth `k` downwards. -/
def placeAfter (ℓ : Nat → Place) : Nat → List Edge → Place
  | k, [] => ℓ k
  | k, [d] => (d.choice, d.taken) :: ℓ k
  | k, _ :: d :: edges => placeAfter ℓ (k + 1) (d :: edges)

/-- Each of the edges leads to the node of the next one. They are listed from the depth `k`
downwards. -/
inductive Chained (M : Chart) (ℓ : Nat → Place) : Nat → List Edge → Prop
  | nil (k : Nat) : Chained M ℓ k []
  | cons {k : Nat} {d : Edge} {edges : List Edge} (hd : d.Holds M (ℓ k))
      (hlink : edges ≠ [] → ℓ (k + 1) = (d.choice, d.taken) :: ℓ k)
      (h : Chained M ℓ (k + 1) edges) : Chained M ℓ k (d :: edges)

section Segments

variable {d d' : Edge} {edges edges' below above : List Edge} {k : Nat}

theorem placeAfter_append : placeAfter ℓ k (edges ++ d :: edges') =
    placeAfter ℓ (k + edges.length) (d :: edges') := by
  induction edges generalizing k with
  | nil => rfl
  | cons e edges ih =>
    have hrest : placeAfter ℓ k (e :: edges ++ d :: edges') =
        placeAfter ℓ (k + 1) (edges ++ d :: edges') := by
      cases edges <;> rfl
    rw [hrest, ih, List.length_cons, Nat.add_assoc, Nat.add_comm 1]

/-- An edge may be replaced by one that takes the same alternative. -/
theorem placeBelow_exchange (hchoice : d'.choice = d.choice)
    (halternative : d'.alternative = d.alternative) :
    placeBelow ℓ (below ++ d' :: above) = placeBelow ℓ (below ++ d :: above) := by
  cases below with
  | nil =>
    unfold placeBelow Edge.taken
    dsimp only [List.nil_append]
    rw [hchoice, halternative]
  | cons c below => simp [placeBelow]

namespace Chained

theorem holds_head (h : Chained M ℓ k (d :: edges)) : d.Holds M (ℓ k) := by
  cases h with
  | cons hd => exact hd

theorem of_append (h : Chained M ℓ k (edges ++ edges')) :
    Chained M ℓ (k + edges.length) edges' := by
  induction edges generalizing k with
  | nil => exact h
  | cons e edges ih =>
    cases h with
    | cons _ _ h =>
      rw [List.length_cons, Nat.add_comm edges.length, ← Nat.add_assoc]
      exact ih h

theorem left (h : Chained M ℓ k (edges ++ edges')) : Chained M ℓ k edges := by
  induction edges generalizing k with
  | nil => exact .nil k
  | cons e edges ih =>
    cases h with
    | cons hd hlink h =>
      exact .cons hd (fun hne => hlink fun hnil => hne (List.append_eq_nil_iff.1 hnil).1) (ih h)

/-- The edges lead to the node of the edge that follows them. -/
theorem placeAfter_eq (h : Chained M ℓ k (edges ++ d :: edges')) :
    placeAfter ℓ k edges = ℓ (k + edges.length) := by
  induction edges generalizing k with
  | nil => rfl
  | cons e edges ih =>
    cases h with
    | cons _ hlink h =>
      cases edges with
      | nil => exact (hlink (List.cons_ne_nil _ _)).symm
      | cons e' edges =>
        rw [List.length_cons, Nat.add_comm (e' :: edges).length, ← Nat.add_assoc]
        exact ih h

theorem concat (h : Chained M ℓ k edges) (hlink : placeAfter ℓ k edges = ℓ (k + edges.length))
    (hd : d.Holds M (ℓ (k + edges.length))) : Chained M ℓ k (edges ++ [d]) := by
  induction edges generalizing k with
  | nil => exact .cons hd (fun hne => absurd rfl hne) (.nil _)
  | cons e edges ih =>
    cases h with
    | cons he hnext h =>
      rw [List.length_cons, Nat.add_comm edges.length, ← Nat.add_assoc] at hlink hd
      cases edges with
      | nil => exact .cons he (fun _ => hlink.symm) (ih h rfl hd)
      | cons e' edges => exact .cons he (fun _ => hnext (List.cons_ne_nil _ _)) (ih h hlink hd)

/-- The edges are replayed. The last one is committed last. -/
theorem replay_meets {s : Space} (h : Chained M ℓ k edges) (hM : M.Closed P)
    (hs : M.stands (ℓ k) s) : Meets P (replay s edges) fun s' =>
      M.stands (placeAfter ℓ k edges) s' ∧
        ∀ top ∈ edges.getLast?, ∃ s₁, top.commit s₁ = .ok s' := by
  induction h generalizing s with
  | nil => exact Meets.pure ⟨hs, fun top htop => by cases htop⟩
  | @cons k d edges hd hlink h ih =>
    refine (hM.commit hs hd.splits (Edge.taken_lt_alternatives hd.last)).self.bind
      fun s₁ ⟨hs₁, hcommit⟩ => ?_
    cases edges with
    | nil =>
      refine Meets.pure ⟨hs₁, fun top htop => ?_⟩
      cases htop
      exact ⟨s, hcommit⟩
    | cons d' edges =>
      rw [← hlink (List.cons_ne_nil _ _)] at hs₁
      exact (ih hs₁).mono fun s' hs' => by rwa [List.getLast?_cons_cons]

end Chained

end Segments

/-! ### Paths that can be restored -/

/-- The node below the deepest edge can be rebuilt: there is a copy, and the edges below it follow
each other. -/
inductive Restorable (ℓ : Nat → Place) : List Edge → Prop
  | copy {d : Edge} {edges : List Edge} (h : d.space.isSome = true) : Restorable ℓ (d :: edges)
  | link {d : Edge} {edges : List Edge} (hlink : ℓ edges.length = placeBelow ℓ edges)
      (h : Restorable ℓ edges) : Restorable ℓ (d :: edges)

/-- The edges of a path, of which only the deepest one can be used up. Each edge with alternatives
is restorable. -/
inductive Stocked (M : Chart) (ℓ : Nat → Place) : List Edge → Prop
  | nil : Stocked M ℓ []
  | cons {d : Edge} {edges : List Edge} (hd : d.Holds M (ℓ edges.length))
      (hcopy : d.hasWork = true → Restorable ℓ (d :: edges))
      (hfresh : ∀ d' ∈ edges.head?, ¬d'.isUsedUp = true) (h : Stocked M ℓ edges) :
      Stocked M ℓ (d :: edges)

/-- The node that the edges lead to can be rebuilt. -/
structure Ready (ℓ : Nat → Place) (edges : List Edge) : Prop where
  restorable : Restorable ℓ edges
  fresh : ∀ d ∈ edges.head?, ¬d.isUsedUp = true

namespace Restorable

variable {d d' : Edge} {edges below above : List Edge}

theorem hasCopy (h : Restorable ℓ edges) : Path.HasCopy edges := by
  induction h with
  | copy h => exact ⟨_, List.mem_cons_self, h⟩
  | link _ _ ih =>
    obtain ⟨d, hd, hspace⟩ := ih
    exact ⟨d, List.mem_cons_of_mem _ hd, hspace⟩

theorem exchange_head (h : Restorable ℓ (d :: above))
    (hcopy : d.space.isSome = true → d'.space.isSome = true) : Restorable ℓ (d' :: above) := by
  cases h with
  | copy h => exact .copy (hcopy h)
  | link hlink h => exact .link hlink h

/-- An edge may be replaced by one that takes the same alternative, with a copy if it had one. -/
theorem exchange (h : Restorable ℓ (below ++ d :: above))
    (hcopy : d.space.isSome = true → d'.space.isSome = true) (hchoice : d'.choice = d.choice)
    (halternative : d'.alternative = d.alternative) : Restorable ℓ (below ++ d' :: above) := by
  induction below with
  | nil => exact h.exchange_head hcopy
  | cons c below ih =>
    rw [List.cons_append] at h ⊢
    cases h with
    | copy h => exact .copy h
    | link hlink h =>
      refine .link ?_ (ih h)
      rw [placeBelow_exchange hchoice halternative, ← hlink, List.length_append, List.length_append]
      rfl

theorem placeBelow_eq (h : Restorable ℓ edges) (heq : ∀ k < edges.length, ℓ k = ℓ' k) :
    placeBelow ℓ edges = placeBelow ℓ' edges := by
  cases edges with
  | nil => cases h
  | cons d edges => exact congrArg _ (heq edges.length (Nat.lt_succ_self _))

theorem congr (h : Restorable ℓ edges) (heq : ∀ k < edges.length, ℓ k = ℓ' k) :
    Restorable ℓ' edges := by
  induction h with
  | copy h => exact .copy h
  | @link d edges hlink h ih =>
    have heq' : ∀ k < edges.length, ℓ k = ℓ' k := fun k hk => heq k (Nat.lt_succ_of_lt hk)
    refine .link ?_ (ih heq')
    rw [← heq _ (Nat.lt_succ_self _), hlink]
    exact h.placeBelow_eq heq'

end Restorable

namespace Stocked

variable {d d' : Edge} {edges below above : List Edge}

theorem of_append (h : Stocked M ℓ (below ++ above)) : Stocked M ℓ above := by
  induction below with
  | nil => exact h
  | cons d below ih =>
    cases h with
    | cons _ _ _ h => exact ih h

theorem holds_head (h : Stocked M ℓ (d :: edges)) : d.Holds M (ℓ edges.length) := by
  cases h with
  | cons hd => exact hd

theorem holds (h : Stocked M ℓ (below ++ d :: above)) : d.Holds M (ℓ above.length) :=
  h.of_append.holds_head

theorem exists_holds (h : Stocked M ℓ edges) : ∀ d ∈ edges, ∃ ρ, d.Holds M ρ := by
  intro d hd
  obtain ⟨below, above, rfl⟩ := List.append_of_mem hd
  exact ⟨_, h.holds⟩

theorem tail (h : Stocked M ℓ (d :: edges)) : Stocked M ℓ edges := by
  cases h with
  | cons _ _ _ h => exact h

theorem drop (h : Stocked M ℓ edges) (n : Nat) : Stocked M ℓ (edges.drop n) := by
  rw [← List.take_append_drop n edges] at h
  exact h.of_append

theorem restorable (h : Stocked M ℓ (d :: edges)) (hwork : d.hasWork = true) :
    Restorable ℓ (d :: edges) := by
  cases h with
  | cons _ hcopy => exact hcopy hwork

theorem fresh (h : Stocked M ℓ (d :: edges)) : ∀ d' ∈ edges.head?, ¬d'.isUsedUp = true := by
  cases h with
  | cons _ _ hfresh => exact hfresh

theorem congr (h : Stocked M ℓ edges) (heq : ∀ k < edges.length, ℓ k = ℓ' k) :
    Stocked M ℓ' edges := by
  induction h with
  | nil => exact .nil
  | @cons d edges hd hcopy hfresh h ih =>
    refine .cons (heq _ (Nat.lt_succ_self _) ▸ hd) (fun hwork => (hcopy hwork).congr heq) hfresh
      (ih fun k hk => heq k (Nat.lt_succ_of_lt hk))

/-- The edges from the deepest copy downwards follow each other. -/
theorem chained (h : Stocked M ℓ (below ++ d :: above)) (hr : Restorable ℓ (below ++ d :: above))
    (hnone : ∀ c ∈ below, c.space = none) : Chained M ℓ above.length (d :: below.reverse) ∧
      placeAfter ℓ above.length (d :: below.reverse) = placeBelow ℓ (below ++ d :: above) := by
  induction below with
  | nil => exact ⟨.cons h.holds (fun hne => absurd rfl hne) (.nil _), rfl⟩
  | cons c below ih =>
    obtain ⟨hc, hnone⟩ := List.forall_mem_cons.1 hnone
    rw [List.cons_append] at h hr
    cases hr with
    | copy hcopy =>
      rw [hc] at hcopy
      cases hcopy
    | link hlink hr =>
      obtain ⟨hchained, hplace⟩ := ih h.tail hr hnone
      have hlength : above.length + (d :: below.reverse).length = (below ++ d :: above).length := by
        simp only [List.length_cons, List.length_reverse, List.length_append]
        omega
      have hlast : placeAfter ℓ above.length (d :: below.reverse) =
          ℓ (above.length + (d :: below.reverse).length) := by
        rw [hplace, hlength, hlink]
      have hcopied : c.Holds M (ℓ (above.length + (d :: below.reverse).length)) := by
        rw [hlength]
        exact h.holds_head
      rw [List.reverse_cons, ← List.cons_append]
      refine ⟨hchained.concat hlast hcopied, ?_⟩
      rw [placeAfter_append, hlength]
      rfl

/-- An edge may be replaced by one that keeps its copy, and is used up only if it was before. -/
theorem exchange (h : Stocked M ℓ (below ++ d :: above)) (hd' : Stocked M ℓ (d' :: above))
    (hcopy : d.space.isSome = true → d'.space.isSome = true) (hchoice : d'.choice = d.choice)
    (halternative : d'.alternative = d.alternative)
    (hused : d'.isUsedUp = true → d.isUsedUp = true) : Stocked M ℓ (below ++ d' :: above) := by
  induction below with
  | nil => exact hd'
  | cons c below ih =>
    cases h with
    | cons hc hwork hfresh h =>
      refine .cons ?_ (fun hw => ?_) (fun d₁ hd₁ => ?_) (ih h)
      · have hlength : (below ++ d' :: above).length = (below ++ d :: above).length := by simp
        exact hlength ▸ hc
      · have hrestorable : Restorable ℓ ((c :: below) ++ d :: above) := hwork hw
        exact hrestorable.exchange hcopy hchoice halternative
      · cases below with
        | nil =>
          cases hd₁
          exact fun hu => hfresh d rfl (hused hu)
        | cons c' below => exact hfresh d₁ hd₁

/-- The edge keeps what it holds with another copy. -/
theorem store (h : Stocked M ℓ (below ++ d :: above)) {s : Space}
    (hs : M.stands (ℓ above.length) s) (memory : Nat) :
    Stocked M ℓ (below ++ { d with space := some s, memory } :: above) := by
  have hd := h.of_append
  refine h.exchange ?_ (fun _ => rfl) rfl rfl id
  cases hd with
  | cons hd _ hfresh habove =>
    exact .cons ⟨hd.splits, hd.last, hd.alternative, fun s' hs' => by cases hs'; exact hs, nofun⟩
      (fun _ => .copy rfl) hfresh habove

/-- The edge keeps what it holds without its last alternative. -/
theorem rob (h : Stocked M ℓ (below ++ d :: above)) (hwork : d.hasWork = true) :
    Stocked M ℓ (below ++ d.robbed :: above) := by
  have hlt := Edge.hasWork_iff.1 hwork
  have hd := h.of_append
  refine h.exchange ?_ id rfl rfl fun hu => ?_
  · cases hd with
    | cons hd hcopy hfresh habove =>
      refine .cons ⟨hd.splits, (Nat.sub_le _ _).trans_lt hd.last, ?_, hd.space, hd.memory⟩
        (fun _ => ?_) hfresh habove
      · show d.alternative ≤ d.last - 1 + 1
        omega
      · exact (hcopy hwork).exchange_head id
  · have hu : d.last - 1 < d.alternative := Edge.isUsedUp_iff.1 hu
    omega

/-- After moving on, the next node can be rebuilt. -/
theorem advanced (h : Stocked M ℓ edges) : Stocked M ℓ (Path.advancedEdges edges) ∧
    (Path.advancedEdges edges ≠ [] → Ready ℓ (Path.advancedEdges edges)) := by
  induction h with
  | nil => exact ⟨.nil, fun hne => absurd rfl hne⟩
  | @cons d edges hd hcopy hfresh h ih =>
    unfold Path.advancedEdges
    by_cases hr : d.isRightmost = true
    · rw [if_pos hr]
      exact ih
    · rw [if_neg hr]
      have hwork : d.hasWork = true := by
        by_contra hnone
        exact hr (Edge.isRightmost_iff.2 hnone)
      have hlt := Edge.hasWork_iff.1 hwork
      have hnext : Restorable ℓ (d.next :: edges) := (hcopy hwork).exchange_head id
      refine ⟨.cons ⟨hd.splits, hd.last, ?_, hd.space, hd.memory⟩ (fun _ => hnext) hfresh h,
        fun _ => ⟨hnext, fun d' hd' hu => ?_⟩⟩
      · show d.alternative + 1 ≤ d.last + 1
        omega
      · cases hd'
        have hu : d.last < d.alternative + 1 := Edge.isUsedUp_iff.1 hu
        omega

theorem vacated (h : Stocked M ℓ edges) : Stocked M ℓ (Path.vacatedEdges edges) ∧
    ∀ d ∈ (Path.vacatedEdges edges).head?, ¬d.isUsedUp = true := by
  cases h with
  | nil => exact ⟨.nil, fun d hd => by cases hd⟩
  | @cons d edges hd hcopy hfresh h =>
    by_cases hu : d.isUsedUp = true
    · rw [Path.vacatedEdges_of_isUsedUp hu]
      exact ⟨h, hfresh⟩
    · rw [Path.vacatedEdges_of_not_isUsedUp hu]
      exact ⟨.cons hd hcopy hfresh h, fun d' hd' => by cases hd'; exact hu⟩

end Stocked

namespace Ready

variable {d d' : Edge} {edges below above : List Edge}

theorem exchange (h : Ready ℓ (below ++ d :: above))
    (hcopy : d.space.isSome = true → d'.space.isSome = true) (hchoice : d'.choice = d.choice)
    (halternative : d'.alternative = d.alternative)
    (hused : d'.isUsedUp = true → d.isUsedUp = true) : Ready ℓ (below ++ d' :: above) where
  restorable := h.restorable.exchange hcopy hchoice halternative
  fresh d₁ hd₁ := by
    cases below with
    | nil =>
      cases hd₁
      exact fun hu => h.fresh d rfl (hused hu)
    | cons c below => exact h.fresh d₁ hd₁

theorem vacated (h : Ready ℓ edges) : Path.vacatedEdges edges = edges := by
  cases edges with
  | nil => rfl
  | cons d edges => exact Path.vacatedEdges_of_not_isUsedUp (h.fresh d rfl)

/-- An alternative may be stolen. -/
theorem rob (h : Ready ℓ (below ++ d :: above)) (hwork : d.hasWork = true) :
    Ready ℓ (below ++ d.robbed :: above) := by
  have hlt := Edge.hasWork_iff.1 hwork
  refine h.exchange id rfl rfl fun hu => ?_
  have hu : d.last - 1 < d.alternative := Edge.isUsedUp_iff.1 hu
  omega

end Ready

/-! ### What a path has still to explore -/

namespace Path

variable {d d' : Edge} {edges below above : List Edge}

theorem length_advancedEdges_le (edges : List Edge) :
    (advancedEdges edges).length ≤ edges.length := by
  induction edges with
  | nil => exact Nat.le_refl _
  | cons d edges ih =>
    unfold advancedEdges
    split
    · exact ih.trans (Nat.le_succ _)
    · exact Nat.le_refl _

/-- The depths of the nodes below the alternatives that are left. -/
def levels (ℓ : Nat → Place) : List Edge → Multiset Nat
  | [] => 0
  | d :: edges =>
      Multiset.replicate (d.last - d.alternative) ((ℓ edges.length).length + 1) + levels ℓ edges

theorem levels_exchange (hlast : d'.last = d.last) (halternative : d'.alternative = d.alternative) :
    levels ℓ (below ++ d' :: above) = levels ℓ (below ++ d :: above) := by
  induction below with
  | nil =>
    show Multiset.replicate (d'.last - d'.alternative) _ + _ = _
    rw [hlast, halternative]
    rfl
  | cons c below ih =>
    rw [List.cons_append, List.cons_append, levels, levels, ih, List.length_append,
      List.length_append]
    rfl

theorem levels_congr (heq : ∀ k < edges.length, ℓ k = ℓ' k) : levels ℓ edges = levels ℓ' edges := by
  induction edges with
  | nil => rfl
  | cons d edges ih =>
    unfold levels
    rw [heq _ (Nat.lt_succ_self _), ih fun k hk => heq k (Nat.lt_succ_of_lt hk)]

theorem levels_drop_le (edges : List Edge) (n : Nat) :
    levels ℓ (edges.drop n) ≤ levels ℓ edges := by
  induction edges generalizing n with
  | nil => rw [List.drop_nil]
  | cons d edges ih =>
    cases n with
    | zero => exact le_rfl
    | succ n => exact (ih n).trans (Multiset.le_add_left _ _)

theorem levels_vacatedEdges_le (edges : List Edge) :
    levels ℓ (vacatedEdges edges) ≤ levels ℓ edges := by
  cases edges with
  | nil => exact le_rfl
  | cons d edges =>
    by_cases hu : d.isUsedUp = true
    · rw [vacatedEdges_of_isUsedUp hu]
      exact Multiset.le_add_left _ _
    · rw [vacatedEdges_of_not_isUsedUp hu]

/-- To move on takes the next node from those that are left. -/
theorem levels_advancedEdges_le (hne : advancedEdges edges ≠ []) :
    (placeBelow ℓ (advancedEdges edges)).length ::ₘ levels ℓ (advancedEdges edges) ≤
      levels ℓ edges := by
  induction edges with
  | nil => exact absurd rfl hne
  | cons d edges ih =>
    unfold advancedEdges at hne ⊢
    by_cases hr : d.isRightmost = true
    · rw [if_pos hr] at hne ⊢
      exact (ih hne).trans (Multiset.le_add_left _ _)
    · rw [if_neg hr]
      have hlt : d.alternative < d.last := not_le.1 fun hle => hr (decide_eq_true hle)
      obtain ⟨n, hn⟩ : ∃ n, d.last - d.alternative = n + 1 := ⟨d.last - d.alternative - 1, by omega⟩
      have hnext : d.next.last - d.next.alternative = n := by
        show d.last - (d.alternative + 1) = n
        omega
      unfold levels
      rw [hn, hnext, Multiset.replicate_succ, Multiset.cons_add]
      rfl

end Path

/-! ### Rebuilding -/

namespace Explorer

variable {e e' : Explorer} {s copy : Space} {top edge : Edge}
  {edges segment below above : List Edge} {bound : Option Bound}

/-- The path has the copies that it needs, and its counters are right. -/
structure Equipped (M : Chart) (ℓ : Nat → Place) (e : Explorer) : Prop where
  balanced : e.path.Balanced
  stocked : Stocked M ℓ e.path.edges

/-- The node at a place below the path can be split: its copy is stored, or it can be rebuilt. -/
def Moored (ℓ : Nat → Place) (ρ : Place) (e : Explorer) : Prop :=
  e.distance = 0 ∨ Ready ℓ e.path.edges ∧ placeBelow ℓ e.path.edges = ρ

/-- The alternative of the deepest edge was committed last, and then the space was constrained at
most. An edge is used up only beyond the no-good depth. -/
def Delivers (e : Explorer) (s : Space) : Prop :=
  ∃ top edges, e.path.edges = top :: edges ∧
    (∃ s₁ s₂ : Space, s₁.commit top.choice (min top.alternative top.last) = .ok s₂ ∧
      (s = s₂ ∨ ∃ best, s₂.constrain best = .ok s)) ∧
    (top.isUsedUp = true → e.path.noGoodDepth < e.path.edges.length)

/-- What becomes of a path whose deepest node is rebuilt. If a node turns out to be failed, the path
ends above it. -/
def Rebuilds (M : Chart) (ℓ : Nat → Place) (e : Explorer) :
    Option Space × Explorer × Option Bound → Prop
  | (node, e', bound) => e'.Equipped M ℓ ∧ e'.current = e.current ∧
      (∀ b ∈ bound, M.found b.best) ∧
      Path.levels ℓ e'.path.edges ≤ Path.levels ℓ e.path.edges ∧
      match node with
      | some s => M.stands (placeBelow ℓ e.path.edges) s ∧
          e'.Moored ℓ (placeBelow ℓ e.path.edges) ∧ e'.Delivers s
      | none => e'.path.edges.length < e.path.edges.length

theorem failAt_meets (hM : M.Closed P) (h : e'.Equipped M ℓ)
    (hlength : e'.path.edges.length = e.path.edges.length)
    (hlevels : Path.levels ℓ e'.path.edges ≤ Path.levels ℓ e.path.edges)
    (hcurrent : e'.current = e.current) (hbound : ∀ b ∈ bound, M.found b.best) {depth : Nat}
    (hdepth : depth < e.path.edges.length) :
    Journaled.Meets P (e'.failAt depth bound) (Rebuilds M ℓ e) := by
  have hdescribe (d : Edge) (hd : d ∈ e'.path.edges) (i : Nat) (hi : i ≤ d.last) :
      Meets P (EdgeInfo.ofChoice d.node d.choice i) fun _ => True := by
    obtain ⟨ρ, hholds⟩ := h.stocked.exists_holds d hd
    exact hM.describe hholds.splits (hi.trans_lt hholds.last) d.node
  have hunwind : Meets P (e'.path.unwind depth e'.tracing)
      (e'.path.Becomes (e'.path.edges.drop (e'.path.edges.length - depth)) ·.1) :=
    Path.unwindWithin_meets h.balanced hdescribe (Nat.le_refl _)
  unfold failAt
  refine (Journaled.Meets.lift hunwind).bind fun r hr => Journaled.Meets.pure ?_
  refine ⟨⟨hr.balanced, hr.edges ▸ h.stocked.drop _⟩, hcurrent, hbound, ?_, ?_⟩
  · show Path.levels ℓ r.1.edges ≤ _
    rw [hr.edges]
    exact (Path.levels_drop_le _ _).trans hlevels
  · show r.1.edges.length < _
    rw [hr.edges, List.length_drop]
    omega

theorem constrainAbove_meets (hM : M.Closed P) (hs : M.stands ρ s)
    (hbound : ∀ b ∈ bound, M.found b.best) (depth : Nat) :
    Journaled.Meets P (constrainAbove s depth bound) fun r =>
      M.stands ρ r.1 ∧ (∀ b ∈ r.2, M.found b.best) ∧
        (r.1 = s ∨ ∃ best, s.constrain best = .ok r.1) := by
  cases bound with
  | none => exact Journaled.Meets.pure ⟨hs, nofun, .inl rfl⟩
  | some b =>
    have hb := hbound b rfl
    unfold constrainAbove
    dsimp only
    split
    · refine (Journaled.Meets.lift (hM.constrain hs hb).self).bind fun s' ⟨hs', hconstrain⟩ =>
        Journaled.Meets.pure ⟨hs', fun b' hb' => ?_, .inr ⟨b.best, hconstrain⟩⟩
      cases hb'
      exact hb
    · exact Journaled.Meets.pure ⟨hs, hbound, .inl rfl⟩

/-- The last alternative of the deepest edge is explored in the copy of the edge itself. -/
theorem reuseTop_meets (hM : M.Closed P) (h : e.Equipped M ℓ)
    (hedges : e.path.edges = top :: edges) (hcopy : top.space = some copy)
    (hr : top.isRightmost = true) (hfresh : ¬top.isUsedUp = true)
    (hbound : ∀ b ∈ bound, M.found b.best) :
    Journaled.Meets P (e.reuseTop top copy edges bound) (Rebuilds M ℓ e) := by
  have hpath : e.path.edges = [] ++ top :: edges := hedges
  have hmemory := h.balanced.memory_le hpath
  have hstocked := h.stocked
  rw [hedges] at hstocked
  have htop : top.Holds M (ℓ edges.length) := hstocked.holds_head
  have hlast : top.last ≤ top.alternative := of_decide_eq_true hr
  have hle : top.alternative ≤ top.last := not_lt.1 fun hlt => hfresh (Edge.isUsedUp_iff.2 hlt)
  have htaken : top.taken = top.alternative :=
    Nat.min_eq_left (Nat.le_sub_one_of_lt (hle.trans_lt htop.last))
  rw [reuseTop_eq]
  refine (Journaled.Meets.lift (lessen_meets hmemory)).bind fun memory hm => ?_
  refine (Journaled.Meets.lift (hM.commit (htop.space copy hcopy) htop.splits
    (hle.trans_lt htop.last)).self).bind fun s₁ ⟨hs₁, hcommit⟩ => ?_
  refine (constrainAbove_meets hM hs₁ hbound edges.length).bind
    fun (s₂, bound') ⟨hs₂, hbound', hconstrained⟩ => Journaled.Meets.pure ?_
  dsimp only at hs₂ hbound' hconstrained ⊢
  generalize halternative : (if e.path.noGoodDepth < edges.length + 1 then top.alternative + 1
    else top.alternative) = alternative
  have hspent : alternative = top.last ∨
      alternative = top.last + 1 ∧ e.path.noGoodDepth < edges.length + 1 := by
    split at halternative <;> omega
  have hnone : ¬Edge.hasWork { top with space := none, memory := 0, alternative } = true := by
    intro hw
    have hw : alternative < top.last := Edge.hasWork_iff.1 hw
    omega
  have hplace : placeBelow ℓ e.path.edges = (top.choice, top.alternative) :: ℓ edges.length := by
    rw [hedges, ← htaken]
    rfl
  refine ⟨⟨h.balanced.exchange hpath ?_ ?_, ?_⟩, rfl, hbound', ?_, hplace ▸ hs₂, .inl rfl, _, edges,
    rfl, ⟨copy, s₁, ?_, hconstrained⟩, fun hu => ?_⟩
  · show memory + top.memory = e.path.memory + 0
    omega
  · rw [Bool.eq_false_of_not_eq_true hnone,
      Bool.eq_false_of_not_eq_true (Edge.isRightmost_iff.1 hr)]
  · refine .cons ⟨htop.splits, htop.last, ?_, nofun, fun _ => rfl⟩ (fun hw => absurd hw hnone)
      hstocked.fresh hstocked.tail
    show alternative ≤ top.last + 1
    omega
  · show Multiset.replicate (top.last - alternative) _ + Path.levels ℓ edges ≤ _
    rw [hedges, show top.last - alternative = 0 by omega, Multiset.replicate_zero, zero_add]
    exact Multiset.le_add_left _ _
  · show copy.commit top.choice (min alternative top.last) = .ok s₁
    have hmin : min alternative top.last = top.alternative := by omega
    rw [hmin]
    exact hcommit
  · have hu : top.last < alternative := Edge.isUsedUp_iff.1 hu
    show e.path.noGoodDepth < edges.length + 1
    omega

/-- The node that the path points to was got by replaying the edges of a segment. -/
theorem delivers_of_replay (h : e.Equipped M ℓ) (hready : Ready ℓ e.path.edges)
    (hedges : e.path.edges = segment.reverse ++ above) (hne : segment ≠ [])
    (hlast : ∀ top ∈ segment.getLast?, ∃ s₁, top.commit s₁ = .ok s) : e.Delivers s := by
  obtain ⟨before, top, rfl⟩ : ∃ before top, segment = before ++ [top] :=
    ⟨_, _, (List.dropLast_append_getLast hne).symm⟩
  rw [List.reverse_append, List.reverse_singleton] at hedges
  obtain ⟨s₁, hcommit⟩ := hlast top (by simp)
  have hhead : top ∈ e.path.edges.head? := by
    rw [hedges]
    rfl
  obtain ⟨ρ, htop⟩ := h.stocked.exists_holds top (List.mem_of_mem_head? hhead)
  have hfresh := hready.fresh top hhead
  have hle : top.alternative ≤ top.last := not_lt.1 fun hlt => hfresh (Edge.isUsedUp_iff.2 hlt)
  refine ⟨top, before.reverse ++ above, hedges, ⟨s₁, s, ?_, .inl rfl⟩, fun hu => absurd hu hfresh⟩
  have htaken : top.taken = min top.alternative top.last := by
    have := htop.last
    unfold Edge.taken
    omega
  rw [← htaken]
  exact hcommit

theorem refreshCopy_meets (hM : M.Closed P) (h : e.Equipped M ℓ)
    (hedges : e.path.edges = below ++ edge :: above) (hcopy : edge.space = some copy)
    (hbound : ∀ b ∈ bound, M.found b.best) :
    Journaled.Meets P (refreshCopy e below edge copy above bound) fun r =>
      M.stands (ℓ above.length) r.2.1 ∧ r.2.2.1.Equipped M ℓ ∧
        r.2.2.1.path.edges = below ++ { edge with space := some r.2.1 } :: above ∧
        r.2.2.1.current = e.current ∧ ∀ b ∈ r.2.2.2, M.found b.best := by
  have hstocked := h.stocked
  rw [hedges] at hstocked
  have hs : M.stands (ℓ above.length) copy := hstocked.holds.space copy hcopy
  have hsame : below ++ { edge with space := some copy } :: above = below ++ edge :: above := by
    rw [← hcopy]
  cases bound with
  | none => exact Journaled.Meets.pure ⟨hs, h, hedges.trans hsame.symm, rfl, nofun⟩
  | some b =>
    have hb := hbound b rfl
    unfold refreshCopy
    dsimp only
    split
    · refine (Journaled.Meets.lift (hM.constrain hs hb)).bind fun s₁ hs₁ => ?_
      refine (hM.statusOf hs₁ _).bind fun (status, s₂, statistics) ⟨hs₂, _⟩ =>
        Journaled.Meets.pure ?_
      dsimp only at hs₂ ⊢
      refine ⟨hs₂, ⟨h.balanced.exchange hedges rfl rfl, hstocked.store hs₂ edge.memory⟩, rfl, rfl,
        fun b' hb' => ?_⟩
      cases hb'
      exact hb
    · exact Journaled.Meets.pure ⟨hs, h, hedges.trans hsame.symm, rfl, hbound⟩

/-! ### What is explored next -/

/-- The invariant of an explorer: the next node is at hand, or it can be rebuilt. Its place is
`ρ`. -/
structure Sustained (M : Chart) (ℓ : Nat → Place) (ρ : Place) (e : Explorer) : Prop
    extends e.Equipped M ℓ where
  current : ∀ s ∈ e.current, M.stands ρ s ∧ e.Moored ℓ ρ
  ready : e.current = none → e.path.edges ≠ [] →
    Ready ℓ e.path.edges ∧ placeBelow ℓ e.path.edges = ρ

/-- The depths of the nodes that are still to be explored. -/
def backlog (ℓ : Nat → Place) (ρ : Place) (e : Explorer) : Multiset Nat :=
  if e.current = none ∧ e.path.edges = [] then 0 else ρ.length ::ₘ Path.levels ℓ e.path.edges

theorem Sustained.of_advanced {p : Path} (h : e.Equipped M ℓ) (hcurrent : e.current = none)
    (hp : e.path.Becomes (Path.advancedEdges e.path.edges) p) :
    Sustained M ℓ (placeBelow ℓ p.edges) { e with path := p } where
  balanced := hp.balanced
  stocked := hp.edges ▸ h.stocked.advanced.1
  current s hs := by
    rw [hcurrent] at hs
    cases hs
  ready _ hne := by
    refine ⟨?_, rfl⟩
    rw [hp.edges] at hne ⊢
    exact h.stocked.advanced.2 hne

theorem backlog_advanced_le {p : Path} (hcurrent : e.current = none)
    (hp : e.path.Becomes (Path.advancedEdges e.path.edges) p) :
    backlog ℓ (placeBelow ℓ p.edges) { e with path := p } ≤ Path.levels ℓ e.path.edges := by
  unfold backlog
  split
  · exact Multiset.zero_le _
  · rename_i hnone
    rw [hp.edges]
    exact Path.levels_advancedEdges_le fun hnil => hnone ⟨hcurrent, hp.edges.trans hnil⟩

theorem edgeInfo_meets (hM : M.Closed P) (h : e.Equipped M ℓ) :
    Meets P e.edgeInfo fun _ => True := by
  unfold edgeInfo Path.topEdge?
  cases hedges : e.path.edges with
  | nil => exact Meets.pure trivial
  | cons d edges =>
    obtain ⟨ρ, hholds⟩ := h.stocked.exists_holds d (by rw [hedges]; exact List.mem_cons_self)
    refine Meets.bind (Q := fun _ => True) ?_ fun _ _ => Meets.pure trivial
    exact (hM.describe hholds.splits (Edge.taken_lt_alternatives hholds.last) d.node).bind
      fun _ _ => Meets.pure trivial

theorem Sustained.reportNode (h : e.Sustained M ℓ ρ) (edge : Option EdgeInfo) (id : NodeId)
    (kind : NodeKind) : (e.reportNode edge id kind).Sustained M ℓ ρ := by
  cases edge with
  | none => exact h
  | some edge => exact ⟨⟨h.balanced, h.stocked⟩, h.current, h.ready⟩

theorem backlog_reportNode (edge : Option EdgeInfo) (id : NodeId) (kind : NodeKind) :
    (e.reportNode edge id kind).backlog ℓ ρ = e.backlog ℓ ρ := by
  cases edge <;> rfl

theorem start_meets (hM : M.Closed P) (e : Explorer) (hs : M.stands [] s) :
    Journaled.Meets P (e.start s) (·.Sustained M ℓ []) := by
  unfold start
  refine (hM.statusOf hs _).bind fun (status, s₁, statistics) ⟨hs₁, _⟩ => ?_
  dsimp only at hs₁ ⊢
  have hequipped {e' : Explorer} (hpath : e'.path = .empty e.exploration.noGoodsLimit) :
      e'.Equipped M ℓ := ⟨hpath ▸ Path.balanced_empty _, hpath ▸ .nil⟩
  split
  · exact Journaled.Meets.pure ⟨hequipped rfl, nofun, fun _ hne => absurd rfl hne⟩
  · refine Journaled.Meets.pure ⟨hequipped rfl, fun s' hs' => ?_, nofun⟩
    cases hs'
    exact ⟨hs₁, .inl rfl⟩

/-- A theft does not take away what is needed to go on. -/
theorem Sustained.steal {p : Path} {limit : Nat} {stolen : Space} {edge : EdgeInfo}
    (h : e.Sustained M ℓ ρ) (hsteal : e.path.steal? limit = .ok (some (stolen, edge, p))) :
    Sustained M ℓ ρ { e with path := p } := by
  obtain ⟨below, d, above, hedges, hwork, -, hp⟩ := Path.exists_of_steal h.balanced hsteal
  have hplace : placeBelow ℓ p.edges = placeBelow ℓ e.path.edges := by
    rw [hedges, hp.edges]
    exact placeBelow_exchange rfl rfl
  have hrob (hready : Ready ℓ e.path.edges) : Ready ℓ p.edges := by
    rw [hedges] at hready
    exact hp.edges ▸ hready.rob hwork
  have hrobbed (hready : Ready ℓ e.path.edges ∧ placeBelow ℓ e.path.edges = ρ) :
      Ready ℓ p.edges ∧ placeBelow ℓ p.edges = ρ := ⟨hrob hready.1, hplace.trans hready.2⟩
  refine ⟨⟨hp.balanced, hp.edges ▸ (hedges ▸ h.stocked).rob hwork⟩, fun s hs => ?_,
    fun hnone _ => hrobbed (h.ready hnone (by rw [hedges]; simp))⟩
  obtain ⟨hstands, hmoored⟩ := h.current s hs
  exact ⟨hstands, hmoored.imp_right hrobbed⟩

section Memory

variable [MemoryMeasure]

theorem replayHalfway_meets (hM : M.Closed P) (hs : M.stands (ℓ above.length) s)
    (h : e'.Equipped M ℓ) (hready : Ready ℓ e'.path.edges)
    (hedges : e'.path.edges = segment.reverse ++ above)
    (hchained : Chained M ℓ above.length segment)
    (hafter : placeAfter ℓ above.length segment = placeBelow ℓ e.path.edges)
    (hplace : placeBelow ℓ e'.path.edges = placeBelow ℓ e.path.edges) (hne : segment ≠ [])
    (hlength : e'.path.edges.length = e.path.edges.length)
    (hlevels : Path.levels ℓ e'.path.edges ≤ Path.levels ℓ e.path.edges)
    (hcurrent : e'.current = e.current) (hbound : ∀ b ∈ bound, M.found b.best) :
    Journaled.Meets P (e'.replayHalfway s segment above bound) (Rebuilds M ℓ e) := by
  unfold replayHalfway
  dsimp only
  generalize hupper : segment.take (segment.length / 2) = upper
  generalize hlower : segment.drop (segment.length / 2) = lower
  generalize hskipped : lower.takeWhile (·.isRightmost) = skipped
  have hsegment : segment = (upper ++ skipped) ++ lower.dropWhile (·.isRightmost) := by
    rw [List.append_assoc, ← hskipped, List.takeWhile_append_dropWhile, ← hupper, ← hlower,
      List.take_append_drop]
  have hdelivers := fun {s : Space} => delivers_of_replay (s := s) h hready hedges hne
  generalize lower.dropWhile (·.isRightmost) = remaining at hsegment
  rw [hsegment] at hchained hafter
  have hrest : Chained M ℓ (above.length + (upper ++ skipped).length) remaining :=
    hchained.of_append
  refine (Journaled.Meets.lift (hchained.left.replay_meets hM hs)).bind fun s₁ ⟨hs₁, hlast₁⟩ => ?_
  match remaining with
  | [] =>
    rw [List.append_nil] at hsegment hafter
    exact Journaled.Meets.pure ⟨h, hcurrent, hbound, hlevels, hafter ▸ hs₁, .inr ⟨hready, hplace⟩,
      hdelivers (hsegment ▸ hlast₁)⟩
  | [top] =>
    rw [hchained.placeAfter_eq] at hs₁
    rw [placeAfter_append] at hafter
    have hreplay : Meets P (replay s₁ [top]) _ := hrest.replay_meets hM hs₁
    refine (Journaled.Meets.lift hreplay).bind fun s₂ ⟨hs₂, hlast₂⟩ => Journaled.Meets.pure
      ⟨h, hcurrent, hbound, hlevels, hafter ▸ hs₂, .inr ⟨hready, hplace⟩,
        hdelivers fun top' htop' => ?_⟩
    rw [hsegment, List.getLast?_append] at htop'
    exact hlast₂ top' htop'
  | first :: second :: rest =>
    rw [hchained.placeAfter_eq] at hs₁
    rw [placeAfter_append] at hafter
    -- A copy is left on the first edge in the lower half that is not rightmost.
    refine (hM.statusOf hs₁ _).bind fun (status, s₂, statistics) ⟨hs₂, _⟩ => ?_
    dsimp only at hs₂ ⊢
    have hedges₁ : e'.path.edges = (second :: rest).reverse ++
        first :: ((skipped.reverse ++ upper.reverse) ++ above) := by
      rw [hedges, hsegment]
      simp
    split
    · have hcounted : Equipped M ℓ { e' with statistics } := ⟨h.balanced, h.stocked⟩
      refine failAt_meets hM hcounted hlength hlevels hcurrent hbound ?_
      rw [← hlength, hedges₁]
      simp only [List.length_append, List.length_cons, List.length_reverse]
      omega
    have hmemory := h.balanced.memory_le hedges₁
    have hstocked := h.stocked
    have hdepth : ((skipped.reverse ++ upper.reverse) ++ above).length =
        above.length + (upper ++ skipped).length := by
      simp only [List.length_append, List.length_reverse]
      omega
    refine (Journaled.Meets.lift (lessen_meets hmemory)).bind fun memory hm => ?_
    refine (Journaled.Meets.lift (hrest.replay_meets hM hs₂)).bind fun s₃ ⟨hs₃, hlast₃⟩ =>
      Journaled.Meets.pure ?_
    rw [hedges₁] at hstocked hready hplace hlevels
    have hready' : Ready ℓ ((second :: rest).reverse ++
        { first with space := some s₂, memory := s₂.memory } ::
          ((skipped.reverse ++ upper.reverse) ++ above)) :=
      hready.exchange (fun _ => rfl) rfl rfl id
    have hequipped : Equipped M ℓ
        { e' with
          statistics
          path := { e'.path with
            edges := (second :: rest).reverse ++
              { first with space := some s₂, memory := s₂.memory } ::
                ((skipped.reverse ++ upper.reverse) ++ above)
            memory := memory + s₂.memory }
          distance := rest.length + 2 } := by
      refine ⟨h.balanced.exchange hedges₁ ?_ rfl, hstocked.store (hdepth ▸ hs₂) _⟩
      show memory + s₂.memory + first.memory = e'.path.memory + s₂.memory
      omega
    refine ⟨hequipped, hcurrent, hbound, ?_, hafter ▸ hs₃, .inr ⟨hready', ?_⟩, ?_⟩
    · refine (Path.levels_exchange ?_ ?_).trans_le hlevels <;> rfl
    · refine (placeBelow_exchange ?_ ?_).trans hplace <;> rfl
    refine delivers_of_replay hequipped hready' (show _ = (second :: rest).reverse ++ _ from rfl)
      (List.cons_ne_nil _ _) fun top htop => hlast₃ top ?_
    rwa [List.getLast?_cons_cons]

/-- The node that the path points to is rebuilt, or a node above it turns out to be failed. -/
theorem rebuild_meets (hM : M.Closed P) (h : e.Equipped M ℓ) (hready : Ready ℓ e.path.edges)
    (hbound : ∀ b ∈ bound, M.found b.best) :
    Journaled.Meets P (e.rebuild bound) (Rebuilds M ℓ e) := by
  obtain ⟨top, edges, hedges⟩ : ∃ top edges, e.path.edges = top :: edges := by
    obtain ⟨d, hd, -⟩ := hready.restorable.hasCopy
    exact List.exists_cons_of_ne_nil (List.ne_nil_of_mem hd)
  by_cases hreuse : top.space.isSome = true ∧ top.isRightmost = true
  · obtain ⟨hspace, hr⟩ := hreuse
    obtain ⟨copy, hcopy⟩ := Option.isSome_iff_exists.1 hspace
    have hrebuild : e.rebuild bound = e.reuseTop top copy edges bound := by
      unfold rebuild
      rw [hedges]
      dsimp only
      rw [hcopy, hr]
    rw [hrebuild]
    exact reuseTop_meets hM h hedges hcopy hr (hready.fresh top (by rw [hedges]; rfl)) hbound
  have hfar : top.space.isSome = true → top.isRightmost = false := fun hspace => by
    simpa [hspace] using hreuse
  obtain ⟨⟨below, edge, copy, above⟩, hsplit⟩ := Option.isSome_iff_exists.1
    (Path.isSome_splitAtCopy?_iff.2 (hedges ▸ hready.restorable.hasCopy))
  obtain ⟨hpath, hcopy⟩ := Path.edges_of_splitAtCopy? hsplit
  have hnone := Path.none_of_splitAtCopy? hsplit
  have hpath : e.path.edges = below ++ edge :: above := hedges.trans hpath
  rw [rebuild_eq hedges hfar hsplit]
  have hdistant : Equipped M ℓ { e with distance := below.length + 1 } := ⟨h.balanced, h.stocked⟩
  refine (refreshCopy_meets hM hdistant hpath hcopy hbound).bind
    fun (status, copy', e', bound') ⟨hs, hequipped, hedges', hcurrent, hbound'⟩ => ?_
  dsimp only at hs hequipped hedges' hcurrent hbound' ⊢
  have hlength : e'.path.edges.length = e.path.edges.length := by
    rw [hedges', hpath]
    simp
  have hlevels : Path.levels ℓ e'.path.edges = Path.levels ℓ e.path.edges := by
    rw [hedges', hpath]
    exact Path.levels_exchange rfl rfl
  have hplace : placeBelow ℓ e'.path.edges = placeBelow ℓ e.path.edges := by
    rw [hedges', hpath]
    exact placeBelow_exchange rfl rfl
  have hready' : Ready ℓ e'.path.edges := by
    rw [hedges']
    exact (hpath ▸ hready).exchange (fun _ => rfl) rfl rfl id
  have hsegment : e'.path.edges =
      ({ edge with space := some copy' } :: below.reverse).reverse ++ above := by
    rw [hedges']
    simp
  obtain ⟨hchained, hafter⟩ :=
    (hedges' ▸ hequipped.stocked).chained (hedges' ▸ hready'.restorable) hnone
  rw [← hedges', hplace] at hafter
  by_cases hf : status = .failed
  · rw [if_pos hf]
    refine failAt_meets hM hequipped hlength hlevels.le hcurrent hbound' ?_
    rw [hpath, List.length_append, List.length_cons]
    omega
  rw [if_neg hf]
  by_cases hnear : e'.distance < e'.exploration.adaptiveDistance
  · rw [if_pos hnear]
    refine (Journaled.Meets.lift (hchained.replay_meets hM hs)).bind fun s ⟨hs, hlast⟩ =>
      Journaled.Meets.pure ⟨hequipped, hcurrent, hbound', hlevels.le, hafter ▸ hs,
        .inr ⟨hready', hplace⟩, ?_⟩
    exact delivers_of_replay hequipped hready' hsegment (List.cons_ne_nil _ _) hlast
  · rw [if_neg hnear]
    exact replayHalfway_meets hM hs hequipped hready' hsegment hchained hafter hplace
      (List.cons_ne_nil _ _) hlength hlevels.le hcurrent hbound'

/-! ### The operations of an explorer -/

/-- The next node is given out. If it was rebuilt, then along the deepest edge. -/
def GivesOut (M : Chart) (ℓ : Nat → Place) (ρ : Place) (e : Explorer) :
    Option Space × Explorer × Option Bound → Prop
  | (node, e', bound) => e'.current = none ∧ (∀ b ∈ bound, M.found b.best) ∧
      (e.current = none → ∀ s ∈ node, e'.Delivers s) ∧
      ∃ ρ', Sustained M ℓ ρ' { e' with current := node } ∧
        backlog ℓ ρ' { e' with current := node } ≤ e.backlog ℓ ρ

theorem nextNodeWithin_meets (hM : M.Closed P) {steps : Nat} (h : e.Sustained M ℓ ρ)
    (hbound : ∀ b ∈ bound, M.found b.best) (hsteps : e.path.edges.length < steps) :
    Journaled.Meets P (nextNodeWithin steps e bound) (GivesOut M ℓ ρ e) := by
  induction steps generalizing e bound ρ with
  | zero => exact absurd hsteps (Nat.not_lt_zero _)
  | succ steps ih =>
    rw [nextNodeWithin]
    cases hcurrent : e.current with
    | some s =>
      refine Journaled.Meets.pure ⟨rfl, hbound, fun hnone => ?_, ρ,
        ⟨⟨h.balanced, h.stocked⟩, fun s' hs' => ?_, fun hnone => ?_⟩, ?_⟩
      · rw [hcurrent] at hnone
        cases hnone
      · exact h.current s' (hcurrent.trans hs')
      · cases hnone
      · unfold backlog
        rw [hcurrent]
    | none =>
      dsimp only
      by_cases hempty : e.path.isEmpty = true
      · rw [if_pos hempty]
        refine Journaled.Meets.pure ⟨hcurrent, hbound, fun _ => nofun, ρ,
          ⟨⟨h.balanced, h.stocked⟩, nofun, fun _ => h.ready hcurrent⟩, ?_⟩
        unfold backlog
        rw [hcurrent]
      rw [if_neg hempty]
      have hne : e.path.edges ≠ [] := fun hnil => hempty (List.isEmpty_iff.2 hnil)
      obtain ⟨hready, rfl⟩ := h.ready hcurrent hne
      have hbacklog : e.backlog ℓ (placeBelow ℓ e.path.edges) =
          (placeBelow ℓ e.path.edges).length ::ₘ Path.levels ℓ e.path.edges :=
        if_neg fun hall => hne hall.2
      refine (rebuild_meets hM h.toEquipped hready hbound).bind
        fun (node, e₁, bound₁) ⟨hequipped, hcurrent₁, hbound₁, hlevels, hnode⟩ => ?_
      dsimp only at hequipped hcurrent₁ hbound₁ hlevels hnode ⊢
      rw [hcurrent] at hcurrent₁
      cases node with
      | some s =>
        obtain ⟨hs, hmoored, hdelivers⟩ := hnode
        refine Journaled.Meets.pure ⟨hcurrent₁, hbound₁, fun _ s' hs' => ?_,
          placeBelow ℓ e.path.edges, ⟨⟨hequipped.balanced, hequipped.stocked⟩, fun s' hs' => ?_,
            nofun⟩, ?_⟩
        · cases hs'
          exact hdelivers
        · cases hs'
          exact ⟨hs, hmoored⟩
        · rw [hbacklog]
          exact Multiset.cons_le_cons _ hlevels
      | none =>
        have hshorter : e₁.path.edges.length < e.path.edges.length := hnode
        refine (Journaled.Meets.lift (Path.advance_meets hequipped.balanced)).bind fun p hp => ?_
        have hle := Path.length_advancedEdges_le e₁.path.edges
        have hleft := backlog_advanced_le (ℓ := ℓ) hcurrent₁ hp
        refine (ih (.of_advanced hequipped hcurrent₁ hp) hbound₁ ?_).mono
          fun (node, e₂, bound₂) ⟨hcurrent₂, hbound₂, hdelivers, ρ', hsustained, hbacklog₂⟩ =>
            ⟨hcurrent₂, hbound₂, fun _ => hdelivers hcurrent₁, ρ', hsustained, ?_⟩
        · show p.edges.length < steps
          rw [hp.edges]
          omega
        · rw [hbacklog]
          exact (hbacklog₂.trans (hleft.trans hlevels)).trans (Multiset.le_cons_self _ _)

theorem nextNode_meets (hM : M.Closed P) (h : e.Sustained M ℓ ρ)
    (hbound : ∀ b ∈ bound, M.found b.best) :
    Journaled.Meets P (e.nextNode bound) (GivesOut M ℓ ρ e) :=
  nextNodeWithin_meets hM h hbound (Nat.lt_succ_self _)

/-- The new edge of a node that is split is restorable. Its node has the place of the one that was
split. -/
theorem Equipped.of_split {p : Path} {choice : Choice} {copied : Prop}
    [Decidable copied] {id : NodeId} (h : e.Equipped M ℓ) (hmoored : e.Moored ℓ ρ)
    (hs : M.stands ρ s) (hsplits : M.splits ρ choice)
    (htwo : 2 ≤ choice.alternatives) (hcopied : e.distance = 0 → copied)
    (hp : e.path.Becomes (⟨if copied then some s else none,
      ((if copied then some s else none).map (·.memory)).getD 0, choice, 0,
      choice.alternatives - 1, id⟩ :: Path.vacatedEdges e.path.edges) p) :
    ∃ ℓ', Stocked M ℓ' p.edges ∧ Ready ℓ' p.edges ∧ placeBelow ℓ' p.edges = (choice, 0) :: ρ ∧
      Path.levels ℓ' p.edges ≤
        Path.levels ℓ e.path.edges +
          Multiset.replicate (choice.alternatives - 1) (ρ.length + 1) := by
  obtain ⟨hstocked, hfresh⟩ := h.stocked.vacated
  have hlevels := Path.levels_vacatedEdges_le (ℓ := ℓ) e.path.edges
  rw [hp.edges]
  set new : Edge := ⟨if copied then some s else none,
    ((if copied then some s else none).map (·.memory)).getD 0, choice, 0,
    choice.alternatives - 1, id⟩ with hnew
  let ℓ' := Function.update ℓ (Path.vacatedEdges e.path.edges).length ρ
  have hlast : ℓ' (Path.vacatedEdges e.path.edges).length = ρ := Function.update_self ..
  have heq : ∀ k < (Path.vacatedEdges e.path.edges).length, ℓ k = ℓ' k := fun k hk =>
    (Function.update_of_ne hk.ne _ _).symm
  have hrestorable : Restorable ℓ' (new :: Path.vacatedEdges e.path.edges) := by
    by_cases hc : copied
    · refine .copy ?_
      rw [hnew]
      dsimp only
      rw [if_pos hc]
      rfl
    · obtain ⟨hready, hplace⟩ := hmoored.resolve_left fun h0 => hc (hcopied h0)
      have hvacated := hready.vacated
      rw [← hvacated] at hready hplace
      refine .link (hlast.trans ?_) (hready.restorable.congr heq)
      rw [← hplace]
      exact hready.restorable.placeBelow_eq heq
  have hholds : new.Holds M (ℓ' (Path.vacatedEdges e.path.edges).length) := by
    rw [hlast]
    refine ⟨hsplits, ?_, Nat.zero_le _, fun s' hs' => ?_, fun hnone => ?_⟩
    · show choice.alternatives - 1 < choice.alternatives
      omega
    · change s' ∈ (if copied then some s else none) at hs'
      split at hs'
      · cases hs'
        exact hs
      · cases hs'
    · change (if copied then some s else none) = none at hnone
      show ((if copied then some s else none).map (·.memory)).getD 0 = 0
      rw [hnone]
      rfl
  refine ⟨ℓ', .cons hholds (fun _ => hrestorable) hfresh (hstocked.congr heq),
    ⟨hrestorable, fun d hd hu => ?_⟩, ?_, ?_⟩
  · cases hd
    exact absurd (Edge.isUsedUp_iff.1 hu) (Nat.not_lt_zero _)
  · show (choice, min 0 (choice.alternatives - 1)) :: ℓ' (Path.vacatedEdges e.path.edges).length = _
    rw [hlast, Nat.zero_min]
  · show Multiset.replicate (choice.alternatives - 1 - 0) _ + Path.levels ℓ' _ ≤ _
    rw [hlast, Nat.sub_zero, ← Path.levels_congr heq, add_comm]
    exact Multiset.add_le_add_right hlevels

/-- A node at a place is replaced by its children, which stand somewhere, or by nothing. -/
def Spends (M : Chart) (ρ : Place) (before after : Multiset Nat) : Prop :=
  ∃ rest n, before = ρ.length ::ₘ rest ∧ after ≤ rest + Multiset.replicate n (ρ.length + 1) ∧
    (0 < n → ∃ c i s, M.stands ((c, i) :: ρ) s)

/-- A node is explored. -/
theorem explore_meets (hM : M.Closed P) (h : Sustained M ℓ ρ { e with current := some s })
    (hcurrent : e.current = none) : Journaled.Meets P (e.explore s) fun r =>
      (M.improves → ∀ s', r.1 = .solved s' → M.found s') ∧ ∃ ℓ' ρ', r.2.Sustained M ℓ' ρ' ∧
        Spends M ρ (backlog ℓ ρ { e with current := some s }) (r.2.backlog ℓ' ρ') := by
  have hequipped : e.Equipped M ℓ := ⟨h.balanced, h.stocked⟩
  obtain ⟨hs, hmoored⟩ := h.current s rfl
  have hbacklog : backlog ℓ ρ { e with current := some s } =
      ρ.length ::ₘ Path.levels ℓ e.path.edges := if_neg fun hall => by cases hall.1
  rw [hbacklog]
  unfold explore
  extract_lets statistics visit
  suffices hvisit : ∀ edge, Journaled.Meets P (visit edge) _ by
    split
    · refine (Journaled.Meets.lift (edgeInfo_meets hM hequipped)).bind fun edge _ => ?_
      rw [pure_bind]
      exact hvisit (some edge)
    · rw [pure_bind]
      exact hvisit none
  intro edge
  refine (hM.statusOf hs _).bind fun (status, s₁, counted) ⟨hs₁, hfound, hstatus⟩ => ?_
  dsimp only at hs₁ hfound hstatus ⊢
  cases status with
  | failed | solved =>
    refine (Journaled.Meets.lift (Path.advance_meets hequipped.balanced)).bind fun p hp =>
      Journaled.Meets.pure ⟨fun himproves s' hs' => ?_, ℓ, placeBelow ℓ p.edges,
        Sustained.reportNode ?_ _ _ _, Path.levels ℓ e.path.edges, 0, rfl, ?_, fun hlt =>
          absurd hlt (lt_irrefl 0)⟩
    · cases hs' <;> exact hfound himproves rfl
    · have hadvanced := Sustained.of_advanced hequipped hcurrent hp
      exact ⟨⟨hadvanced.balanced, hadvanced.stocked⟩, hadvanced.current, hadvanced.ready⟩
    · rw [Multiset.replicate_zero, add_zero, backlog_reportNode]
      exact backlog_advanced_le hcurrent hp
  | branch =>
    refine (Journaled.Meets.lift (hM.choice hs hstatus).self).bind
      fun (choice, split) ⟨⟨hsplits, hsplit⟩, hchoice⟩ => ?_
    dsimp only at hsplits hsplit ⊢
    have htwo := Space.two_le_alternatives hchoice
    refine (Journaled.Meets.lift (Path.push_meets hequipped.balanced choice _ _)).bind
      fun p hp => ?_
    refine (Journaled.Meets.lift (hM.commit hsplit hsplits (i := 0) (by omega))).bind
      fun first hfirst => ?_
    obtain ⟨ℓ', hstocked, hready, hplace, hlevels⟩ :=
      hequipped.of_split hmoored hs₁ hsplits htwo .inl hp
    refine Journaled.Meets.pure
      ⟨fun _ => nofun, ℓ', (choice, 0) :: ρ, Sustained.reportNode ?_ _ _ _,
        Path.levels ℓ e.path.edges, choice.alternatives, rfl, ?_,
        fun _ => ⟨choice, 0, first, hfirst⟩⟩
    · refine ⟨⟨hp.balanced, hstocked⟩, fun s' hs' => ?_, nofun⟩
      cases hs'
      exact ⟨hfirst, .inr ⟨hready, hplace⟩⟩
    · rw [backlog_reportNode]
      have halternatives : choice.alternatives = choice.alternatives - 1 + 1 := by omega
      rw [halternatives, Multiset.replicate_succ, Multiset.add_cons]
      exact Multiset.cons_le_cons _ hlevels

end Memory

end Explorer

end ConstraintSearch
