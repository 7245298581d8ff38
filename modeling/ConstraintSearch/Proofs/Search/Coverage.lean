import ConstraintSearch.Proofs.Search.Explorer

/-!
# What lies below an explorer

An assignment lies below the current node of an explorer if the domains of the node have it, and
below an edge of the path if an alternative that is left has it. The node of an edge is the copy of
the edge or, if there is none, the one below the alternative that is taken at the edge above it.

* `Space.Admits`, `Path.Reaches`, `Path.Leaves`, `Explorer.Admits`: what lies below a space, below
  the node of an edge, below the alternatives that are left, and below an explorer;
* `Explorer.Explores.admits_iff`: the solutions below an explorer are those of its frontier.
-/

namespace ConstraintSearch

variable {δ : Prop} {t : Tree} {limit : Option Nat} {mark : Nat} {f : Fork} {trail : List Fork}
  {Q : Set Box} {F : Frontier} {a : Assignment} {s : Space}

/-- The space has not failed, and its domains have the assignment. -/
def Space.Admits (s : Space) (a : Assignment) : Prop := s.isFailed = false ∧ a.Within s.store

namespace Path

/-- The assignment lies below the node at which the first edge begins. -/
def Reaches (a : Assignment) : List Edge → Prop
  | [] => False
  | [e] => ∃ s ∈ e.space, s.Admits a
  | e :: above :: edges =>
      match e.space with
      | some s => s.Admits a
      | none => Reaches a (above :: edges) ∧ above.choice.decision.Admits a above.taken

/-- The assignment lies below an alternative that is left. -/
def Leaves (a : Assignment) : List Edge → Prop
  | [] => False
  | e :: edges =>
      (Reaches a (e :: edges) ∧
        ∃ i, e.alternative < i ∧ i ≤ e.last ∧ e.choice.decision.Admits a i) ∨ Leaves a edges

/-- The assignment lies below the node to which the path leads. -/
def Leads (a : Assignment) : List Edge → Prop
  | [] => False
  | e :: edges => Reaches a (e :: edges) ∧ e.choice.decision.Admits a e.taken

end Path

/-- The assignment lies below the current node or below an alternative that is left on the path. If
there is no current node, then the one to which the path leads is rebuilt next. -/
def Explorer.Admits (e : Explorer) (a : Assignment) : Prop :=
  (match e.current with
    | some s => s.Admits a
    | none => Path.Leads a e.path.edges) ∨ Path.Leaves a e.path.edges

/-! ### Frontiers -/

theorem Tree.Represents.admits_iff (h : t.Represents δ s Q) (ha : t.Solution a) :
    s.Admits a ↔ a.box ∈ Q := by
  rcases h with ⟨hfailed, -, hnone⟩ | h
  · constructor
    · rintro ⟨halive, -⟩
      rw [hfailed] at halive
      cases halive
    · exact fun hmem => absurd ha.2 (hnone _ hmem)
  · exact ⟨fun hadmits => h.frames.mem_of_within hadmits.2,
      fun hmem => ⟨h.alive, h.frames.within_of_mem ha hmem⟩⟩

theorem Rebuildable.reaches_iff (h : Rebuildable trail) (hvalid : Trail δ t mark trail)
    (ha : t.Solution a) :
    ∀ f ∈ trail.head?, (Path.Reaches a (trail.map Fork.edge) ↔ a.box ∈ f.region) := by
  have hcopy {f : Fork} {trail : List Fork} (h : Trail δ t mark (f :: trail)) {s : Space}
      (hs : f.edge.space = some s) : s.Admits a ↔ a.box ∈ f.region :=
    (h.copy hs).of_aim.admits_iff ha
  have hfirst {f : Fork} {trail : List Fork} (h : Trail δ t mark (f :: trail)) {s : Space}
      (hs : f.edge.space = some s) :
      Path.Reaches a ((f :: trail).map Fork.edge) ↔ a.box ∈ f.region := by
    rw [← hcopy h hs]
    cases trail with
    | nil => simp only [List.map_cons, List.map_nil, Path.Reaches, hs, Option.mem_some_iff,
        exists_eq_left']
    | cons g trail => simp only [List.map_cons, Path.Reaches, hs]
  induction h with
  | @copy f trail hspace =>
    rintro f' hf'
    cases hf'
    obtain ⟨s, hs⟩ := Option.isSome_iff_exists.1 hspace
    exact hfirst hvalid hs
  | @step f g trail hregion hg _ ih =>
    rintro f' hf'
    cases hf'
    cases hs : f.edge.space with
    | some s => exact hfirst hvalid hs
    | none =>
      have hsound := hvalid.tail.head
      have habove := ih hvalid.tail g rfl
      rw [List.map_cons] at habove
      simp only [List.map_cons, Path.Reaches, hs]
      rw [habove, hregion, hsound.taken_eq hg, ← Decision.covers_box]
      exact Iff.rfl

/-- A solution lies below an alternative that is left if it is in a part that is left. -/
theorem Trail.leaves_iff (h : Trail δ t mark trail) (ha : t.Solution a) :
    Path.Leaves a (trail.map Fork.edge) ↔ ∃ f ∈ trail, a.box ∈ f.left := by
  induction h with
  | nil => simp [Path.Leaves]
  | @cons f trail hf hcopy hnested hrebuild h ih =>
    have hvalid := Trail.cons hf hcopy hnested hrebuild h
    rw [List.map_cons, Path.Leaves, List.exists_mem_cons_iff, ih]
    refine or_congr_left ?_
    by_cases hr : f.edge.isRightmost = true
    · refine iff_of_false ?_ (Fork.not_mem_left_of_isRightmost hr)
      rintro ⟨-, i, hlt, hi, -⟩
      have hle : f.edge.last ≤ f.edge.alternative := of_decide_eq_true hr
      omega
    · have hreaches := (hrebuild.resolve_left hr).reaches_iff hvalid ha f rfl
      rw [List.map_cons] at hreaches
      rw [hreaches]
      constructor
      · rintro ⟨hregion, i, hlt, hi, hadmits⟩
        exact ⟨i, hlt, hi, hregion, Decision.covers_box.2 hadmits⟩
      · rintro ⟨i, hlt, hi, hregion, hkeeps⟩
        exact ⟨hregion, i, hlt, hi, Decision.covers_box.1 hkeeps⟩

theorem Anchored.leads_iff (h : Anchored (f :: trail) Q) (hvalid : Trail δ t mark (f :: trail))
    (ha : t.Solution a) : Path.Leads a ((f :: trail).map Fork.edge) ↔ a.box ∈ Q := by
  obtain rfl : f.below = Q := Option.some.inj h.below
  have hreaches := h.rebuildable.reaches_iff hvalid ha f rfl
  rw [List.map_cons] at hreaches
  rw [List.map_cons, Path.Leads, hreaches, hvalid.head.taken_eq (h.fresh f rfl),
    ← Decision.covers_box]
  exact Iff.rfl

/-- The solutions below an explorer are those of its frontier. -/
theorem Explorer.Explores.admits_iff {e : Explorer} (h : e.Explores δ t limit mark F)
    (hgoal : t.goal = Set.univ) (ha : t.Solution a) : e.Admits a ↔ a.box ∈ F.region := by
  unfold Admits Frontier.region
  rw [h.keeps.carries.edges, h.keeps.valid.leaves_iff ha]
  refine or_congr_left ?_
  cases hcurrent : e.current with
  | some s =>
    obtain ⟨Q, hahead, hpoised⟩ := h.current s hcurrent
    have hs := hpoised.represents
    rw [hgoal, Set.inter_univ] at hs
    simp only [hs.admits_iff ha, hahead, Option.mem_some_iff, exists_eq_left']
  | none =>
    obtain ⟨hF, hanchored⟩ := h.rebuildable hcurrent
    have hvalid := h.keeps.valid
    generalize F.trail = trail at hF hanchored hvalid
    subst hF
    cases trail with
    | nil => simp [Path.Leads, Frontier.ofTrail]
    | cons f trail =>
      refine ((hanchored f rfl).leads_iff hvalid ha).trans ?_
      simp [Frontier.ofTrail]

end ConstraintSearch
