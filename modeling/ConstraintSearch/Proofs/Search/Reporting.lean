import ConstraintSearch.Proofs.Search.Custody

/-!
# The edge that is reported

A trace names the edge that leads to each node. It is read off the top of the path when the node is
explored: the alternative that the edge points to. An edge whose copy was used up points one too
far.

* `Edge.committed`: the alternative of an edge that was committed last;
* `Edge.IsOverrun`: the edge points to an alternative that was given away;
* `Explorer.Reached.reports_edge`: unless the edge at the top is overrun, the alternative that was
  committed last is reported;
* `Explorer.exists_edge_given_away`: an overrun edge is reported as one that a thief has got.
-/

namespace ConstraintSearch

variable {M : Chart} {ρ : Place}

/-! ### Edges -/

namespace Edge

variable {d : Edge}

/-- The alternative that was committed last, one of those that the path has to explore. -/
def committed (d : Edge) : Nat := min d.alternative d.last

/-- The copy was used up, and the alternative behind the last one was given away. -/
def IsOverrun (d : Edge) : Prop := d.isUsedUp = true ∧ d.last + 1 < d.choice.alternatives

theorem Holds.taken_eq (hd : d.Holds M ρ) (h : ¬d.IsOverrun) : d.taken = d.committed := by
  have hlast := hd.last
  have halternative := hd.alternative
  unfold taken committed
  by_cases hu : d.isUsedUp = true
  · have hall : ¬d.last + 1 < d.choice.alternatives := fun hlt => h ⟨hu, hlt⟩
    have hlt := isUsedUp_iff.1 hu
    omega
  · rw [isUsedUp_iff] at hu
    omega

theorem Holds.taken_of_isOverrun (hd : d.Holds M ρ) (h : d.IsOverrun) : d.taken = d.last + 1 := by
  obtain ⟨hu, hlt⟩ := h
  have halternative := hd.alternative
  rw [isUsedUp_iff] at hu
  unfold taken
  omega

end Edge

namespace Explorer

section Memory

variable [MemoryMeasure] {e e' : Explorer} {s : Space} {bound bound' : Option Bound}

/-- **The reported edge.** Whenever a node is rebuilt, an alternative of the edge at the top of the
path was committed last, one that was not given away; then the node was constrained at most. The
edge is reported with this alternative, unless it is overrun: then the alternative behind it is
reported, which was given away. This happens beyond the no-good depth only. -/
theorem Reached.reports_edge (h : e.Reached (fun _ => True) none) (hcurrent : e.current = none)
    (hnext : (e.nextNode bound).Returns (some s, e', bound')) :
    ∃ top edges, e'.path.edges = top :: edges ∧
      (∃ s₁ s₂ : Space, s₁.commit top.choice top.committed = .ok s₂ ∧
        (s = s₂ ∨ ∃ best, s₂.constrain best = .ok s)) ∧
      top.committed ≤ top.last ∧
      Yields False e'.path.topEdge? fun reported => ∃ info, reported = some info ∧
        info.parent = some top.node ∧
        (¬top.IsOverrun → info.alternative = top.committed) ∧
        (top.IsOverrun → info.alternative = top.last + 1 ∧
          e'.path.noGoodDepth < e'.path.length) := by
  have hM := Space.Family.trivial.closed
  obtain ⟨-, ℓ, ρ, hsustained⟩ := h.sustained Space.Family.trivial
  obtain ⟨-, -, hdelivers, ρ', hsustained', -⟩ :=
    (nextNode_meets hM hsustained fun _ _ => trivial).of_returns hnext
  obtain ⟨top, edges, hedges, hcommit, hused⟩ := hdelivers hcurrent s rfl
  obtain ⟨place, htop⟩ := hsustained'.stocked.exists_holds top (by
    rw [show ({ e' with current := some s } : Explorer).path.edges = top :: edges from hedges]
    exact List.mem_cons_self)
  refine ⟨top, edges, hedges, hcommit, Nat.min_le_right _ _, ?_⟩
  refine (Path.yields_topEdge? hedges htop.last).mono ?_
  rintro reported ⟨info, hinfo, hnode, htaken⟩
  refine ⟨info, hinfo, hnode, fun hover => ?_, fun hover => ⟨?_, hused hover.1⟩⟩
  · exact htaken.trans (htop.taken_eq hover)
  · exact htaken.trans (htop.taken_of_isOverrun hover)

/-- The last alternative of the root is stolen, then the first one is explored. Whether the next
node is rebuilt, and the edge that was given away and the explorer have a property then. -/
def rebuildsAfterTheft (noGoodsLimit : Nat) (property : EdgeInfo → Explorer → Bool)
    (root : Space) : Bool :=
  (firstTheft { noGoodsLimit } root).check fun (victim, theft) =>
    match theft with
    | none => false
    | some (_, edge, path) => (visit { victim with path }).check fun e =>
        e.current.isNone && (e.nextNode none).check fun (node, e', _) =>
          node.isSome && property edge e'

theorem exists_of_rebuildsAfterTheft {noGoodsLimit : Nat} {property : EdgeInfo → Explorer → Bool}
    {root : Space} (h : rebuildsAfterTheft noGoodsLimit property root = true) :
    ∃ victim stolen edge path e s e' bound,
      Reached (fun _ => True) victim none ∧
      victim.path.steal? 0 = .ok (some (stolen, edge, path)) ∧
      (visit { victim with path }).Returns e ∧ Reached (fun _ => True) e none ∧
      e.current = none ∧ (e.nextNode none).Returns (some s, e', bound) ∧
      property edge e' = true := by
  obtain ⟨⟨victim, theft⟩, hvictim, h⟩ := Journaled.exists_of_check h
  obtain ⟨hreached, hsteal⟩ := Reached.of_firstTheft (C := fun _ => True) trivial hvictim
  cases theft with
  | none => cases h
  | some theft =>
    obtain ⟨stolen, edge, path⟩ := theft
    obtain ⟨e, hvisit, h⟩ := Journaled.exists_of_check h
    obtain ⟨hcurrent, h⟩ := Bool.and_eq_true_iff.1 h
    obtain ⟨⟨node, e', bound⟩, hnext, h⟩ := Journaled.exists_of_check h
    obtain ⟨hnode, hproperty⟩ := Bool.and_eq_true_iff.1 h
    obtain ⟨s, rfl⟩ := Option.isSome_iff_exists.1 hnode
    exact ⟨victim, stolen, edge, path, e, s, e', bound, hreached, hsteal, hvisit,
      (hreached.steal hsteal).visit hvisit, Option.isNone_iff_eq_none.1 hcurrent, hnext, hproperty⟩

end Memory

/-- Three alternatives. -/
def threefold : List Statement :=
  [.newInt 0 2, .branch (.int (.ofVariables [.root 0] .inputOrder .all))]

/-- The third alternative was stolen, and the second one is reported where it is explored. -/
theorem Reached.reports_edge_threefold : ∃ e s e' bound, Reached (fun _ => True) e none ∧
    e.current = none ∧ (e.nextNode none).Returns (some s, e', bound) ∧
    Yields False e'.path.topEdge? fun reported => ∃ info, reported = some info ∧
      info.alternative = 1 := by
  have hcheck : buildsTo .costOrdered threefold (rebuildsAfterTheft 128 fun _ e' =>
      e'.path.edges.head?.any fun top => !top.isUsedUp && top.committed == 1) = true := by
    decide +kernel
  obtain ⟨root, -, hproperty⟩ := exists_built_of_buildsTo hcheck
  obtain ⟨-, -, -, -, e, s, e', bound, -, -, -, hreached, hcurrent, hnext, hproperty⟩ :=
    exists_of_rebuildsAfterTheft hproperty
  obtain ⟨top, edges, hedges, -, -, hreports⟩ := hreached.reports_edge hcurrent hnext
  rw [hedges, List.head?_cons, Option.any_some, Bool.and_eq_true_iff, Bool.not_eq_true',
    beq_iff_eq] at hproperty
  refine ⟨e, s, e', bound, hreached, hcurrent, hnext, hreports.mono ?_⟩
  rintro reported ⟨info, hinfo, -, hright, -⟩
  have hover : ¬top.IsOverrun := fun hover => Bool.false_ne_true (hproperty.1.symm.trans hover.1)
  exact ⟨info, hinfo, (hright hover).trans hproperty.2⟩

/-- A thief gets the third alternative. If no no-goods are kept, then the second one is explored and
the edge of the thief is reported. -/
theorem exists_edge_given_away : ∃ victim stolen edge path e s e' bound,
    Reached (fun _ => True) victim none ∧
    victim.path.steal? 0 = .ok (some (stolen, edge, path)) ∧
    (visit { victim with path }).Returns e ∧ Reached (fun _ => True) e none ∧ e.current = none ∧
    (e.nextNode none).Returns (some s, e', bound) ∧ e'.path.topEdge? = .ok (some edge) ∧
    edge.alternative = 2 ∧ ∃ top ∈ e'.path.edges.head?, top.committed = 1 ∧ top.last = 1 := by
  have hcheck : buildsTo .costOrdered threefold (rebuildsAfterTheft 0 fun edge e' =>
      (match e'.path.topEdge? with
        | .ok reported => decide (reported = some edge)
        | .error _ => false) &&
      edge.alternative == 2 &&
      e'.path.edges.head?.any fun top => top.committed == 1 && top.last == 1) = true := by
    decide +kernel
  obtain ⟨root, -, hproperty⟩ := exists_built_of_buildsTo hcheck
  obtain ⟨victim, stolen, edge, path, e, s, e', bound, hvictim, hsteal, hvisit, hreached, hcurrent,
    hnext, hproperty⟩ := exists_of_rebuildsAfterTheft hproperty
  rw [Bool.and_eq_true_iff, Bool.and_eq_true_iff, beq_iff_eq, Option.any_eq_true] at hproperty
  obtain ⟨⟨hreported, halternative⟩, top, htop, hcommitted⟩ := hproperty
  rw [Bool.and_eq_true_iff, beq_iff_eq, beq_iff_eq] at hcommitted
  refine ⟨victim, stolen, edge, path, e, s, e', bound, hvictim, hsteal, hvisit, hreached, hcurrent,
    hnext, ?_, halternative, top, htop, hcommitted⟩
  split at hreported <;> rename_i hedge
  · rw [hedge, of_decide_eq_true hreported]
  · cases hreported

end Explorer

end ConstraintSearch
