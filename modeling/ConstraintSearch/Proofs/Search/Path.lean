import ConstraintSearch.Proofs.Search.Trail

/-!
# The theory of paths

The operations of a path are operations on the trail of its edges. A path also counts the memory of
its copies and the edges with alternatives; the counters never fall below zero.

* `Path.Carries`: the path has the edges of a trail, and its counters are right;
* `Path.push_law`, `Path.advance_law`, `Path.unwind_law`: the trails after the operations.
-/

namespace ConstraintSearch

variable {δ : Prop} {t : Tree} {f : Fork} {trail above : List Fork}

/-! ### The operations of a path -/

theorem yields_lessen {counter amount : Nat} (h : amount ≤ counter) :
    Yields δ (lessen counter amount) (· = counter - amount) :=
  yields_iff_meets.2 (lessen_meets h)

theorem EdgeInfo.yields_ofChoice (parent : NodeId) {c : Choice} {alternative : Nat}
    (h : alternative < c.alternatives) :
    Yields δ (EdgeInfo.ofChoice parent c alternative) fun info =>
      info.parent = some parent ∧ info.alternative = alternative :=
  (c.yields_describe h).bind fun _ _ => Yields.pure ⟨rfl, rfl⟩

namespace Path

/-- The edge at the top of a path is reported with the alternative that it points to. -/
theorem yields_topEdge? {p : Path} {top : Edge} {edges : List Edge}
    (hedges : p.edges = top :: edges)
    (hlast : top.last < top.choice.alternatives) : Yields δ p.topEdge? fun reported =>
      ∃ info, reported = some info ∧ info.parent = some top.node ∧
        info.alternative = top.taken := by
  unfold topEdge?
  rw [hedges]
  exact (EdgeInfo.yields_ofChoice _ (Edge.taken_lt_alternatives hlast)).bind fun info hinfo =>
    Yields.pure ⟨info, rfl, hinfo⟩

/-- The path has the edges of the trail, and has counted their copies and those with alternatives.
If there is a limit, the no-goods are taken from so many edges. -/
structure Carries (p : Path) (limit : Option Nat) (trail : List Fork) : Prop where
  noGoodDepth : ∀ n ∈ limit, p.noGoodDepth = n
  edges : p.edges = trail.map Fork.edge
  memory : p.memory = (trail.map (·.edge.memory)).sum
  work : p.edgesWithWork = trail.countP (·.edge.hasWork)

variable {p : Path} {limit : Option Nat}

theorem carries_empty {noGoodDepth : Nat} (h : ∀ n ∈ limit, noGoodDepth = n) :
    (empty noGoodDepth).Carries limit [] :=
  ⟨h, rfl, rfl, rfl⟩

theorem Carries.length (h : p.Carries limit trail) : p.length = trail.length := by
  unfold Path.length
  rw [h.edges, List.length_map]

theorem Carries.balanced (h : p.Carries limit trail) : p.Balanced where
  memory := by
    rw [h.memory, h.edges, List.map_map]
    rfl
  work := by
    rw [h.work, h.edges, List.countP_map]
    rfl

theorem Carries.of_becomes {q : Path} {trail' : List Fork} (h : p.Carries limit trail)
    (hq : p.Becomes (trail'.map Fork.edge) q) : q.Carries limit trail' where
  noGoodDepth n hn := hq.noGoodDepth.trans (h.noGoodDepth n hn)
  edges := hq.edges
  memory := by
    rw [hq.balanced.memory, hq.edges, List.map_map]
    rfl
  work := by
    rw [hq.balanced.work, hq.edges, List.countP_map]
    rfl

theorem map_advanced (trail : List Fork) :
    (advanced trail).map Fork.edge = advancedEdges (trail.map Fork.edge) := by
  induction trail with
  | nil => rfl
  | cons f trail ih =>
    rw [List.map_cons]
    unfold advanced advancedEdges
    split
    · exact ih
    · rfl

theorem advance_law (h : p.Carries limit trail) :
    Yields δ p.advance (·.Carries limit (advanced trail)) := by
  refine (yields_iff_meets.2 (advance_meets h.balanced)).mono fun q hq => h.of_becomes ?_
  rwa [map_advanced, ← h.edges]

theorem map_vacated (trail : List Fork) :
    (vacated trail).map Fork.edge = vacatedEdges (trail.map Fork.edge) := by
  cases trail with
  | nil => rfl
  | cons f trail =>
    unfold vacated vacatedEdges
    simp only [List.map_cons]
    split <;> rfl

theorem push_law (h : p.Carries limit trail) (choice : Choice) (copy : Option Space) (node : NodeId)
    (Q : Set Box) :
    Yields δ (p.push choice copy node) (·.Carries limit
      (⟨⟨copy, (copy.map (·.memory)).getD 0, choice, 0, choice.alternatives - 1, node⟩, Q⟩ ::
        vacated trail)) := by
  refine (yields_iff_meets.2 (push_meets h.balanced choice copy node)).mono fun q hq =>
    h.of_becomes ?_
  rwa [List.map_cons, map_vacated, ← h.edges]

/-- To unwind leaves as many forks as are asked for. -/
theorem unwind_law (h : p.Carries limit (above ++ trail))
    (hlast : ∀ f ∈ above ++ trail, f.edge.last < f.edge.choice.alternatives) (tracing : Tracing) :
    Yields δ (p.unwind trail.length tracing) (·.1.Carries limit trail) := by
  have hedges : p.edges = above.map Fork.edge ++ trail.map Fork.edge := by
    rw [h.edges, List.map_append]
  refine (yields_iff_meets.2 ?_).mono fun r hr => h.of_becomes hr
  rw [← List.length_map (f := Fork.edge)]
  refine unwind_meets h.balanced hedges (fun e he i hi => ?_) tracing
  rw [h.edges] at he
  obtain ⟨f, hf, rfl⟩ := List.mem_map.1 he
  have hdescribe := EdgeInfo.yields_ofChoice (δ := δ) f.edge.node (hi.trans_lt (hlast f hf))
  exact yields_iff_meets.1 (hdescribe.mono fun _ _ => trivial)

end Path

end ConstraintSearch
