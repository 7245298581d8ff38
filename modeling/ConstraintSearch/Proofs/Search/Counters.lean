import Mathlib.Order.Basic
import ConstraintSearch.Search.Path
import ConstraintSearch.Proofs.Faults
import Mathlib.Algebra.GroupWithZero.Nat

/-!
# The edges of a path and its counters

What the operations of a path do to its edges, whatever is stored on them. The counters of a path
are determined by its edges, and to keep them up to date never takes away more than was added.

* `Path.Balanced`: the counters are right;
* `Path.pop_meets`, `Path.push_meets`, `Path.advance_meets`, `Path.unwind_meets`: the edges after
  the operations, which keep the balance and do not fault;
* `Path.isSome_stealable?_iff`, `Path.edges_of_stealable?`: the edge from which an alternative is
  stolen, if there is one;
* `Path.exists_of_steal`: what stealing leaves.
-/

namespace ConstraintSearch

variable {P : Fault → Prop}

theorem lessen_meets {counter amount : Nat} (h : amount ≤ counter) :
    Meets P (lessen counter amount) (· = counter - amount) := by
  unfold lessen
  rw [if_pos h]
  exact rfl

theorem of_lessen {counter amount left : Nat} (h : lessen counter amount = .ok left) :
    amount ≤ counter ∧ left = counter - amount := by
  unfold lessen at h
  split at h
  · cases h
    exact ⟨‹_›, rfl⟩
  · cases h

/-! ### Edges -/

namespace Edge

variable {e : Edge}

/-- The next alternative is explored. -/
def next (e : Edge) : Edge := { e with alternative := e.alternative + 1 }

/-- The last alternative was given away. -/
def robbed (e : Edge) : Edge := { e with last := e.last - 1 }

theorem hasWork_iff : e.hasWork = true ↔ e.alternative < e.last := decide_eq_true_iff

theorem isRightmost_iff : e.isRightmost = true ↔ ¬e.hasWork = true := by
  rw [hasWork_iff, Nat.not_lt]
  exact decide_eq_true_iff

theorem isUsedUp_iff : e.isUsedUp = true ↔ e.last < e.alternative := decide_eq_true_iff

theorem taken_lt_alternatives (h : e.last < e.choice.alternatives) :
    e.taken < e.choice.alternatives := by
  unfold taken
  omega

end Edge

namespace Path

variable {p q r : Path} {e : Edge} {edges edges' below above : List Edge}

/-- To move on drops the edges without alternatives from the top, and advances the next one. -/
def advancedEdges : List Edge → List Edge
  | [] => []
  | e :: edges => if e.isRightmost then advancedEdges edges else e.next :: edges

/-- A new edge takes the place of one that is used up. -/
def vacatedEdges : List Edge → List Edge
  | [] => []
  | e :: edges => if e.isUsedUp then edges else e :: edges

theorem vacatedEdges_of_isUsedUp (h : e.isUsedUp = true) : vacatedEdges (e :: edges) = edges :=
  if_pos h

theorem vacatedEdges_of_not_isUsedUp (h : ¬e.isUsedUp = true) :
    vacatedEdges (e :: edges) = e :: edges :=
  if_neg h

/-! ### Counters -/

/-- The counters are right. -/
structure Balanced (p : Path) : Prop where
  memory : p.memory = (p.edges.map Edge.memory).sum
  work : p.edgesWithWork = p.edges.countP Edge.hasWork

theorem balanced_empty (noGoodDepth : Nat) : (empty noGoodDepth).Balanced := ⟨rfl, rfl⟩

theorem Balanced.memory_le (h : p.Balanced) (hedges : p.edges = below ++ e :: above) :
    e.memory ≤ p.memory := by
  rw [h.memory, hedges, List.map_append, List.sum_append, List.map_cons, List.sum_cons]
  omega

/-- One edge may be replaced by another one that has alternatives if it had some. -/
theorem Balanced.exchange {e' : Edge} {memory : Nat} (h : p.Balanced)
    (hedges : p.edges = below ++ e :: above) (hmemory : memory + e.memory = p.memory + e'.memory)
    (hwork : e'.hasWork = e.hasWork) :
    Balanced { p with edges := below ++ e' :: above, memory } where
  memory := by
    have hsum := h.memory
    rw [hedges, List.map_append, List.sum_append, List.map_cons, List.sum_cons] at hsum
    show memory = _
    rw [List.map_append, List.sum_append, List.map_cons, List.sum_cons]
    omega
  work := by
    show p.edgesWithWork = _
    rw [h.work, hedges, List.countP_append, List.countP_append, List.countP_cons, List.countP_cons,
      hwork]

/-- The path has got other edges, and its counters are right. -/
structure Becomes (p : Path) (edges : List Edge) (q : Path) : Prop where
  edges : q.edges = edges
  noGoodDepth : q.noGoodDepth = p.noGoodDepth
  balanced : q.Balanced

theorem Becomes.trans (h : p.Becomes edges q) (h' : q.Becomes edges' r) : p.Becomes edges' r :=
  ⟨h'.edges, h'.noGoodDepth.trans h.noGoodDepth, h'.balanced⟩

theorem pop_meets (h : p.Balanced) (hedges : p.edges = e :: edges) :
    Meets P p.pop (p.Becomes edges) := by
  have hmemory := h.memory
  have hwork := h.work
  rw [hedges, List.map_cons, List.sum_cons] at hmemory
  rw [hedges, List.countP_cons] at hwork
  unfold pop
  simp only [hedges]
  refine (lessen_meets (by omega)).bind fun memory hm => ?_
  by_cases hw : e.hasWork = true
  · rw [if_pos hw] at hwork ⊢
    refine (lessen_meets (by omega)).bind fun work hw' => Meets.pure ⟨rfl, rfl, ?_, ?_⟩
    · show memory = (edges.map Edge.memory).sum
      omega
    · show work = edges.countP Edge.hasWork
      omega
  · rw [if_neg hw] at hwork ⊢
    refine Meets.pure ⟨rfl, rfl, ?_, hwork⟩
    show memory = (edges.map Edge.memory).sum
    omega

theorem advanceWithin_meets {steps : Nat} (h : p.Balanced) (hsteps : p.length < steps) :
    Meets P (advanceWithin steps p) (p.Becomes (advancedEdges p.edges)) := by
  induction steps generalizing p with
  | zero => exact absurd hsteps (Nat.not_lt_zero _)
  | succ steps ih =>
    unfold advanceWithin
    cases hedges : p.edges with
    | nil => exact Meets.pure ⟨hedges, rfl, h⟩
    | cons e edges =>
      dsimp only
      unfold advancedEdges
      by_cases hr : e.isRightmost = true
      · rw [if_pos hr, if_pos hr]
        refine (pop_meets h hedges).bind fun q hq => ?_
        have hlength : q.length < steps := by
          unfold length at hsteps ⊢
          rw [hedges, List.length_cons] at hsteps
          rw [hq.edges]
          omega
        exact (ih hq.balanced hlength).mono fun r hr => hq.edges ▸ hq.trans hr
      · rw [if_neg hr, if_neg hr]
        have hmemory := h.memory
        have hwork := h.work
        have hhas : e.hasWork = true := by
          by_contra hnone
          exact hr (Edge.isRightmost_iff.2 hnone)
        rw [hedges] at hmemory
        rw [hedges, List.countP_cons, if_pos hhas] at hwork
        -- The edge keeps its place in the count unless its last alternative is taken now.
        change Meets P (do
          let edgesWithWork ←
            if e.next.hasWork then pure p.edgesWithWork else lessen p.edgesWithWork 1
          return { p with edges := e.next :: edges, edgesWithWork }) _
        by_cases hnext : e.next.hasWork = true
        · rw [if_pos hnext]
          refine Meets.pure ⟨rfl, rfl, hmemory, ?_⟩
          show p.edgesWithWork = (e.next :: edges).countP Edge.hasWork
          rw [List.countP_cons, if_pos hnext]
          exact hwork
        · rw [if_neg hnext]
          refine (lessen_meets (by omega)).bind fun work hw => Meets.pure ⟨rfl, rfl, hmemory, ?_⟩
          show work = (e.next :: edges).countP Edge.hasWork
          rw [List.countP_cons, if_neg hnext]
          omega

theorem advance_meets (h : p.Balanced) : Meets P p.advance (p.Becomes (advancedEdges p.edges)) :=
  advanceWithin_meets h (Nat.lt_succ_self _)

theorem push_meets [MemoryMeasure] (h : p.Balanced) (choice : Choice) (copy : Option Space)
    (node : NodeId) : Meets P (p.push choice copy node) (p.Becomes
      (⟨copy, (copy.map (·.memory)).getD 0, choice, 0, choice.alternatives - 1, node⟩ ::
        vacatedEdges p.edges)) := by
  set new : Edge :=
    ⟨copy, (copy.map (·.memory)).getD 0, choice, 0, choice.alternatives - 1, node⟩ with hnew
  have hpush {q : Path} (hq : p.Becomes (vacatedEdges p.edges) q) : p.Becomes
      (new :: vacatedEdges p.edges)
      { q with
        edges := new :: q.edges
        memory := q.memory + new.memory
        edgesWithWork := if 0 < new.last then q.edgesWithWork + 1 else q.edgesWithWork } := by
    refine ⟨congrArg _ hq.edges, hq.noGoodDepth, ?_, ?_⟩
    · show q.memory + new.memory = _
      rw [hq.balanced.memory, List.map_cons, List.sum_cons, Nat.add_comm]
    · show (if 0 < new.last then q.edgesWithWork + 1 else q.edgesWithWork) = _
      have hwork : new.hasWork = true ↔ 0 < new.last := Edge.hasWork_iff
      rw [hq.balanced.work, List.countP_cons]
      simp only [hwork]
      split <;> rfl
  unfold push
  cases hedges : p.edges with
  | nil =>
    dsimp only
    rw [hedges] at hpush
    exact Meets.pure (hpush ⟨hedges, rfl, h⟩)
  | cons e edges =>
    dsimp only
    rw [hedges] at hpush
    by_cases hu : e.isUsedUp = true
    · rw [vacatedEdges_of_isUsedUp hu] at hpush ⊢
      rw [if_pos hu]
      exact (pop_meets h hedges).bind fun q hq => Meets.pure (hpush hq)
    · rw [vacatedEdges_of_not_isUsedUp hu] at hpush ⊢
      rw [if_neg hu]
      exact Meets.pure (hpush ⟨hedges, rfl, h⟩)

/-! ### Unwinding -/

section Unwinding

theorem skipFrom_meets
    (hdescribe : ∀ i ≤ e.last, Meets P (EdgeInfo.ofChoice e.node e.choice i) fun _ => True)
    (first : Nat) (tracing : Tracing) : Meets P (skipFrom e first tracing) fun _ => True := by
  have hrange : ∀ i ∈ List.range (e.last + 1 - first), first + i ≤ e.last := by
    intro i hi
    have := List.mem_range.1 hi
    omega
  unfold skipFrom
  generalize List.range (e.last + 1 - first) = is at hrange
  induction is generalizing tracing with
  | nil => exact Meets.pure trivial
  | cons i is ih =>
    have hrange := List.forall_mem_cons.1 hrange
    rw [List.foldlM_cons]
    refine Meets.bind (Q := fun _ => True) ?_ fun tracing _ => ih tracing hrange.2
    exact (hdescribe _ hrange.1).bind fun _ _ => Meets.pure trivial

theorem unwindWithin_meets {depth steps : Nat} {isTop : Bool} {tracing : Tracing} (h : p.Balanced)
    (hdescribe : ∀ e ∈ p.edges, ∀ i ≤ e.last,
      Meets P (EdgeInfo.ofChoice e.node e.choice i) fun _ => True)
    (hsteps : p.edges.length ≤ steps) :
    Meets P (unwindWithin depth steps isTop p tracing)
      (p.Becomes (p.edges.drop (p.edges.length - depth)) ·.1) := by
  induction steps generalizing p isTop tracing with
  | zero =>
    have hnil := List.length_eq_zero_iff.1 (Nat.le_zero.1 hsteps)
    exact Meets.pure ⟨by rw [hnil, List.drop_nil], rfl, h⟩
  | succ steps ih =>
    unfold unwindWithin
    cases hedges : p.edges with
    | nil => exact Meets.pure ⟨by rw [hedges, List.drop_nil], rfl, h⟩
    | cons e edges =>
      rw [hedges] at hdescribe
      obtain ⟨he, hdescribe⟩ := List.forall_mem_cons.1 hdescribe
      dsimp only
      by_cases hd : edges.length < depth
      · rw [if_pos hd, List.length_cons, Nat.sub_eq_zero_of_le hd]
        exact Meets.pure ⟨hedges, rfl, h⟩
      · rw [if_neg hd, List.length_cons, Nat.succ_sub (Nat.not_lt.1 hd), List.drop_succ_cons]
        rw [hedges, List.length_cons] at hsteps
        refine (pop_meets h hedges).bind fun q hq => ?_
        have hrest (tracing : Tracing) :
            Meets P (unwindWithin depth steps false q tracing)
              (p.Becomes (edges.drop (edges.length - depth)) ·.1) := by
          have hq' := hq.edges
          refine (ih hq.balanced (hq' ▸ hdescribe) (hq' ▸ Nat.le_of_succ_le_succ hsteps)).mono ?_
          exact fun r hr => hq' ▸ hq.trans hr
        by_cases ha : tracing.isActive = true
        · rw [if_pos ha]
          exact (skipFrom_meets he _ _).bind fun _ _ => hrest _
        · rw [if_neg ha]
          exact hrest _

/-- To unwind leaves as many edges as are asked for. -/
theorem unwind_meets (h : p.Balanced) (hedges : p.edges = below ++ above)
    (hdescribe : ∀ e ∈ p.edges, ∀ i ≤ e.last,
      Meets P (EdgeInfo.ofChoice e.node e.choice i) fun _ => True) (tracing : Tracing) :
    Meets P (p.unwind above.length tracing) (p.Becomes above ·.1) := by
  refine (unwindWithin_meets h hdescribe (Nat.le_refl _)).mono fun r hr => ?_
  rwa [hedges, List.length_append, Nat.add_sub_cancel, List.drop_left] at hr

end Unwinding

/-! ### Copies -/

theorem edges_of_splitAtCopy? {copy : Space}
    (h : splitAtCopy? edges = some (below, e, copy, above)) :
    edges = below ++ e :: above ∧ e.space = some copy := by
  induction edges generalizing below with
  | nil => cases h
  | cons e' edges ih =>
    unfold splitAtCopy? at h
    split at h
    · rename_i s hs
      cases h
      exact ⟨rfl, hs⟩
    · obtain ⟨⟨below', e'', copy', above'⟩, hsplit, heq⟩ := Option.map_eq_some_iff.1 h
      cases heq
      obtain ⟨rfl, hs⟩ := ih hsplit
      exact ⟨rfl, hs⟩

/-- The copy is the deepest one. -/
theorem none_of_splitAtCopy? {copy : Space}
    (h : splitAtCopy? edges = some (below, e, copy, above)) : ∀ c ∈ below, c.space = none := by
  induction edges generalizing below with
  | nil => cases h
  | cons e' edges ih =>
    unfold splitAtCopy? at h
    split at h
    · cases h
      exact fun c hc => absurd hc List.not_mem_nil
    · rename_i hnone
      obtain ⟨⟨below', e'', copy', above'⟩, hsplit, heq⟩ := Option.map_eq_some_iff.1 h
      cases heq
      exact List.forall_mem_cons.2 ⟨hnone, ih hsplit⟩

/-- There is a copy on one of the edges. -/
def HasCopy (edges : List Edge) : Prop := ∃ e ∈ edges, e.space.isSome = true

theorem isSome_splitAtCopy?_iff : (splitAtCopy? edges).isSome = true ↔ HasCopy edges := by
  unfold HasCopy
  induction edges with
  | nil => simp [splitAtCopy?]
  | cons e edges ih =>
    unfold splitAtCopy?
    cases hs : e.space with
    | none => simp [hs, ← ih]
    | some s => simp [hs]

/-! ### Stealing -/

/-- The edge from which an alternative is stolen has one, and `n` edges below it have some. -/
theorem edges_of_stealable? {n work : Nat} (hwork : work ≤ n)
    (h : stealable? n work edges = some (below, e, above)) :
    edges = below ++ e :: above ∧ e.hasWork = true ∧ work + below.countP Edge.hasWork = n := by
  induction edges generalizing work below with
  | nil => cases h
  | cons e' edges ih =>
    rw [stealable?] at h
    dsimp only at h
    by_cases hmore : n < if e'.hasWork = true then work + 1 else work
    · rw [if_pos hmore] at h
      cases h
      have hhas : e.hasWork = true := by
        by_contra hnone
        rw [if_neg hnone] at hmore
        omega
      rw [if_pos hhas] at hmore
      exact ⟨rfl, hhas, by rw [List.countP_nil]; omega⟩
    · rw [if_neg hmore] at h
      obtain ⟨⟨below', found, above'⟩, hfound, heq⟩ := Option.map_eq_some_iff.1 h
      cases heq
      obtain ⟨rfl, hhas, hcount⟩ := ih (Nat.not_lt.1 hmore) hfound
      refine ⟨rfl, hhas, ?_⟩
      show work + (e' :: below').countP Edge.hasWork = n
      rw [List.countP_cons]
      split at hcount <;> rename_i hw
      · rw [if_pos hw]
        omega
      · rw [if_neg hw]
        omega

/-- There is such an edge if there are more than `n` with alternatives. -/
theorem isSome_stealable?_iff {n work : Nat} (hwork : work ≤ n) :
    (stealable? n work edges).isSome = true ↔ n < work + edges.countP Edge.hasWork := by
  induction edges generalizing work with
  | nil => simp [stealable?, hwork]
  | cons e edges ih =>
    rw [stealable?]
    dsimp only
    have hcount : work + (e :: edges).countP Edge.hasWork =
        (if e.hasWork = true then work + 1 else work) + edges.countP Edge.hasWork := by
      rw [List.countP_cons]
      split <;> omega
    rw [hcount]
    generalize (if e.hasWork = true then work + 1 else work) = work'
    by_cases hmore : n < work'
    · rw [if_pos hmore]
      exact iff_of_true rfl (Nat.lt_of_lt_of_le hmore (Nat.le_add_right _ _))
    · rw [if_neg hmore, Option.isSome_map, ih (Nat.not_lt.1 hmore)]

/-- What stealing leaves: an edge without its last alternative. The edges below it have as many
alternatives left as are asked for. -/
theorem exists_of_steal {n : Nat} {s : Space} {info : EdgeInfo} (h : p.Balanced)
    (hsteal : p.steal? n = .ok (some (s, info, q))) :
    ∃ below e above, p.edges = below ++ e :: above ∧ e.hasWork = true ∧
      below.countP Edge.hasWork = n ∧ p.Becomes (below ++ e.robbed :: above) q := by
  unfold steal? at hsteal
  split at hsteal
  · cases hsteal
  rename_i below e above hstealable
  obtain ⟨hedges, hwork, hcount⟩ := edges_of_stealable? (Nat.zero_le n) hstealable
  rw [Nat.zero_add] at hcount
  refine ⟨below, e, above, hedges, hwork, hcount, ?_⟩
  have hmemory : p.memory = ((below ++ e.robbed :: above).map Edge.memory).sum := by
    rw [h.memory, hedges, List.map_append, List.map_append, List.map_cons, List.map_cons]
    rfl
  have hbefore := h.work
  rw [hedges, List.countP_append, List.countP_cons, if_pos hwork] at hbefore
  split at hsteal
  · cases hsteal
  obtain ⟨s₁, -, hsteal⟩ := Yields.exists_of_bind hsteal
  obtain ⟨s₂, -, hsteal⟩ := Yields.exists_of_bind hsteal
  obtain ⟨info', -, hsteal⟩ := Yields.exists_of_bind hsteal
  have hcounted (work : Nat) (hwork : work = (below ++ e.robbed :: above).countP Edge.hasWork) :
      p.Becomes (below ++ e.robbed :: above)
        { p with edges := below ++ e.robbed :: above, edgesWithWork := work } :=
    ⟨rfl, rfl, hmemory, hwork⟩
  rw [List.countP_append, List.countP_cons] at hcounted
  dsimp only at hsteal
  split at hsteal <;> rename_i hnext
  · cases hsteal
    exact hcounted _ (by rw [if_pos (show e.robbed.hasWork = true from hnext)]; exact hbefore)
  · obtain ⟨work, hlessen, hsteal⟩ := Yields.exists_of_bind hsteal
    cases hsteal
    obtain ⟨-, rfl⟩ := of_lessen hlessen
    refine hcounted _ ?_
    rw [if_neg (show ¬e.robbed.hasWork = true from hnext)]
    omega

end Path

end ConstraintSearch
