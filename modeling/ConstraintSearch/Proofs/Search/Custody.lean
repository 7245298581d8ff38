import ConstraintSearch.Proofs.Search.Chart
import ConstraintSearch.Proofs.Search.Model
import ConstraintSearch.Proofs.Search.Unscripted

/-!
# The copies on a path

An explorer never loses a copy that it needs, whatever the spaces are that it explores, and whatever
is stolen from it.

* `Space.Family`: spaces among which a search stays, and the faults in which their operations end.
  Those of a model end in local faults (`Space.Family.unscripted`, `Built.unscripted`);
* `Path.steal_meets`: an alternative is given away if there is one that may be;
* `Explorer.Reached`: what an explorer can become, by its own operations and by thieves;
* `Explorer.Reached.custody`: the counters are right, a copy is always found, and stealing succeeds
  if there is work to steal.
-/

namespace ConstraintSearch

variable {C : Space → Prop} {P : Fault → Prop}

/-! ### Spaces -/

/-- The operations of a search lead from the spaces in `C` to spaces in `C`, and end in faults with
the property `P` only. So do the descriptions of alternatives. -/
structure Space.Family (C : Space → Prop) (P : Fault → Prop) : Prop where
  status {s : Space} (hs : C s) : Journaled.Meets P s.status fun r => C r.2
  choice {s : Space} (hs : C s) : Meets P s.choice fun r => C r.2
  commit {s : Space} (hs : C s) (c : Choice) (alternative : Nat) :
    Meets P (s.commit c alternative) C
  constrain {s best : Space} (hs : C s) (hbest : C best) : Meets P (s.constrain best) C
  describe (node : NodeId) (c : Choice) (alternative : Nat) :
    Meets P (EdgeInfo.ofChoice node c alternative) fun _ => True

/-- The spaces may stand everywhere. -/
def Chart.everywhere (C : Space → Prop) : Chart := ⟨fun _ => C, fun _ _ => True, True, C⟩

namespace Space.Family

theorem closed (hC : Family C P) : (Chart.everywhere C).Closed P where
  status hs := (hC.status hs).mono fun _ hr => ⟨hr, fun _ _ => hr⟩
  choice hs hstatus := (hC.choice ((hC.status hs).of_returns hstatus)).mono fun _ hr =>
    ⟨True.intro, hr⟩
  commit hs _ _ := hC.commit hs _ _
  constrain hs hbest := hC.constrain hs hbest
  describe _ _ node := hC.describe node _ _

/-- All spaces, with the faults in which their operations end. -/
theorem trivial : Family (fun _ => True) (fun _ => True) where
  status {s} _ journal := by cases (s.status journal).1 <;> exact True.intro
  choice {s} _ := by cases s.choice <;> exact True.intro
  commit {s} _ c alternative := by cases s.commit c alternative <;> exact True.intro
  constrain {s best} _ _ := by cases s.constrain best <;> exact True.intro
  describe node c alternative := by
    cases EdgeInfo.ofChoice node c alternative <;> exact True.intro

/-- The spaces without scripted propagators. Their faults are neither a counter below zero nor a
copy that is missing. -/
theorem unscripted : Family Space.Unscripted Fault.IsLocal where
  status hs := hs.status
  choice hs := hs.choice
  commit hs := hs.commit
  constrain hs _ := hs.constrain _
  describe := EdgeInfo.local_ofChoice

end Space.Family

theorem Space.Tracks.unscripted {δ : Prop} {posted : List Propagator} {exempt : Option Nat}
    {s : Space} (h : s.Tracks δ posted exempt) : s.Unscripted := by
  intro n p hp
  have hslot : s.propagator? n = some p := Option.join_eq_some_iff.2 hp
  obtain ⟨q, hq⟩ := h.exists_posted hslot
  have hw := (h.upholds hq hslot).wellFormed
  cases p <;> first | exact True.intro | exact hw.elim

/-- A space that was built has no scripted propagators. -/
theorem Built.unscripted {policy : Policy} {statements : List Statement} {s : Space}
    (h : Built policy statements s) : s.Unscripted := by
  obtain ⟨posted, -, htracks⟩ := h.tracks (δ := True) fun _ _ _ _ => .inr True.intro
  exact htracks.unscripted

/-- An alternative is given away if there is one that may be. -/
theorem Path.steal_meets {p : Path} {M : Chart} {ℓ : Nat → Place} (hM : M.Closed P)
    (h : p.Balanced) (hs : Stocked M ℓ p.edges) (limit : Nat) :
    Meets P (p.steal? limit) fun r => r.isSome = p.hasStealableWork limit := by
  have hwork : p.hasStealableWork limit = (stealable? limit 0 p.edges).isSome := by
    rw [Bool.eq_iff_iff, isSome_stealable?_iff (Nat.zero_le _), Nat.zero_add, ← h.work]
    exact decide_eq_true_iff
  rw [hwork]
  unfold steal?
  cases hfound : stealable? limit 0 p.edges with
  | none => exact Meets.pure rfl
  | some found =>
    obtain ⟨below, e, above⟩ := found
    obtain ⟨hedges, hhas, -⟩ := edges_of_stealable? (Nat.zero_le _) hfound
    have hstocked : Stocked M ℓ (e :: above) := (hedges ▸ hs).of_append
    have hholds : e.Holds M (ℓ above.length) := hstocked.holds_head
    have hrestorable := hstocked.restorable hhas
    obtain ⟨⟨between, copy, s, rest⟩, hsplit⟩ :=
      Option.isSome_iff_exists.1 (isSome_splitAtCopy?_iff.2 hrestorable.hasCopy)
    obtain ⟨hbetween, hcopy⟩ := edges_of_splitAtCopy? hsplit
    have hnone := none_of_splitAtCopy? hsplit
    have hcounted : p.edgesWithWork =
        below.countP Edge.hasWork + (above.countP Edge.hasWork + 1) := by
      rw [h.work, hedges, List.countP_append, List.countP_cons, if_pos hhas]
    dsimp only
    rw [hsplit]
    dsimp only
    refine Meets.bind (Q := M.stands (ℓ above.length)) ?_ fun s₁ hs₁ =>
      (hM.commit hs₁ hholds.splits hholds.last).bind fun s₂ hs₂ =>
        (hM.describe hholds.splits hholds.last _).bind fun info _ => ?_
    · cases between with
      | nil =>
        cases hbetween
        exact Meets.pure (hholds.space s hcopy)
      | cons d between =>
        cases hbetween
        cases hrestorable with
        | copy hspace =>
          rw [hnone e List.mem_cons_self] at hspace
          cases hspace
        | link hlink hrestorable =>
          obtain ⟨hchained, hplace⟩ :=
            hstocked.tail.chained hrestorable (List.forall_mem_cons.1 hnone).2
          have hs : M.stands (ℓ rest.length) s := hchained.holds_head.space s hcopy
          exact (hchained.replay_meets hM hs).mono fun s' hs' =>
            (hplace.trans hlink.symm) ▸ hs'.1
    · split
      · exact Meets.pure rfl
      · exact (lessen_meets (by omega)).bind fun _ _ => Meets.pure rfl

namespace Explorer

variable {e e' : Explorer} {s : Space} {held : Option Space}

section Memory

variable [MemoryMeasure]

/-! ### What an explorer can become -/

/-- What an explorer can become by its own operations, by those of an engine, and by thieves. A node
that it has given out is held until it is explored or put back. -/
inductive Reached (C : Space → Prop) : Explorer → Option Space → Prop
  | new (exploration : Exploration) (tracing : Tracing) :
      Reached C (ofExploration exploration tracing) none
  | start {e e' : Explorer} {held : Option Space} {root : Space} (h : Reached C e held)
      (hroot : C root) (hstart : (e.start root).Returns e') : Reached C e' none
  | adopt {e : Explorer} {held : Option Space} {root : Space} (h : Reached C e held)
      (hroot : C root) (edge : EdgeInfo) : Reached C (e.adopt root edge) none
  | clear {e : Explorer} {held : Option Space} (h : Reached C e held) : Reached C e.clear none
  | next {e e' : Explorer} {node : Option Space} {bound bound' : Option Bound}
      (h : Reached C e none) (hbound : ∀ b ∈ bound, C b.best)
      (hnext : (e.nextNode bound).Returns (node, e', bound')) : Reached C e' node
  | putBack {e : Explorer} {s : Space} (h : Reached C e (some s)) :
      Reached C { e with current := some s } none
  | explore {e e' : Explorer} {s : Space} {explored : Explored} (h : Reached C e (some s))
      (hexplore : (e.explore s).Returns (explored, e')) : Reached C e' none
  /-- The current node is asked to lead to something better than the best solution. -/
  | constrain {e : Explorer} {s s' best : Space} (h : Reached C e none)
      (hcurrent : e.current = some s) (hbest : C best) (hconstrain : s.constrain best = .ok s') :
      Reached C { e with current := some s' } none
  | steal {e : Explorer} {held : Option Space} {limit : Nat} {stolen : Space} {edge : EdgeInfo}
      {p : Path} (h : Reached C e held)
      (hsteal : e.path.steal? limit = .ok (some (stolen, edge, p))) :
      Reached C { e with path := p } held
  | count {e : Explorer} {held : Option Space} (h : Reached C e held) (statistics : Statistics) :
      Reached C { e with statistics } held
  /-- An explorer that runs out of nodes gives up its no-goods. -/
  | forget {e : Explorer} {held : Option Space} (h : Reached C e held)
      (hempty : e.path.isEmpty = true) :
      Reached C { e with path := { e.path with noGoodDepth := 0 } } held

/-- The invariant holds whatever is done, with the node that is held put back. -/
theorem Reached.sustained (hC : Space.Family C P) (h : e.Reached C held) :
    (held.isSome = true → e.current = none) ∧
      ∃ ℓ ρ, Sustained (.everywhere C) ℓ ρ { e with current := held.or e.current } := by
  have hM := hC.closed
  induction h with
  | new exploration tracing =>
    exact ⟨nofun, fun _ => [], [], ⟨Path.balanced_empty _, .nil⟩, nofun, fun _ hne =>
      absurd rfl hne⟩
  | start h hroot hstart =>
    exact ⟨nofun, fun _ => [], [], (start_meets hM _ hroot).of_returns hstart⟩
  | adopt h hroot edge =>
    refine ⟨nofun, fun _ => [], [], ⟨Path.balanced_empty _, .nil⟩, fun s hs => ?_, nofun⟩
    cases hs
    exact ⟨hroot, .inl rfl⟩
  | clear h =>
    exact ⟨nofun, fun _ => [], [], ⟨Path.balanced_empty _, .nil⟩, nofun, fun _ hne =>
      absurd rfl hne⟩
  | @next e e' node bound bound' h hbound hnext ih =>
    obtain ⟨-, ℓ, ρ, hsustained⟩ := ih
    obtain ⟨hnone, -, -, ρ', hsustained', -⟩ :=
      (nextNode_meets hM hsustained hbound).of_returns hnext
    refine ⟨fun _ => hnone, ℓ, ρ', ?_⟩
    rwa [hnone, Option.or_none]
  | putBack h ih => exact ⟨nofun, ih.2⟩
  | @explore e e' s explored h hexplore ih =>
    obtain ⟨hnone, ℓ, ρ, hsustained⟩ := ih
    obtain ⟨-, ℓ', ρ', hsustained', -⟩ :=
      (explore_meets hM hsustained (hnone rfl)).of_returns hexplore
    exact ⟨nofun, ℓ', ρ', hsustained'⟩
  | constrain h hcurrent hbest hconstrain ih =>
    obtain ⟨-, ℓ, ρ, hsustained⟩ := ih
    obtain ⟨hs, hmoored⟩ := hsustained.current _ hcurrent
    refine ⟨nofun, ℓ, ρ, ⟨hsustained.balanced, hsustained.stocked⟩, fun s hs' => ?_, nofun⟩
    cases hs'
    exact ⟨(hC.constrain hs hbest).of_ok hconstrain, hmoored⟩
  | steal h hsteal ih =>
    obtain ⟨hnone, ℓ, ρ, hsustained⟩ := ih
    exact ⟨hnone, ℓ, ρ, hsustained.steal hsteal⟩
  | count h statistics ih =>
    obtain ⟨hnone, ℓ, ρ, hsustained⟩ := ih
    exact ⟨hnone, ℓ, ρ, ⟨hsustained.balanced, hsustained.stocked⟩, hsustained.current,
      hsustained.ready⟩
  | forget h hempty ih =>
    obtain ⟨hnone, ℓ, ρ, hsustained⟩ := ih
    exact ⟨hnone, ℓ, ρ, ⟨⟨hsustained.balanced.memory, hsustained.balanced.work⟩,
      hsustained.stocked⟩, hsustained.current, hsustained.ready⟩

/-- **The copies on a path are kept.** Whatever an explorer has explored, with or without a bound,
and whatever has been stolen from it: the counters of its path are right. A node that it has to
rebuild has a copy on the path above it. Its operations do not fault unless those of the spaces do,
so that no counter falls below zero and no copy is missing. Stealing succeeds if there is work to
steal. -/
theorem Reached.custody (hC : Space.Family C P) (h : e.Reached C held) :
    e.path.edgesWithWork = e.path.edges.countP (fun d => d.alternative < d.last) ∧
    e.path.memory = (e.path.edges.map Edge.memory).sum ∧
    (∀ d ∈ e.path.edges, d.space = none → d.memory = 0) ∧
    (held = none → e.current = none → e.path.edges ≠ [] →
      (Path.splitAtCopy? e.path.edges).isSome = true) ∧
    (∀ root, C root → Journaled.Meets P (e.start root) fun _ => True) ∧
    (held = none → ∀ bound, (∀ b ∈ bound, C b.best) →
      Journaled.Meets P (e.nextNode bound) fun _ => True) ∧
    (∀ s ∈ held, Journaled.Meets P (e.explore s) fun _ => True) ∧
    ∀ limit, Meets P (e.path.steal? limit) fun r => r.isSome = e.path.hasStealableWork limit := by
  have hM := hC.closed
  obtain ⟨hnone, ℓ, ρ, hsustained⟩ := h.sustained hC
  refine ⟨hsustained.balanced.work, hsustained.balanced.memory, fun d hd => ?_, ?_,
    fun root hroot => ?_, ?_, fun s hs => ?_, fun limit => ?_⟩
  · obtain ⟨ρ', hholds⟩ := hsustained.stocked.exists_holds d hd
    exact hholds.memory
  · rintro rfl hcurrent hne
    exact Path.isSome_splitAtCopy?_iff.2 (hsustained.ready hcurrent hne).1.restorable.hasCopy
  · exact (start_meets (ℓ := ℓ) hM e hroot).mono fun _ _ => trivial
  · rintro rfl bound hbound
    exact (nextNode_meets hM hsustained hbound).mono fun _ _ => trivial
  · cases hs
    exact (explore_meets hM hsustained (hnone rfl)).mono fun _ _ => trivial
  · exact Path.steal_meets hM hsustained.balanced hsustained.stocked limit

/-- Explore the next node. -/
def visit (e : Explorer) : Journaled Explorer := do
  let (node, e, _) ← e.nextNode none
  match node with
  | none => return e
  | some s => return (← e.explore s).2

theorem Reached.visit (h : e.Reached C none) (hvisit : e.visit.Returns e') : e'.Reached C none := by
  obtain ⟨⟨node, e₁, bound⟩, hnext, hvisit⟩ := Journaled.exists_of_returns_bind hvisit
  have hreached := h.next (fun b hb => absurd hb (Option.not_mem_none b)) hnext
  cases node with
  | none => exact Journaled.of_returns_pure hvisit ▸ hreached
  | some s =>
    obtain ⟨⟨explored, e₂⟩, hexplore, hvisit⟩ := Journaled.exists_of_returns_bind hvisit
    exact Journaled.of_returns_pure hvisit ▸ hreached.explore hexplore

/-- An explorer that has explored a root, and what is stolen from it then. -/
def firstTheft (exploration : Exploration) (root : Space) :
    Journaled (Explorer × Option (Space × EdgeInfo × Path)) := do
  let e ← (ofExploration exploration (Tracing.start 0 false)).start root
  let e ← e.visit
  return (e, ← e.path.steal? 0)

theorem Reached.of_firstTheft {exploration : Exploration} {root : Space}
    {theft : Option (Space × EdgeInfo × Path)} (hroot : C root)
    (h : (firstTheft exploration root).Returns (e, theft)) :
    e.Reached C none ∧ e.path.steal? 0 = .ok theft := by
  obtain ⟨e₁, hstart, h⟩ := Journaled.exists_of_returns_bind h
  obtain ⟨e₂, hvisit, h⟩ := Journaled.exists_of_returns_bind h
  obtain ⟨theft', hsteal, h⟩ := Journaled.exists_of_returns_bind h
  cases Journaled.of_returns_pure h
  exact ⟨((Reached.new _ _).start hroot hstart).visit hvisit, Journaled.of_returns_lift hsteal⟩

end Memory

/-- Half of what is to be explored is stolen, and the copy stays where it was, so that the next node
can be rebuilt. -/
theorem Reached.custody_differing : ∃ e stolen edge p,
    Reached Space.Unscripted e none ∧ e.path.steal? 0 = .ok (some (stolen, edge, p)) ∧
      p.edgesWithWork = p.edges.countP (fun d => d.alternative < d.last) ∧
      p.memory = (p.edges.map Edge.memory).sum ∧
      (Journaled.Meets Fault.IsLocal (nextNode { e with path := p } none) fun _ => True) ∧
      ∀ limit, Meets Fault.IsLocal (p.steal? limit) fun r =>
        r.isSome = p.hasStealableWork limit := by
  have hcheck : buildsTo .costOrdered differing (fun s =>
      (firstTheft {} s).check fun r => r.2.isSome) = true := by
    decide +kernel
  obtain ⟨s, hs, hproperty⟩ := exists_built_of_buildsTo hcheck
  obtain ⟨⟨e, theft⟩, hreturns, htheft⟩ := Journaled.exists_of_check hproperty
  obtain ⟨⟨stolen, edge, p⟩, rfl⟩ := Option.isSome_iff_exists.1 htheft
  obtain ⟨hreached, hsteal⟩ := Reached.of_firstTheft hs.unscripted hreturns
  obtain ⟨hwork, hmemory, -, -, -, hnext, -, hstealable⟩ :=
    (hreached.steal hsteal).custody Space.Family.unscripted
  exact ⟨e, stolen, edge, p, hreached, hsteal, hwork, hmemory, hnext rfl none nofun, hstealable⟩

end Explorer

end ConstraintSearch
