import ConstraintSearch.Proofs.Narrowing
import ConstraintSearch.Search.Trace
import ConstraintSearch.Space

/-!
# The faults of a space

A space whose propagators enforce constraints ends in local faults only, whatever is asked of it:
whatever choice is committed, whatever space is to be improved on, and however often. A scripted
propagator could end in any fault, since it may mention a view that cannot be built.

* `Propagator.Unscripted`, `Space.Unscripted`: the propagators enforce constraints;
* `Propagator.execute_unscripted`: a run keeps it so, and its faults are local;
* `Space.Unscripted.status`, `Space.Unscripted.choice`, `Space.Unscripted.commit` and
  `Space.Unscripted.constrain`: so do the operations of a search.
-/

namespace ConstraintSearch

open Propagation

/-- The propagator enforces a constraint. -/
def Propagator.Unscripted : Propagator → Prop
  | scripted _ _ => False
  | _ => True

/-- If the propagator is replaced, then by one that enforces a constraint. -/
def Verdict.Unscripted : Verdict Propagator → Prop
  | replace successor => successor.Unscripted
  | _ => True

/-! ### Runs -/

theorem NotEquals.run_unscripted (a b : IntVar) (offset : Int) :
    (NotEquals.run a b offset).Gives Verdict.Unscripted := by
  refine Gives.trivial.bind fun v _ => ?_
  rcases v with _ | v
  · refine Gives.trivial.bind fun v _ => ?_
    rcases v with _ | v
    · exact .pure True.intro
    · exact Gives.trivial.bind fun _ _ => Gives.trivial.bind fun _ _ => .pure True.intro
  · exact Gives.trivial.bind fun _ _ => Gives.trivial.bind fun _ _ => .pure True.intro

/-- What a run answers that only asks whether its constraint holds from now on. -/
theorem Verdict.unscripted_ite (c : Prop) [Decidable c] :
    (if c then subsumed else fix : Verdict Propagator).Unscripted := by
  split <;> exact True.intro

theorem LessOrEqual.run_unscripted (a b : IntVar) (offset : Int) :
    (LessOrEqual.run a b offset).Gives Verdict.Unscripted :=
  Gives.trivial.bind fun _ _ => Gives.trivial.bind fun _ _ => Gives.trivial.bind fun _ _ =>
    Gives.trivial.bind fun _ _ => Gives.trivial.bind fun _ _ => Gives.trivial.bind fun _ _ =>
    Gives.trivial.bind fun _ _ => Gives.trivial.bind fun _ _ => Gives.trivial.bind fun _ _ =>
    .pure (Verdict.unscripted_ite _)

theorem FloatAtMost.run_unscripted (a b : Nat) :
    (FloatAtMost.run a b).Gives Verdict.Unscripted :=
  Gives.trivial.bind fun _ _ => Gives.trivial.bind fun _ _ => Gives.trivial.bind fun _ _ =>
    Gives.trivial.bind fun _ _ => Gives.trivial.bind fun _ _ => Gives.trivial.bind fun _ _ =>
    .pure (Verdict.unscripted_ite _)

theorem Linear.runAtMost_unscripted (terms : List IntVar) (bound : Int) :
    (runAtMost terms bound).Gives Verdict.Unscripted := by
  refine Gives.trivial.bind fun lowers _ => ?_
  dsimp only
  split
  · exact (Gives.throw (P := fun _ => True) _).bind fun _ _ => Gives.trivial.bind fun _ _ =>
      Gives.trivial.bind fun _ _ => .pure (Verdict.unscripted_ite _)
  · exact Gives.trivial.bind fun _ _ => Gives.trivial.bind fun _ _ =>
      .pure (Verdict.unscripted_ite _)

theorem Linear.runEqual_unscripted (terms : List IntVar) (total : Int) :
    (runEqual terms total).Gives Verdict.Unscripted :=
  Gives.trivial.bind fun _ _ => Gives.trivial.bind fun _ _ => Gives.trivial.bind fun _ _ =>
    .pure (Verdict.unscripted_ite _)

theorem AllDifferent.run_unscripted (vars : List (IntVar × Bool)) :
    (AllDifferent.run vars).Gives fun r => r.1.Unscripted ∧ r.2.Unscripted := by
  refine Gives.trivial.bind fun vars _ => Gives.trivial.bind fun left _ => ?_
  split <;> exact .pure ⟨True.intro, True.intro⟩

theorem Clause.run_unscripted (literals : List IntVar) :
    (Clause.run literals).Gives Verdict.Unscripted := by
  refine Gives.trivial.bind fun satisfied _ => ?_
  cases satisfied with
  | true => exact .pure True.intro
  | false =>
    refine Gives.trivial.bind fun left _ => ?_
    split
    · exact .throw _
    · exact Gives.trivial.bind fun _ _ => .pure True.intro
    · exact .pure True.intro

theorem SetCardinality.run_unscripted (set : Nat) (cardinality : IntVar) :
    (SetCardinality.run set cardinality).Gives Verdict.Unscripted :=
  Gives.trivial.bind fun _ _ => Gives.trivial.bind fun _ _ => Gives.trivial.bind fun _ _ =>
    .pure (Verdict.unscripted_ite _)

theorem NoGoods.settle_unscripted (levels : List NoGoodLevel) (start : Nat) :
    (NoGoods.settle levels start).Gives fun r => r.2.Unscripted := by
  induction levels generalizing start with
  | nil => exact .pure True.intro
  | cons level levels ih =>
    refine Gives.trivial.bind fun _ _ => ?_
    cases level.taken with
    | none => exact .pure True.intro
    | some taken =>
      refine Gives.trivial.bind fun truth _ => ?_
      rcases truth with _ | _ | _
      · exact .pure True.intro
      · exact .pure True.intro
      · exact ih _

namespace Propagator

variable {p : Propagator}

theorem run_unscripted (h : p.Unscripted) :
    p.run.Gives fun r => r.1.Unscripted ∧ r.2.Unscripted := by
  cases p with
  | notEquals a b offset =>
    exact (NotEquals.run_unscripted a b offset).bind fun _ hv => .pure ⟨h, hv⟩
  | lessOrEqual a b offset =>
    exact (LessOrEqual.run_unscripted a b offset).bind fun _ hv => .pure ⟨h, hv⟩
  | linearAtMost terms bound =>
    exact (Linear.runAtMost_unscripted terms bound).bind fun _ hv => .pure ⟨h, hv⟩
  | linearEqual terms total =>
    exact (Linear.runEqual_unscripted terms total).bind fun _ hv => .pure ⟨h, hv⟩
  | allDifferent vars => exact AllDifferent.run_unscripted vars
  | clause literals => exact (Clause.run_unscripted literals).bind fun _ hv => .pure ⟨h, hv⟩
  | setCardinality set x =>
    exact (SetCardinality.run_unscripted set x).bind fun _ hv => .pure ⟨h, hv⟩
  | floatAtMost a b => exact (FloatAtMost.run_unscripted a b).bind fun _ hv => .pure ⟨h, hv⟩
  | noGoods levels start =>
    exact (NoGoods.settle_unscripted _ _).bind fun _ hv => .pure ⟨True.intro, hv⟩
  | scripted script executions => exact h.elim

theorem execute_of_unscripted (h : p.Unscripted) (s : State) :
    p.execute s = (p.run s : Except Fault _) := by
  cases p <;> first | rfl | exact h.elim

/-- A run ends in local faults only, and leaves propagators that enforce constraints. -/
theorem execute_unscripted (h : p.Unscripted) (s : State) :
    Journaled.Meets Fault.IsLocal (p.execute s) fun r => ∀ p' verdict, r.1 = .ok (p', verdict) →
      p'.Unscripted ∧ verdict.Unscripted := by
  rw [execute_of_unscripted h]
  refine Journaled.Meets.lift ((p.run_acts s).self.mono ?_)
  rintro ⟨outcome, s'⟩ ⟨-, hrun⟩ p' verdict rfl
  exact run_unscripted h s _ s' hrun

theorem local_subscriptions (h : p.Unscripted) : Local p.subscriptions := by
  cases p <;> first | exact .pure _ | exact h.elim

end Propagator

/-! ### Spaces -/

/-- The propagators of the space enforce constraints. -/
def Space.Unscripted (s : Space) : Prop :=
  ∀ n p, s.propagators.get? n = some (some p) → p.Unscripted

namespace Space

variable {s best : Space} {p : Propagator}

namespace Unscripted

/-- The slot of a propagator is filled again, or emptied. -/
theorem set (h : s.Unscripted) (n : Nat) {slot : Option Propagator} {state : State}
    (hslot : ∀ p ∈ slot, p.Unscripted) :
    Unscripted { s with propagators := s.propagators.set n slot, state } := by
  intro m p hp
  change (s.propagators.set n slot).get? m = _ at hp
  rw [Table.get?_set] at hp
  split at hp
  · split at hp
    · exact hslot p (Option.some.inj hp)
    · cases hp
  · exact h m p hp

theorem retire (h : s.Unscripted) (n : Nat) (p : Propagator) :
    Journaled.Meets Fault.IsLocal (s.retire n p) Space.Unscripted := by
  have hretire : Journaled.Meets Fault.IsLocal p.retire fun _ => True := by
    cases p <;> exact fun _ => True.intro
  exact hretire.bind fun _ _ => Journaled.Meets.pure (h.set n nofun)

theorem settle (h : s.Unscripted) (n : Nat) (hp : p.Unscripted) {verdict : Verdict Propagator}
    (hverdict : verdict.Unscripted) :
    Journaled.Meets Fault.IsLocal (s.settle n p verdict) Space.Unscripted := by
  have hslot : ∀ p' ∈ some p, p'.Unscripted := fun p' hp' => Option.some.inj hp' ▸ hp
  cases verdict with
  | fix | noFix => exact Journaled.Meets.pure (h.set n hslot)
  | subsumed => exact h.retire n p
  | replace successor =>
    refine (h.retire n p).bind fun s' hs' =>
      (Journaled.Meets.lift (Propagator.local_subscriptions hverdict)).bind fun _ _ =>
      (Journaled.Meets.note _).bind fun _ _ => Journaled.Meets.pure ?_
    have hsuccessor : ∀ p' ∈ some successor, p'.Unscripted :=
      fun p' hp' => Option.some.inj hp' ▸ hverdict
    exact hs'.set n hsuccessor

theorem execute (h : s.Unscripted) (n : Nat) :
    Journaled.Meets Fault.IsLocal (s.execute n) fun r => r.2.Unscripted := by
  unfold Space.execute
  cases hslot : s.propagator? n with
  | none => exact Journaled.Meets.pure h
  | some p =>
    have hp := h n p (Option.join_eq_some_iff.1 hslot)
    refine (Propagator.execute_unscripted hp s.state).bind fun r hr => ?_
    obtain ⟨outcome, state⟩ := r
    cases outcome with
    | error i => exact (Journaled.Meets.note _).bind fun _ _ => Journaled.Meets.pure h
    | ok r =>
      obtain ⟨hp', hverdict⟩ := hr r.1 r.2 rfl
      have hs : Space.Unscripted { s with state, propagations := s.propagations + 1 } := h
      exact (hs.settle n hp' hverdict).bind fun _ hs' => Journaled.Meets.pure hs'

theorem propagateWithin (h : s.Unscripted) (steps : Nat) :
    Journaled.Meets Fault.IsLocal (propagateWithin steps s) Space.Unscripted := by
  induction steps generalizing s with
  | zero => exact fun _ => True.intro
  | succ steps ih =>
    unfold Space.propagateWithin
    split
    · rename_i s' hpop
      obtain rfl := congrArg Prod.snd hpop
      exact Journaled.Meets.pure h
    · rename_i n s' hpop
      have hs' : s'.Unscripted := by
        obtain rfl := congrArg Prod.snd hpop
        exact h
      refine (hs'.execute n).bind fun r hr => ?_
      obtain ⟨consistent, s''⟩ := r
      cases consistent with
      | true => exact ih hr
      | false => exact Journaled.Meets.pure hr

theorem propagate (h : s.Unscripted) :
    Journaled.Meets Fault.IsLocal s.propagate Space.Unscripted := by
  unfold Space.propagate
  split
  · exact Journaled.Meets.pure h
  · exact h.propagateWithin _

end Unscripted

theorem local_advance (store : Store) (candidates : List (Brancher × Nat))
    (branchers : Table Brancher) (active : Nat) :
    Local (advance store candidates branchers active) := by
  induction candidates generalizing branchers active with
  | nil => exact .pure _
  | cons candidate candidates ih =>
    refine (candidate.1.local_status store).bind fun r => ?_
    obtain ⟨isOpen, b⟩ := r
    cases isOpen with
    | true => exact .pure _
    | false => exact ih _ _

namespace Unscripted

theorem status (h : s.Unscripted) :
    Journaled.Meets Fault.IsLocal s.status fun r => r.2.Unscripted := by
  refine h.propagate.bind fun s' hs' => ?_
  dsimp only
  split
  · exact Journaled.Meets.pure hs'
  · exact (Journaled.Meets.lift (local_advance _ _ _ _)).bind fun _ _ => Journaled.Meets.pure hs'

theorem choice (h : s.Unscripted) : Meets Fault.IsLocal s.choice fun r => r.2.Unscripted := by
  unfold Space.choice
  dsimp only
  split
  · exact True.intro
  · refine (s.branchers.local_fetch _).meets.bind fun b _ =>
      (b.local_decide s.state).meets.bind fun r _ => ?_
    split
    · exact True.intro
    · exact Meets.pure h

theorem commit (h : s.Unscripted) (c : Choice) (alternative : Nat) :
    Meets Fault.IsLocal (s.commit c alternative) Space.Unscripted := by
  unfold Space.commit
  dsimp only
  split
  · exact True.intro
  · split
    · exact Meets.pure h
    · refine (s.branchers.local_fetch _).meets.bind fun b _ =>
        (b.commit_acts c.decision alternative s.state).bind fun r _ => ?_
      obtain ⟨outcome, state⟩ := r
      cases outcome <;> exact Meets.pure h

theorem restrict (h : s.Unscripted) (x : IntVar) (relation : Relation) (v : Int) :
    Meets Fault.IsLocal (s.restrict x relation v) fun r => r.2.Unscripted :=
  (s.state.local_narrow x.ref (x.local_restrict · relation v)).meets.bind fun _ _ =>
    Meets.pure h

theorem constrain (h : s.Unscripted) (best : Space) :
    Meets Fault.IsLocal (s.constrain best) Space.Unscripted := by
  unfold Space.constrain
  cases s.objective with
  | none => exact Meets.pure h
  | some objective =>
    cases objective with
    | minimise x | maximise x =>
      exact (x.local_bound best.store _).meets.bind fun _ _ =>
        (Word.local_checked _ _).meets.bind fun v _ =>
        (h.restrict x _ v).bind fun _ hs' => Meets.pure hs'

end Unscripted

end Space

/-- An edge of the search tree is described. -/
theorem EdgeInfo.local_ofChoice (node : NodeId) (c : Choice) (alternative : Nat) :
    Local (ofChoice node c alternative) :=
  (c.local_describe alternative).bind fun _ => .pure _

end ConstraintSearch
