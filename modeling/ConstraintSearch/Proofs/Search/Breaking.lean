import ConstraintSearch.Proofs.Search.Model

/-!
# Spaces that break symmetries

The symmetries of a brancher have no part in the status and the choices of a space. A space that
breaks symmetries is a space that breaks none, with symmetries for its branchers.

* `Space.breaking`: the space with symmetries for its integer branchers;
* `Space.status_breaking`, `Space.choice_breaking`: its status and its choice;
* `Built.exists_breaking`: a space that was built with symmetries.
-/

namespace ConstraintSearch

variable {σ : List Symmetry}

namespace Brancher

/-- The brancher with other symmetries. -/
def breaking (σ : List Symmetry) : Brancher → Brancher
  | int b => int { b with symmetries := σ }
  | set vars start => set vars start
  | float vars precision start => float vars precision start

theorem status_breaking (b : Brancher) (s : Store) :
    (b.breaking σ).status s = (fun r => (r.1, r.2.breaking σ)) <$> b.status s := by
  cases b with
  | int b =>
    simp only [breaking, status, map_bind, map_pure]
  | set vars start => simp only [breaking, status, map_bind, map_pure]
  | float vars precision start => simp only [breaking, status, map_bind, map_pure]

end Brancher

/-- The decision, with the mark of a brancher that breaks symmetries. -/
def Decision.marked (breaks : Bool) : Decision → Decision
  | int position x split _ => int position x split breaks
  | set i v => set i v
  | float i v => float i v

/-- The choice, with the mark of a brancher that breaks symmetries. -/
def Choice.marked (breaks : Bool) (c : Choice) : Choice :=
  { c with decision := c.decision.marked breaks }

theorem Choice.alternatives_marked (c : Choice) (breaks : Bool) :
    (c.marked breaks).alternatives = c.alternatives := by
  obtain ⟨brancher, decision⟩ := c
  cases decision <;> rfl

theorem IntBrancher.decide_breaking (b : IntBrancher) (s : State) :
    IntBrancher.decide s { b with symmetries := σ } =
      (fun r => (r.1.marked (!σ.isEmpty), { r.2 with symmetries := σ })) <$>
        IntBrancher.decide s b := by
  unfold IntBrancher.decide
  rw [map_bind]
  refine bind_congr fun r => ?_
  rw [map_bind]
  refine bind_congr fun x => ?_
  rw [map_bind]
  refine bind_congr fun fixed => ?_
  cases fixed with
  | true => rfl
  | false =>
    show (_ >>= _) = _ <$> (_ >>= _)
    rw [map_bind]
    rfl

theorem Brancher.decide_breaking (b : Brancher) (s : State) :
    (b.breaking σ).decide s =
      (fun r => (r.1.marked (!σ.isEmpty), r.2.breaking σ)) <$> b.decide s := by
  cases b with
  | int b =>
    unfold decide
    dsimp only [breaking]
    rw [IntBrancher.decide_breaking, bind_map_left, map_bind]
    rfl
  | set vars start =>
    unfold decide
    dsimp only [breaking]
    rw [map_bind]
    refine bind_congr fun x => ?_
    rw [map_bind]
    refine bind_congr fun d => ?_
    cases d.leastUnknown? <;> rfl
  | float vars precision start =>
    unfold decide
    dsimp only [breaking]
    rw [map_bind]
    refine bind_congr fun x => ?_
    rw [map_bind]
    rfl

namespace Space

variable {s : Space}

/-- The space with other branchers. -/
def withBranchers (s : Space) (branchers : Table Brancher) : Space := { s with branchers }

theorem retire_withBranchers (s : Space) (branchers : Table Brancher) (n : Nat) (p : Propagator) :
    (s.withBranchers branchers).retire n p = (·.withBranchers branchers) <$> s.retire n p := by
  unfold retire
  rw [map_bind]
  rfl

theorem settle_withBranchers (s : Space) (branchers : Table Brancher) (n : Nat) (p : Propagator)
    (verdict : Verdict Propagator) :
    (s.withBranchers branchers).settle n p verdict =
      (·.withBranchers branchers) <$> s.settle n p verdict := by
  cases verdict with
  | fix => rfl
  | noFix => rfl
  | subsumed => exact s.retire_withBranchers branchers n p
  | replace q =>
    unfold settle
    dsimp only
    rw [retire_withBranchers, map_bind, bind_map_left]
    refine bind_congr fun s => ?_
    simp only [map_bind]
    rfl

theorem execute_withBranchers (s : Space) (branchers : Table Brancher) (n : Nat) :
    (s.withBranchers branchers).execute n =
      (fun r => (r.1, r.2.withBranchers branchers)) <$> s.execute n := by
  have hsame : (s.withBranchers branchers).propagator? n = s.propagator? n := rfl
  unfold execute
  rw [hsame]
  cases s.propagator? n with
  | none => rfl
  | some p =>
    dsimp only
    rw [map_bind]
    refine bind_congr fun r => ?_
    obtain ⟨outcome, state⟩ := r
    cases outcome with
    | error i => rfl
    | ok q =>
      dsimp only
      rw [map_bind]
      have hsettle := settle_withBranchers
        { s with state, propagations := s.propagations + 1 } branchers n q.1 q.2
      refine (congrArg (· >>= fun s => pure (true, s)) hsettle).trans ?_
      rw [bind_map_left]
      rfl

theorem propagateWithin_withBranchers (branchers : Table Brancher) (steps : Nat) (s : Space) :
    propagateWithin steps (s.withBranchers branchers) =
      (·.withBranchers branchers) <$> propagateWithin steps s := by
  induction steps generalizing s with
  | zero => rfl
  | succ steps ih =>
    unfold propagateWithin
    have hpop : (s.withBranchers branchers).pop = (s.pop.1, s.pop.2.withBranchers branchers) := rfl
    rw [hpop]
    obtain ⟨number, s⟩ := s.pop
    cases number with
    | none => rfl
    | some n =>
      dsimp only
      rw [execute_withBranchers, map_bind, bind_map_left]
      refine bind_congr fun r => ?_
      obtain ⟨consistent, s⟩ := r
      cases consistent with
      | true => exact ih s
      | false => rfl

theorem propagate_withBranchers (s : Space) (branchers : Table Brancher) :
    (s.withBranchers branchers).propagate = (·.withBranchers branchers) <$> s.propagate := by
  unfold propagate
  by_cases hf : s.isFailed = true
  · rw [if_pos hf, if_pos (show (s.withBranchers branchers).isFailed = true from hf)]
    rfl
  · rw [if_neg hf, if_neg (show ¬(s.withBranchers branchers).isFailed = true from hf)]
    exact propagateWithin_withBranchers branchers _ s

/-! ### Symmetries for all branchers -/

end Space

/-- The branchers, with symmetries for those of integers. -/
def Table.breaking (σ : List Symmetry) (branchers : Table Brancher) : Table Brancher :=
  ⟨branchers.rows.map (Brancher.breaking σ)⟩

namespace Table

variable {branchers : Table Brancher}

theorem get?_breaking (i : Nat) :
    (branchers.breaking σ).get? i = (branchers.get? i).map (Brancher.breaking σ) :=
  Array.getElem?_map

theorem size_breaking : (branchers.breaking σ).size = branchers.size := Array.size_map

theorem toList_breaking :
    (branchers.breaking σ).toList = branchers.toList.map (Brancher.breaking σ) :=
  Array.toList_map

theorem breaking_empty : (∅ : Table Brancher).breaking σ = ∅ := congrArg Table.mk Array.map_empty

theorem set_breaking (i : Nat) (b : Brancher) :
    (branchers.breaking σ).set i (b.breaking σ) = (branchers.set i b).breaking σ := by
  unfold set breaking
  rw [Array.map_setIfInBounds]

theorem push_breaking (b : Brancher) :
    (branchers.breaking σ).push (b.breaking σ) = (branchers.push b).breaking σ := by
  unfold push breaking
  rw [Array.map_push]

theorem fetch_breaking (i : Nat) :
    (branchers.breaking σ).fetch i = Brancher.breaking σ <$> branchers.fetch i := by
  by_cases hi : i < branchers.rows.size
  · have hi' : i < (branchers.breaking σ).rows.size := by rwa [← Table.size, size_breaking]
    unfold fetch
    rw [dif_pos hi, dif_pos hi']
    exact congrArg Except.ok (Array.getElem_map ..)
  · have hi' : ¬i < (branchers.breaking σ).rows.size := by rwa [← Table.size, size_breaking]
    unfold fetch
    rw [dif_neg hi, dif_neg hi', ← Table.size, size_breaking]
    rfl

end Table

namespace Space

/-- The space with symmetries for its integer branchers. -/
def breaking (σ : List Symmetry) (s : Space) : Space :=
  { s with branchers := s.branchers.breaking σ }

theorem advance_breaking (store : Store) (candidates : List (Brancher × Nat))
    (branchers : Table Brancher) (active : Nat) :
    advance store (candidates.map fun c => (c.1.breaking σ, c.2)) (branchers.breaking σ) active =
      (fun r => (r.1, r.2.1.breaking σ, r.2.2)) <$> advance store candidates branchers active := by
  induction candidates generalizing branchers active with
  | nil => rfl
  | cons candidate rest ih =>
    obtain ⟨b, position⟩ := candidate
    rw [List.map_cons]
    unfold advance
    rw [Brancher.status_breaking, bind_map_left, map_bind]
    refine bind_congr fun r => ?_
    obtain ⟨isOpen, b⟩ := r
    dsimp only
    rw [Table.set_breaking]
    cases isOpen with
    | true => rfl
    | false => exact ih _ _

/-- The status does not depend on symmetries. -/
theorem status_breaking (s : Space) :
    (s.breaking σ).status = (fun r => (r.1, r.2.breaking σ)) <$> s.status := by
  have hpropagate := s.propagate_withBranchers (s.branchers.breaking σ)
  have hsame := s.propagate_withBranchers s.branchers
  change s.propagate = _ at hsame
  change (s.breaking σ).propagate = _ at hpropagate
  unfold status
  rw [hpropagate, bind_map_left, map_bind]
  generalize s.propagate = m at hsame
  conv_rhs => rw [hsame, bind_map_left]
  refine bind_congr fun s₁ => ?_
  by_cases hf : s₁.isFailed = true
  · have hf' (branchers : Table Brancher) : (s₁.withBranchers branchers).isFailed = true := hf
    rw [if_pos (hf' _), if_pos (hf' _)]
    rfl
  · have hf' (branchers : Table Brancher) : ¬(s₁.withBranchers branchers).isFailed = true := hf
    rw [if_neg (hf' _), if_neg (hf' _)]
    have hcandidates : (s.branchers.breaking σ).toList.zipIdx.drop s₁.active =
        (s.branchers.toList.zipIdx.drop s₁.active).map fun c => (c.1.breaking σ, c.2) := by
      rw [Table.toList_breaking, List.zipIdx_map, List.map_drop]
      rfl
    have hadvance := advance_breaking (σ := σ) s₁.store
      (s.branchers.toList.zipIdx.drop s₁.active) s.branchers s₁.active
    rw [← hcandidates] at hadvance
    show (liftM (advance s₁.store ((s.branchers.breaking σ).toList.zipIdx.drop s₁.active)
        (s.branchers.breaking σ) s₁.active) >>= _) =
      _ <$> (liftM (advance s₁.store (s.branchers.toList.zipIdx.drop s₁.active) s.branchers
        s₁.active) >>= _)
    rw [hadvance]
    generalize advance s₁.store (s.branchers.toList.zipIdx.drop s₁.active) s.branchers s₁.active = r
    cases r with
    | error fault => rfl
    | ok r =>
      obtain ⟨isOpen, branchers, active⟩ := r
      cases isOpen <;> rfl

/-- The choice does not depend on symmetries, up to its mark. -/
theorem choice_breaking (s : Space) :
    (s.breaking σ).choice =
      (fun r => (r.1.marked (!σ.isEmpty), r.2.breaking σ)) <$> s.choice := by
  have hcondition : ((s.breaking σ).isFailed = true ∨
      (s.breaking σ).branchers.size ≤ (s.breaking σ).active) ↔
      (s.isFailed = true ∨ s.branchers.size ≤ s.active) := by
    show (_ ∨ (s.branchers.breaking σ).size ≤ s.active) ↔ _
    rw [Table.size_breaking]
    rfl
  unfold choice
  by_cases hnone : s.isFailed = true ∨ s.branchers.size ≤ s.active
  · rw [if_pos hnone, if_pos (hcondition.2 hnone)]
    rfl
  · rw [if_neg hnone, if_neg fun h => hnone (hcondition.1 h)]
    show ((s.branchers.breaking σ).fetch s.active >>= _) = _ <$> (s.branchers.fetch s.active >>= _)
    rw [Table.fetch_breaking, bind_map_left, map_bind]
    refine bind_congr fun b => ?_
    show ((b.breaking σ).decide s.state >>= _) = _ <$> (b.decide s.state >>= _)
    rw [Brancher.decide_breaking, bind_map_left, map_bind]
    refine bind_congr fun r => ?_
    obtain ⟨decision, b⟩ := r
    have halternatives := Choice.alternatives_marked ⟨s.active, decision⟩ (!σ.isEmpty)
    show (if (Choice.marked (!σ.isEmpty) ⟨s.active, decision⟩).alternatives < 2 then _ else _) =
      _ <$> (if (Choice.mk s.active decision).alternatives < 2 then _ else _)
    rw [halternatives]
    by_cases hfew : (Choice.mk s.active decision).alternatives < 2
    · rw [if_pos hfew, if_pos hfew]
      rfl
    · rw [if_neg hfew, if_neg hfew]
      have hset : (s.branchers.breaking σ).set s.active (b.breaking σ) =
          (s.branchers.set s.active b).breaking σ := Table.set_breaking s.active b
      exact congrArg (fun branchers => Except.ok (Choice.marked (!σ.isEmpty) ⟨s.active, decision⟩,
        { s with branchers })) hset

/-- A propagator is posted whatever the symmetries are. -/
theorem post_breaking (s : Space) (p : Propagator) :
    (s.breaking σ).post p = (fun r => (r.1, r.2.breaking σ)) <$> s.post p := by
  unfold post
  by_cases hf : s.isFailed = true
  · rw [if_pos hf, if_pos (show (s.breaking σ).isFailed = true from hf)]
    rfl
  · rw [if_neg hf, if_neg (show ¬(s.breaking σ).isFailed = true from hf), map_bind]
    rfl

end Space

/-! ### What is built with symmetries -/

/-- The statement, with a brancher without symmetries. -/
def Statement.plain : Statement → Statement
  | branch b => branch (b.breaking [])
  | t => t

theorem Brancher.breaking_breaking {τ : List Symmetry} (b : Brancher) :
    (b.breaking τ).breaking σ = b.breaking σ := by
  cases b <;> rfl

namespace Statement

variable {s s' : Space} {t : Statement}

theorem posting?_plain (t : Statement) : t.plain.posting? = t.posting? := by
  cases t <;> rfl

theorem brancher?_plain (t : Statement) :
    t.plain.brancher? = t.brancher?.map (Brancher.breaking []) := by
  cases t <;> rfl

/-- A statement does to a space with symmetries what it does to the space without them. -/
theorem Runs.exists_plain (h : t.Runs (s.breaking σ) s')
    (hb : ∀ b ∈ t.brancher?, b.breaking σ = b) :
    ∃ s₀, s' = s₀.breaking σ ∧ t.plain.Runs s s₀ := by
  cases t with
  | newInt lower upper =>
    obtain ⟨hlower, hupper, x, h⟩ := h
    obtain ⟨d, hd, rfl⟩ := Space.eq_of_newInt h
    refine ⟨(s.addInt d).2, rfl, hlower, hupper, s.store.ints.size, ?_⟩
    unfold Space.newInt
    rw [hd]
    rfl
  | newIntOfValues values =>
    obtain ⟨hfits, x, h⟩ := h
    obtain ⟨d, hd, rfl⟩ := Space.eq_of_newIntOfValues h
    refine ⟨(s.addInt d).2, rfl, hfits, s.store.ints.size, ?_⟩
    unfold Space.newIntOfValues
    rw [hd]
    rfl
  | newBool =>
    cases h
    exact ⟨s.newBool.2, rfl, rfl⟩
  | newSet required possible cardMin cardMax =>
    obtain ⟨x, h⟩ := h
    obtain ⟨d, hd, rfl⟩ := Space.eq_of_newSet h
    refine ⟨s.addSet d, rfl, s.store.sets.size, ?_⟩
    unfold Space.newSet
    rw [hd]
    rfl
  | restrict x relation v =>
    obtain ⟨hx, halive, event, h⟩ := h
    obtain ⟨⟨event', state⟩, hstate, h⟩ := Yields.exists_of_bind h
    cases h
    refine ⟨{ s with state }, rfl, hx, halive, event, ?_⟩
    exact congrArg (· >>= fun r => pure (r.1, { s with state := r.2 })) hstate
  | includeElement set v | excludeElement set v | boundCardinality set least greatest =>
    obtain ⟨hset, halive, event, h⟩ := h
    obtain ⟨⟨event', state⟩, hstate, h⟩ := Yields.exists_of_bind h
    cases h
    refine ⟨{ s with state }, rfl, hset, halive, event, ?_⟩
    exact congrArg (· >>= fun r => pure (r.1, { s with state := r.2 })) hstate
  | post c =>
    obtain ⟨hc, n, h⟩ := h
    rw [Posting.post_eq_bind] at h
    obtain ⟨q, hq, h⟩ := Request.exists_of_bind h
    rw [Space.post_breaking] at h
    cases hpost : s.post q with
    | error fault =>
      rw [hpost] at h
      cases h
    | ok outcome =>
      rw [hpost] at h
      cases outcome with
      | error refusal => cases h
      | ok r =>
        obtain ⟨number, s₁⟩ := r
        cases h
        refine ⟨s₁, rfl, hc, number, ?_⟩
        show c.post s = _
        rw [Posting.post_eq_bind, hq]
        exact hpost
  | branch b =>
    cases h
    refine ⟨(s.branch (b.breaking [])).2, ?_, rfl⟩
    have hpush : (s.branchers.breaking σ).push ((b.breaking []).breaking σ) =
        (s.branchers.push (b.breaking [])).breaking σ := Table.push_breaking (b.breaking [])
    rw [Brancher.breaking_breaking, hb b rfl] at hpush
    exact congrArg (fun branchers => { s with branchers }) hpush
  | status =>
    obtain ⟨halive, status, h⟩ := h
    rw [Space.status_breaking, ← bind_pure_comp] at h
    obtain ⟨⟨status', s₁⟩, hreturns, h⟩ := Journaled.exists_of_returns_bind h
    cases Journaled.of_returns_pure h
    exact ⟨s₁, rfl, halive, _, hreturns⟩

end Statement

theorem postings_plain (statements : List Statement) :
    postings (statements.map Statement.plain) = postings statements := by
  unfold postings
  rw [List.filterMap_map]
  exact congrFun (congrArg _ (funext Statement.posting?_plain)) statements

theorem branchings_plain (statements : List Statement) :
    branchings (statements.map Statement.plain) =
      (branchings statements).map (Brancher.breaking []) := by
  unfold branchings
  rw [List.filterMap_map, List.map_filterMap]
  exact congrFun (congrArg _ (funext Statement.brancher?_plain)) statements

/-- A space that was built with the symmetries `σ` is one without symmetries, with `σ` for its
branchers. -/
theorem Built.exists_breaking {policy : Policy} {statements : List Statement} {s : Space}
    (h : Built policy statements s) (hb : ∀ b ∈ branchings statements, b.breaking σ = b) :
    ∃ s₀, s = s₀.breaking σ ∧ Built policy (statements.map Statement.plain) s₀ := by
  induction h with
  | empty =>
    refine ⟨Space.ofPolicy policy, ?_, .empty⟩
    exact congrArg (fun branchers => { Space.ofPolicy policy with branchers })
      Table.breaking_empty.symm
  | @step statements s s' t hs ht ih =>
    rw [branchings_append] at hb
    obtain ⟨s₀, rfl, hs₀⟩ := ih fun b hmem => hb b (List.mem_append_left _ hmem)
    obtain ⟨s₁, rfl, ht₁⟩ := ht.exists_plain fun b hmem =>
      hb b (List.mem_append_right _ (Option.mem_toList.2 hmem))
    refine ⟨s₁, rfl, ?_⟩
    rw [List.map_append]
    exact hs₀.step ht₁

end ConstraintSearch
