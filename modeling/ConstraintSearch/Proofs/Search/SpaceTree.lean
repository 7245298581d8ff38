import ConstraintSearch.Proofs.Search.Unfolding

/-!
# The tree of a space

The tree that the status of a space, its choice and the commits of all alternatives span. Nothing is
assumed about the propagators and the branchers.

* `Journaled.Steady`, `Space.steady_status`: what was written before does not matter for a status;
* `Space.status_of_status`: a status that is asked for again is the same, and changes nothing;
* `Space.Reaches`: the node that a path of alternatives leads to;
* `Space.HasTree`: the tree is finite, and no computation of a node faults.
-/

namespace ConstraintSearch

/-! ### Computations that do not read the journal -/

namespace Journaled

variable {α β : Type} {m : Journaled α} {f : α → Journaled β} {a b : α}

/-- The result does not depend on what was written before. -/
def Steady (m : Journaled α) : Prop := ∀ journal journal', (m journal).1 = (m journal').1

/-- The computation has the result `a`, whatever was written before. -/
def Always (m : Journaled α) (a : α) : Prop := ∀ journal, (m journal).1 = .ok a

namespace Steady

theorem pure : Steady (Pure.pure a : Journaled α) := fun _ _ => rfl

theorem throw (fault : Fault) : Steady (throwThe Fault fault : Journaled α) := fun _ _ => rfl

theorem note (n : Note) : Steady (Journaled.note n) := fun _ _ => rfl

theorem lift (r : Except Fault α) : Steady (liftM r : Journaled α) := fun _ _ => rfl

theorem bind (hm : Steady m) (hf : ∀ a, Steady (f a)) : Steady (m >>= f) := by
  intro journal journal'
  rw [bind_apply, bind_apply, ← hm journal journal']
  cases (m journal).1 with
  | error fault => rfl
  | ok a => exact hf a _ _

theorem tryCatch {handle : Fault → Journaled α} (hm : Steady m)
    (hhandle : ∀ fault, Steady (handle fault)) : Steady (tryCatchThe Fault m handle) := by
  have hbind (g : Except Fault α → StateM Journal (Except Fault α))
      (hg : ∀ r journal journal', (g r journal).1 = (g r journal').1) (journal journal' : Journal) :
      ((m.run >>= g) journal).1 = ((m.run >>= g) journal').1 := by
    change (g (m journal).1 (m journal).2).1 = (g (m journal').1 (m journal').2).1
    rw [hm journal' journal]
    exact hg _ _ _
  intro journal journal'
  change (ExceptT.tryCatch m handle journal).1 = (ExceptT.tryCatch m handle journal').1
  unfold ExceptT.tryCatch
  refine hbind _ (fun r => ?_) _ _
  cases r with
  | ok a => exact fun _ _ => rfl
  | error fault => exact hhandle fault

theorem always (hm : Steady m) (h : m.Returns a) : m.Always a := by
  obtain ⟨journal, h⟩ := h
  exact fun journal' => (hm journal' journal).trans h

theorem unique (hm : Steady m) (h : m.Returns a) (h' : m.Returns b) : a = b := by
  obtain ⟨journal, h'⟩ := h'
  exact Except.ok.inj ((hm.always h journal).symm.trans h')

end Steady

theorem exists_of_returns_mapM {xs : List α} {ys : List β} (h : (xs.mapM f).Returns ys) :
    ∀ x ∈ xs, ∃ y, (f x).Returns y := by
  induction xs generalizing ys with
  | nil => exact fun x hx => absurd hx List.not_mem_nil
  | cons x xs ih =>
    rw [List.mapM_cons] at h
    obtain ⟨y, hy, h⟩ := exists_of_returns_bind h
    obtain ⟨ys', hys', -⟩ := exists_of_returns_bind h
    exact List.forall_mem_cons.2 ⟨⟨y, hy⟩, ih hys'⟩

theorem Always.bind {b : β} (hm : m.Always a) (hf : (f a).Always b) : (m >>= f).Always b := by
  intro journal
  rw [bind_apply, hm journal]
  exact hf _

theorem Always.pure : (Pure.pure a : Journaled α).Always a := fun _ => rfl

theorem Always.lift {r : Except Fault α} (h : r = .ok a) : (liftM r : Journaled α).Always a := by
  subst h
  exact fun _ => rfl

end Journaled

open Journaled (Steady)

namespace Script

theorem steady_playMoves (moves : List Move) (state : State) :
    Steady (playMoves moves state) := by
  induction moves generalizing state with
  | nil => exact Steady.pure
  | cons move moves ih =>
    refine (Steady.lift _).bind ?_
    rintro ⟨outcome, state'⟩
    cases outcome with
    | ok event => exact (Steady.note _).bind fun _ => ih state'
    | error inconsistency => exact (Steady.note _).bind fun _ => Steady.pure

theorem steady_play (script : Script) (number : Nat) (state : State) :
    Steady (script.play number state) := by
  refine (Steady.note _).bind fun _ => ?_
  split
  · exact Steady.pure
  · refine (steady_playMoves _ state).bind ?_
    rintro ⟨outcome, state'⟩
    dsimp only
    split <;> exact Steady.pure

end Script

namespace Propagator

theorem steady_execute (p : Propagator) (state : State) : Steady (p.execute state) := by
  cases p with
  | scripted script executions =>
    exact (Script.steady_play script _ state).bind fun _ => Steady.pure
  | _ => exact Steady.lift _

theorem steady_retire (p : Propagator) : Steady p.retire := by
  cases p with
  | scripted script executions => exact Steady.note _
  | _ => exact Steady.pure

end Propagator

namespace Space

variable {s s' : Space} {status : SpaceStatus}

theorem steady_retire (s : Space) (number : Nat) (p : Propagator) : Steady (s.retire number p) :=
  p.steady_retire.bind fun _ => Steady.pure

theorem steady_settle (s : Space) (number : Nat) (p : Propagator) (verdict : Verdict Propagator) :
    Steady (s.settle number p verdict) := by
  cases verdict with
  | fix | noFix => exact Steady.pure
  | subsumed => exact s.steady_retire number p
  | replace successor =>
    exact (s.steady_retire number p).bind fun _ => (Steady.lift _).bind fun _ =>
      (Steady.note _).bind fun _ => Steady.pure

theorem steady_execute (s : Space) (number : Nat) : Steady (s.execute number) := by
  unfold execute
  split
  · exact Steady.pure
  · rename_i p _
    refine (p.steady_execute s.state).bind ?_
    rintro ⟨outcome, state⟩
    cases outcome with
    | ok r => exact (steady_settle _ number r.1 r.2).bind fun _ => Steady.pure
    | error inconsistency => exact (Steady.note _).bind fun _ => Steady.pure

theorem steady_propagateWithin (steps : Nat) (s : Space) : Steady (propagateWithin steps s) := by
  induction steps generalizing s with
  | zero => exact Steady.throw _
  | succ steps ih =>
    unfold propagateWithin
    split
    · exact Steady.pure
    · refine (steady_execute _ _).bind ?_
      rintro ⟨consistent, s'⟩
      cases consistent with
      | true => exact ih s'
      | false => exact Steady.pure

theorem steady_propagate (s : Space) : Steady s.propagate := by
  unfold propagate
  split
  · exact Steady.pure
  · exact steady_propagateWithin _ s

/-- What was written before does not matter for a status. -/
theorem steady_status (s : Space) : Steady s.status := by
  refine s.steady_propagate.bind fun s' => ?_
  dsimp only
  split
  · exact Steady.pure
  · exact (Steady.lift _).bind fun _ => Steady.pure

/-! ### A status that is asked for again -/

/-- Nothing is left to propagate. -/
def Quiet (s : Space) : Prop :=
  s.isFailed = true ∨ s.state.queue.pop = (none, s.state.queue)

theorem pop_eq (s : Space) : s.pop = (s.state.queue.pop.1,
    { s with state := { s.state with queue := s.state.queue.pop.2 } }) := rfl

theorem propagateWithin_of_pop {steps : Nat} (h : s.pop = (none, s')) :
    propagateWithin (steps + 1) s = pure s' := by
  rw [propagateWithin, h]

theorem Quiet.propagate (h : s.Quiet) : s.propagate = pure s := by
  unfold Space.propagate
  split
  · rfl
  · rename_i hfailed
    have hpop := h.resolve_left hfailed
    exact propagateWithin_of_pop (by rw [pop_eq, hpop])

theorem quiet_of_pop (h : s.pop = (none, s')) : s'.Quiet := by
  rw [pop_eq] at h
  obtain ⟨hnone, rfl⟩ := Prod.mk.inj h
  exact .inr (Queue.pop_of_pop_none (Prod.ext hnone rfl))

theorem isFailed_of_execute {number : Nat} (h : (s.execute number).Returns (false, s')) :
    s'.isFailed = true := by
  unfold execute at h
  split at h
  · cases Journaled.of_returns_pure h
  · obtain ⟨⟨outcome, state⟩, -, h⟩ := Journaled.exists_of_returns_bind h
    cases outcome with
    | ok r =>
      obtain ⟨s₁, -, h⟩ := Journaled.exists_of_returns_bind h
      cases Journaled.of_returns_pure h
    | error inconsistency =>
      obtain ⟨_, -, h⟩ := Journaled.exists_of_returns_bind h
      cases Journaled.of_returns_pure h
      rfl

/-- Propagation leaves nothing to propagate. -/
theorem quiet_of_propagateWithin {steps : Nat} (h : (propagateWithin steps s).Returns s') :
    s'.Quiet := by
  induction steps generalizing s with
  | zero =>
    obtain ⟨journal, h⟩ := h
    cases h
  | succ steps ih =>
    unfold propagateWithin at h
    split at h
    · rename_i s₁ hpop
      obtain rfl := Journaled.of_returns_pure h
      exact quiet_of_pop hpop
    · rename_i number s₁ hpop
      obtain ⟨⟨consistent, s₂⟩, hexecute, h⟩ := Journaled.exists_of_returns_bind h
      cases consistent with
      | true => exact ih h
      | false =>
        obtain rfl := Journaled.of_returns_pure h
        exact .inl (isFailed_of_execute hexecute)

theorem quiet_of_propagate (h : s.propagate.Returns s') : s'.Quiet := by
  unfold propagate at h
  split at h
  · rename_i hfailed
    obtain rfl := Journaled.of_returns_pure h
    exact .inl hfailed
  · exact quiet_of_propagateWithin h

/-- The branchers from a position on, with their positions. -/
theorem candidates_eq_cons {branchers : Table Brancher} {active : Nat} {b : Brancher}
    (h : branchers.get? active = some b) : branchers.toList.zipIdx.drop active =
      (b, active) :: branchers.toList.zipIdx.drop (active + 1) := by
  have hget : branchers.toList.zipIdx[active]? = some (b, active) := by
    rw [List.getElem?_zipIdx, Table.toList, Array.getElem?_toList]
    change branchers.rows[active]? = some b at h
    rw [h, Nat.zero_add]
    rfl
  obtain ⟨hlt, hget⟩ := List.getElem?_eq_some_iff.1 hget
  rw [List.drop_eq_getElem_cons hlt, hget]

theorem drop_zipIdx_set (branchers : Table Brancher) (active : Nat) (b : Brancher) :
    (branchers.set active b).toList.zipIdx.drop (active + 1) =
      branchers.toList.zipIdx.drop (active + 1) := by
  refine List.ext_getElem? fun i => ?_
  rw [List.getElem?_drop, List.getElem?_drop, List.getElem?_zipIdx, List.getElem?_zipIdx]
  unfold Table.set Table.toList
  rw [Array.toList_setIfInBounds, List.getElem?_set_ne (by omega)]

/-- The branchers that are passed over are passed over again. -/
theorem advance_of_advance {store : Store} {branchers branchers' : Table Brancher}
    {active active' : Nat} {isOpen : Bool}
    (h : advance store (branchers.toList.zipIdx.drop active) branchers active =
      .ok (isOpen, branchers', active')) :
    advance store (branchers'.toList.zipIdx.drop active') branchers' active' =
      .ok (isOpen, branchers', active') := by
  generalize hn : branchers.size - active = n
  induction n generalizing branchers active with
  | zero =>
    have hle : branchers.rows.size ≤ active := Nat.sub_eq_zero_iff_le.1 hn
    have hnil : branchers.toList.zipIdx.drop active = [] :=
      List.drop_eq_nil_of_le (by simpa [Table.toList] using hle)
    rw [hnil] at h
    cases h
    rw [hnil]
    rfl
  | succ n ih =>
    have hlt : active < branchers.size := by omega
    obtain ⟨b, hb⟩ : ∃ b, branchers.get? active = some b :=
      ⟨branchers.rows[active], Array.getElem?_eq_getElem hlt⟩
    rw [candidates_eq_cons hb] at h
    obtain ⟨⟨open', b'⟩, hstatus, h⟩ := Yields.exists_of_bind h
    have hagain := Brancher.status_of_status hstatus
    cases open' with
    | true =>
      cases h
      have hb' : (branchers.set active' b').get? active' = some b' := by
        rw [Table.get?_set, if_pos rfl, if_pos hlt]
      have hset : (branchers.set active' b').set active' b' = branchers.set active' b' := by
        unfold Table.set
        rw [Array.setIfInBounds_setIfInBounds]
      rw [candidates_eq_cons hb', advance, hagain]
      show Except.ok (true, (branchers.set active' b').set active' b', active') = _
      rw [hset]
    | false =>
      have hsize : (branchers.set active b').size - (active + 1) = n := by
        rw [Table.size_set]
        omega
      refine ih ?_ hsize
      rw [drop_zipIdx_set]
      exact h

theorem Quiet.status_eq (h : s.Quiet) (hfailed : ¬s.isFailed = true) : s.status = (do
    let (isOpen, branchers, active) ←
      advance s.store (s.branchers.toList.zipIdx.drop s.active) s.branchers s.active
    return (if isOpen then .branch else .solved, { s with branchers, active })) := by
  unfold Space.status
  rw [h.propagate, pure_bind, if_neg hfailed]

/-- A status that is asked for again is the same, and changes nothing. -/
theorem status_of_status (h : s.status.Returns (status, s')) :
    s'.status.Returns (status, s') := by
  obtain ⟨s₁, hpropagate, h⟩ := Journaled.exists_of_returns_bind h
  have hquiet := quiet_of_propagate hpropagate
  dsimp only at h
  split at h
  · rename_i hfailed
    cases Journaled.of_returns_pure h
    refine ⟨#[], ?_⟩
    unfold Space.status
    rw [hquiet.propagate, pure_bind, if_pos hfailed]
    rfl
  · rename_i hfailed
    obtain ⟨⟨isOpen, branchers, active⟩, hadvance, h⟩ := Journaled.exists_of_returns_bind h
    have hadvance := Journaled.of_returns_lift hadvance
    cases Journaled.of_returns_pure h
    have hquiet' : Quiet { s₁ with branchers, active } := hquiet
    refine ⟨#[], ?_⟩
    rw [hquiet'.status_eq hfailed]
    dsimp only
    rw [show advance (store { s₁ with branchers, active }) (branchers.toList.zipIdx.drop active)
      branchers active = _ from advance_of_advance hadvance]
    rfl

/-! ### Nodes -/

/-- The node that a path of alternatives leads to: its status, and the space after it. -/
inductive Reaches : Space → List Nat → SpaceStatus × Space → Prop
  | root {s : Space} {r : SpaceStatus × Space} (h : s.status.Returns r) : s.Reaches [] r
  | child {s s₁ s₂ s₃ : Space} {c : Choice} {i : Nat} {path : List Nat} {r : SpaceStatus × Space}
      (h : s.status.Returns (.branch, s₁)) (hc : s₁.choice = .ok (c, s₂))
      (hi : i < c.alternatives) (hs : s₂.commit c i = .ok s₃) (hr : s₃.Reaches path r) :
      s.Reaches (i :: path) r

/-- The tree of the space is finite, and its nodes are computed without a fault. -/
inductive HasTree : Space → Prop
  | leaf {s s₁ : Space} {status : SpaceStatus} (h : s.status.Returns (status, s₁))
      (hleaf : status ≠ .branch) : s.HasTree
  | branch {s s₁ s₂ : Space} {c : Choice} {child : Nat → Space}
      (h : s.status.Returns (.branch, s₁)) (hc : s₁.choice = .ok (c, s₂))
      (hs : ∀ i < c.alternatives, s₂.commit c i = .ok (child i))
      (htree : ∀ i < c.alternatives, (child i).HasTree) : s.HasTree

variable {s₁ s₂ s₃ : Space} {c : Choice} {i : Nat} {path : List Nat} {r : SpaceStatus × Space}

theorem reaches_of_leaf (h : s.status.Returns (status, s₁)) (hleaf : status ≠ .branch) :
    s.Reaches path r ↔ path = [] ∧ r = (status, s₁) := by
  constructor
  · intro hr
    cases hr with
    | root hr => exact ⟨rfl, s.steady_status.unique hr h⟩
    | child hr =>
      cases s.steady_status.unique hr h
      exact absurd rfl hleaf
  · rintro ⟨rfl, rfl⟩
    exact .root h

theorem reaches_nil (h : s.status.Returns r) {r' : SpaceStatus × Space} :
    s.Reaches [] r' ↔ r' = r := by
  constructor
  · intro hr
    cases hr with
    | root hr => exact s.steady_status.unique hr h
  · rintro rfl
    exact .root h

theorem reaches_cons (h : s.status.Returns (.branch, s₁)) (hc : s₁.choice = .ok (c, s₂))
    (hi : i < c.alternatives) (hs : s₂.commit c i = .ok s₃) :
    s.Reaches (i :: path) r ↔ s₃.Reaches path r := by
  constructor
  · intro hr
    cases hr with
    | child h' hc' _ hs' hr =>
      cases s.steady_status.unique h h'
      cases hc.symm.trans hc'
      cases hs.symm.trans hs'
      exact hr
  · exact .child h hc hi hs

theorem lt_of_reaches_cons (h : s.status.Returns (.branch, s₁)) (hc : s₁.choice = .ok (c, s₂))
    (hr : s.Reaches (i :: path) r) : i < c.alternatives := by
  cases hr with
  | child h' hc' hi =>
    cases s.steady_status.unique h h'
    cases hc.symm.trans hc'
    exact hi

/-- A choice has two alternatives at least. -/
theorem two_le_alternatives (hc : s.choice = .ok (c, s')) : 2 ≤ c.alternatives := by
  unfold choice at hc
  split at hc
  · cases hc
  · obtain ⟨b, -, hc⟩ := Yields.exists_of_bind hc
    obtain ⟨⟨decision, b'⟩, -, hc⟩ := Yields.exists_of_bind hc
    dsimp only at hc
    split at hc
    · cases hc
    · rename_i hlt
      cases hc
      exact not_lt.1 hlt

/-- The tree below a space does not change by asking for its status. -/
theorem reaches_status (h : s.status.Returns (status, s')) :
    s'.Reaches path r ↔ s.Reaches path r := by
  have h' := status_of_status h
  constructor
  · intro hr
    cases hr with
    | root hr =>
      cases s'.steady_status.unique hr h'
      exact .root h
    | child hr hc hi hs hr' =>
      cases s'.steady_status.unique hr h'
      exact .child h hc hi hs hr'
  · intro hr
    cases hr with
    | root hr =>
      cases s.steady_status.unique hr h
      exact .root h'
    | child hr hc hi hs hr' =>
      cases s.steady_status.unique hr h
      exact .child h' hc hi hs hr'

theorem HasTree.of_status (htree : s.HasTree) (h : s.status.Returns (status, s')) :
    s'.HasTree := by
  have h' := status_of_status h
  cases htree with
  | leaf hs hleaf =>
    cases s.steady_status.unique hs h
    exact .leaf h' hleaf
  | branch hs hc hcommit hchildren =>
    cases s.steady_status.unique hs h
    exact .branch h' hc hcommit hchildren

/-- A space below which the naive recursion ends has a tree. -/
theorem hasTree_of_walk {depth : Nat} {visits : List Visit} (h : (s.walk depth).Returns visits) :
    s.HasTree := by
  induction depth generalizing s visits with
  | zero =>
    obtain ⟨journal, h⟩ := h
    cases h
  | succ depth ih =>
    obtain ⟨⟨status, s₁⟩, hstatus, h⟩ := Journaled.exists_of_returns_bind h
    cases status with
    | failed | solved => exact .leaf hstatus nofun
    | branch =>
      obtain ⟨⟨c, s₂⟩, hchoice, h⟩ := Journaled.exists_of_returns_bind h
      obtain ⟨below, hbelow, -⟩ := Journaled.exists_of_returns_bind h
      have hchildren (i : Nat) (hi : i < c.alternatives) :
          ∃ child, s₂.commit c i = .ok child ∧ child.HasTree := by
        obtain ⟨visits, hvisits⟩ :=
          Journaled.exists_of_returns_mapM hbelow i (List.mem_range.2 hi)
        obtain ⟨child, hchild, hvisits⟩ := Journaled.exists_of_returns_bind hvisits
        exact ⟨child, Journaled.of_returns_lift hchild, ih hvisits⟩
      choose! child hcommit htree using hchildren
      exact .branch hstatus (Journaled.of_returns_lift hchoice) hcommit htree

end Space

end ConstraintSearch
