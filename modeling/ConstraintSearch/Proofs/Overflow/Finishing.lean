import ConstraintSearch.Proofs.Restriction
import ConstraintSearch.Proofs.Termination

/-!
# Computations without faults

The laws of propagation say what is true of the results, and admit that 32-bit arithmetic faults
instead. To say exactly when it does, it takes laws in both directions.

* `Propagation.Finishes m s`: on the state `s` the action `m` has a result or ends in an
  inconsistency. A sequence of actions finishes if and only if each of them does
  (`Propagation.finishes_bind_iff` and its relatives for readings, arithmetic and restrictions);
* `Journaled.Finishes`: the same for computations that write notes;
* `Space.finishes_status`: the status of a space is returned if propagation finishes and the
  branchers can read their variables;
* `Space.Sole`: a space with one propagator, which is scheduled. Its propagation is one run of the
  propagator (`Space.Sole.finishes_propagate`, `Space.Sole.finishes_run`).
-/

namespace ConstraintSearch

/-! ### Actions -/

namespace Propagation

variable {α β : Type} {m : Propagation α} {f : α → Propagation β} {s s' : State}

/-- On the state `s`, the action has no fault. -/
def Finishes (m : Propagation α) (s : State) : Prop := ∃ r, m s = .ok r

theorem finishes_pure (a : α) (s : State) : (pure a : Propagation α).Finishes s := ⟨_, rfl⟩

theorem finishes_throw (i : Inconsistency) (s : State) :
    (MonadExcept.throw i : Propagation α).Finishes s := ⟨_, rfl⟩

/-- A sequence finishes if the first action does, and the second one from every result of it. -/
theorem finishes_bind_iff : (m >>= f).Finishes s ↔
    m.Finishes s ∧ ∀ a s', m s = .ok (.ok a, s') → (f a).Finishes s' := by
  unfold Finishes
  rw [bind_apply]
  cases hm : m s with
  | error fault =>
    refine ⟨fun h => ?_, fun h => ?_⟩
    · obtain ⟨r, hr⟩ := h
      cases hr
    · obtain ⟨⟨r, hr⟩, -⟩ := h
      cases hr
  | ok r =>
    obtain ⟨outcome, s₁⟩ := r
    cases outcome with
    | error i =>
      refine iff_of_true ⟨_, rfl⟩ ⟨⟨_, rfl⟩, fun a s' h => ?_⟩
      cases h
    | ok a =>
      refine ⟨fun h => ⟨⟨_, rfl⟩, fun a' s' heq => ?_⟩, fun h => h.2 a s₁ rfl⟩
      cases heq
      exact h

theorem finishes_return_iff {g : α → β} : Finishes (do return g (← m)) s ↔ m.Finishes s :=
  finishes_bind_iff.trans (and_iff_left fun _ _ _ => finishes_pure _ _)

theorem finishes_lift_bind_iff {r : Except Fault α} :
    ((liftM r : Propagation α) >>= f).Finishes s ↔ ∃ a, r = .ok a ∧ (f a).Finishes s := by
  rw [finishes_bind_iff]
  cases r with
  | error fault =>
    refine ⟨fun h => ?_, fun h => ?_⟩
    · obtain ⟨⟨r, hr⟩, -⟩ := h
      cases hr
    · obtain ⟨a, ha, -⟩ := h
      cases ha
  | ok a =>
    refine ⟨fun h => ⟨a, rfl, h.2 a s rfl⟩, fun h => ⟨⟨_, rfl⟩, fun a' s' heq => ?_⟩⟩
    cases heq
    obtain ⟨b, hb, h⟩ := h
    cases hb
    exact h

theorem finishes_reading_bind_of_ok {g : Store → Except Fault α} {a : α} (h : g s.store = .ok a) :
    (reading g >>= f).Finishes s ↔ (f a).Finishes s := by
  unfold Finishes
  rw [bind_of_ok (reading_of_ok h)]

/-- Arithmetic finishes if the result is a word. -/
theorem finishes_checked_bind_iff {operation : Operation} {v : Int} {f : Int → Propagation β} :
    ((liftM (Word.checked operation v) : Propagation Int) >>= f).Finishes s ↔
      Word.Fits v ∧ (f v).Finishes s := by
  rw [finishes_lift_bind_iff]
  simp only [Word.checked_eq_ok]
  exact ⟨fun ⟨_, ⟨hfits, rfl⟩, h⟩ => ⟨hfits, h⟩, fun ⟨hfits, h⟩ => ⟨v, ⟨hfits, rfl⟩, h⟩⟩

/-- A restriction finishes if it can be carried back to the store. -/
theorem finishes_restrict_iff (hs : s.failed = false) {x : IntVar}
    (hx : x.index < s.store.ints.size) {relation : Relation} {v : Int} :
    (restrict x relation v).Finishes s ↔ ∃ p, x.pull relation v = .ok p := by
  rw [← State.exists_restrict_iff hs hx]
  constructor
  · rintro ⟨r, hr⟩
    obtain ⟨q, hq, -⟩ := Yields.exists_of_bind hr
    exact ⟨q, hq⟩
  · rintro ⟨⟨event, s'⟩, hr⟩
    show ∃ r, (s.restrict x relation v >>= _ : Except Fault _) = .ok r
    rw [hr]
    exact ⟨_, rfl⟩

/-- What a restriction leaves that has not failed. -/
theorem of_restrict (hs : s.Ready) {x : IntVar} (hx : x.index < s.store.ints.size)
    {relation : Relation} {v : Int} {event : Event}
    (h : restrict x relation v s = .ok (.ok event, s')) :
    s'.Ready ∧ ∃ d : IntDomain, d.Canonical ∧
      (∀ u, u ∈ d ↔ u ∈ s.store.box.ints x.index ∧ relation.Holds (x.eval u) v) ∧
      s'.store = s.store.withInt x.index d := by
  obtain ⟨⟨event', s₁⟩, hrestrict, h⟩ := Yields.exists_of_bind h
  rcases State.cases_of_restrict hs hx hrestrict with ⟨rfl, -, -⟩ |
    ⟨he, halive, d, hd, hmem, hstore⟩
  · cases h
  · dsimp only at h
    rw [he] at h
    cases h
    refine ⟨⟨halive, ?_⟩, d, hd, hmem, hstore⟩
    rw [hstore]
    exact hs.sound.withInt hx hd fun u hu => ((hmem u).1 hu).1

/-- A restriction that some value satisfies does not fail. -/
theorem exists_restrict_of_mem (hs : s.Ready) {x : IntVar} (hx : x.index < s.store.ints.size)
    {relation : Relation} {v : Int} (hpull : ∃ p, x.pull relation v = .ok p) {u : Int}
    (hu : u ∈ s.store.box.ints x.index) (hv : relation.Holds (x.eval u) v) :
    ∃ event s', restrict x relation v s = .ok (.ok event, s') := by
  obtain ⟨⟨event, s'⟩, hr⟩ := (State.exists_restrict_iff hs.alive hx).2 hpull
  refine ⟨event, s', ?_⟩
  show (s.restrict x relation v >>= _ : Except Fault _) = _
  rcases State.cases_of_restrict hs hx hr with ⟨-, -, hnone⟩ | ⟨he, -⟩
  · exact absurd hv (hnone u hu)
  · rw [hr]
    show Except.ok (if event.isFailed then _ else _, s') = _
    rw [he]
    rfl

end Propagation

/-- A run of a propagator whose handles are good faults with an overflow, if at all. -/
theorem Propagator.overflow_of_run {s : State} {p : Propagator} (hs : s.Ready)
    (hw : p.WellFormed False s.store) {fault : Fault} (h : p.run s = .error fault) :
    ∃ operation, fault = .overflow operation := by
  have hlaw := Propagator.run_law hs hw
  unfold Propagation.Law Yields at hlaw
  rw [h] at hlaw
  cases fault <;> first | exact ⟨_, rfl⟩ | exact hlaw.elim

/-! ### Computations that write notes -/

namespace Journaled

variable {α β : Type} {m : Journaled α} {f : α → Journaled β}

/-- Whatever was written before, the computation has no fault. -/
def Finishes (m : Journaled α) : Prop := ∀ journal, ∃ a, (m journal).1 = .ok a

theorem Finishes.pure (a : α) : (Pure.pure a : Journaled α).Finishes := fun _ => ⟨a, rfl⟩

theorem Finishes.note (n : Note) : (Journaled.note n).Finishes := fun _ => ⟨⟨⟩, rfl⟩

theorem Finishes.lift {r : Except Fault α} {a : α} (h : r = .ok a) :
    (liftM r : Journaled α).Finishes := by
  intro journal
  rw [h]
  exact ⟨a, rfl⟩

theorem Finishes.bind (hm : m.Finishes) (hf : ∀ a, m.Returns a → (f a).Finishes) :
    (m >>= f).Finishes := by
  intro journal
  obtain ⟨a, ha⟩ := hm journal
  obtain ⟨b, hb⟩ := hf a ⟨journal, ha⟩ (m journal).2
  refine ⟨b, ?_⟩
  rw [bind_apply, ha]
  exact hb

end Journaled

/-! ### Branchers -/

theorem exists_countDecided {α : Type} {decided : α → Except Fault Bool} {xs : List α}
    (h : ∀ x ∈ xs, ∃ b, decided x = .ok b) : ∃ n, countDecided decided xs = .ok n := by
  induction xs with
  | nil => exact ⟨0, rfl⟩
  | cons x xs ih =>
    obtain ⟨b, hb⟩ := h x (by simp)
    obtain ⟨n, hn⟩ := ih fun y hy => h y (by simp [hy])
    unfold countDecided
    rw [hb]
    cases b
    · exact ⟨0, rfl⟩
    · exact ⟨n + 1, by rw [hn]; rfl⟩

namespace Brancher

variable {b : Brancher} {s s' : Store}

/-- The variables of the brancher exist, and none of them overflows where it is read. -/
structure Legible (s : Store) (b : Brancher) : Prop where
  exist : b.ExistsIn s
  readable : ∀ x ∈ b.ints, x.Readable s

theorem Legible.of_evolves (h : b.Legible s) (hs : s.Sound) (hs' : s'.Sound)
    (he : s.Evolves s') : b.Legible s' := by
  refine ⟨h.exist.of_evolves he, fun x hx => ?_⟩
  cases b with
  | int b => exact (h.readable x hx).of_evolves hs hs' he (h.exist x hx)
  | set | float => cases hx

theorem Legible.exists_status (h : b.Legible s) : ∃ r, b.status s = .ok r := by
  obtain ⟨hexist, hreadable⟩ := h
  cases b with
  | int b =>
    obtain ⟨n, hn⟩ : ∃ n, countDecided (·.isFixed s) (b.vars.toList.drop b.start) = .ok n := by
      refine exists_countDecided fun x hx => ?_
      have hx := List.mem_of_mem_drop hx
      exact ⟨_, (hreadable x hx).isFixed (hexist x hx)⟩
    exact ⟨_, by rw [status, hn]; rfl⟩
  | set vars start =>
    obtain ⟨n, hn⟩ : ∃ n, countDecided (fun x => return (← s.set x).isAssigned)
        (vars.toList.drop start) = .ok n := by
      refine exists_countDecided fun i hi => ⟨(s.box.sets i).isAssigned, ?_⟩
      rw [Store.set_of_lt (hexist i (List.mem_of_mem_drop hi))]
      rfl
    exact ⟨_, by rw [status, hn]; rfl⟩
  | float vars precision start => exact hexist.elim

end Brancher

namespace Space

variable {δ : Prop} {s s' : Space} {q : Propagator} {posted : List Propagator}

theorem exists_advance {store : Store} {candidates : List (Brancher × Nat)}
    (h : ∀ c ∈ candidates, c.1.Legible store) (branchers : Table Brancher) (active : Nat) :
    ∃ r, advance store candidates branchers active = .ok r := by
  induction candidates generalizing branchers active with
  | nil => exact ⟨_, rfl⟩
  | cons candidate rest ih =>
    obtain ⟨b, position⟩ := candidate
    obtain ⟨hb, hrest⟩ := List.forall_mem_cons.1 h
    obtain ⟨⟨isOpen, b'⟩, hr⟩ := hb.exists_status
    unfold advance
    rw [hr]
    cases isOpen
    · exact ih hrest _ _
    · exact ⟨_, rfl⟩

/-- The branchers of the space can read their variables. -/
def Legible (s : Space) : Prop := ∀ i b, s.branchers.get? i = some b → b.Legible s.store

/-- The status is returned if propagation finishes and the branchers can read their variables. -/
theorem finishes_status (h : s.Tracks δ posted none) (hpropagate : s.propagate.Finishes)
    (hlegible : s.Legible) : s.status.Finishes := by
  unfold status
  refine hpropagate.bind fun s₁ hs₁ => ?_
  have hlaw := (propagate_law h).of_returns hs₁
  unfold Propagated at hlaw
  by_cases hf : s₁.isFailed = true
  · rw [if_pos hf]
    exact Journaled.Finishes.pure _
  rw [if_neg hf] at hlaw ⊢
  obtain ⟨htracks, hprogress, -⟩ := hlaw
  have hcandidates : ∀ c ∈ s₁.branchers.toList.zipIdx.drop s₁.active, c.1.Legible s₁.store := by
    intro c hc
    have hmem := (List.mem_zipIdx (List.mem_of_mem_drop hc)).2.2
    have hget : s₁.branchers.get? (c.2 - 0) = some c.1 :=
      Array.getElem?_eq_some_iff.2 ⟨_, hmem.symm⟩
    rw [hprogress.branching.branchers] at hget
    exact (hlegible _ _ hget).of_evolves h.ready.sound htracks.ready.sound hprogress.narrows.evolves
  obtain ⟨r, hr⟩ := exists_advance hcandidates s₁.branchers s₁.active
  exact (Journaled.Finishes.lift hr).bind fun r _ => Journaled.Finishes.pure _

/-! ### One propagator -/

/-- The space has one propagator, which is scheduled. -/
structure Sole (δ : Prop) (s : Space) (q : Propagator) : Prop where
  tracks : s.Tracks δ [q] none
  slot : s.propagator? 0 = some q
  scheduled : s.state.queue.isScheduled 0 = true

/-- A propagator that is posted in a space without propagators. -/
theorem sole_posting (h : s.Tracks δ [] none) (hw : q.WellFormed δ s.store) :
    (s.posting q).Sole δ q := by
  have hsize : s.propagators.size = 0 := h.size
  refine ⟨h.posting hw, ?_, ?_⟩
  · rw [propagator?_posting, if_pos hsize]
  · refine (isScheduled_occupy 0).trans ?_
    rw [decide_eq_true hsize, Bool.true_or]

/-- The propagator is executed next. -/
theorem Sole.exists_pop (h : s.Sole δ q) : ∃ s₁, s.pop = (some 0, s₁) ∧
    s₁.Tracks δ [q] (some 0) ∧ s₁.propagator? 0 = some q ∧ s₁.store = s.store := by
  have hpop := h.tracks.queue.pop
  have htracks := h.tracks.pop
  unfold Space.pop State.pop at htracks ⊢
  generalize s.state.queue.pop = r at hpop htracks ⊢
  obtain ⟨number, queue⟩ := r
  cases number with
  | none =>
    have hnot := hpop.2.2 0
    rw [h.scheduled] at hnot
    cases hnot
  | some n =>
    have hn : n < 1 := h.tracks.scheduled n hpop.2.1
    obtain rfl : n = 0 := by omega
    exact ⟨_, rfl, htracks.1, h.slot, rfl⟩

/-- Propagation takes two steps at least. -/
theorem exists_propagationBound (s : Space) : ∃ steps, s.propagationBound = steps + 2 := by
  refine Nat.exists_eq_add_of_le' ?_
  unfold propagationBound
  exact Nat.succ_le_succ (Nat.mul_pos (Nat.succ_pos _) (Nat.succ_pos _))

theorem finishes_propagateWithin_of_idle (hvalid : s.state.queue.Valid)
    (hidle : ∀ n, s.state.queue.isScheduled n = false) (steps : Nat) :
    (propagateWithin (steps + 1) s).Finishes := by
  have hpop := hvalid.pop
  unfold propagateWithin Space.pop State.pop
  generalize s.state.queue.pop = r at hpop
  obtain ⟨number, queue⟩ := r
  cases number with
  | none => exact Journaled.Finishes.pure _
  | some n =>
    have hn := hpop.2.1
    rw [hidle n] at hn
    cases hn

theorem finishes_retire (s : Space) (n : Nat) (p : Propagator) : (s.retire n p).Finishes := by
  have hretire : p.retire.Finishes := by
    cases p <;> first | exact Journaled.Finishes.note _ | exact Journaled.Finishes.pure _
  exact hretire.bind fun _ _ => Journaled.Finishes.pure _

/-- A run that answers that it is at a fixpoint, or not needed any more, is settled without a
fault, and the propagator is not scheduled then. -/
theorem finishes_settle {n : Nat} {p : Propagator} {verdict : Verdict Propagator}
    (h : verdict = .fix ∨ verdict = .subsumed) :
    (s.settle n p verdict).Finishes ∧
      ∀ s', (s.settle n p verdict).Returns s' → s'.state.queue.isScheduled n = false := by
  have hremoved : (s.state.queue.remove n).isScheduled n = false := by
    rw [Queue.isScheduled_remove, decide_eq_true rfl]
    rfl
  rcases h with rfl | rfl
  · refine ⟨Journaled.Finishes.pure _, fun s' hs' => ?_⟩
    obtain rfl := Journaled.of_returns_pure hs'
    exact hremoved
  · refine ⟨finishes_retire s n p, fun s' hs' => ?_⟩
    obtain rfl := (yields_retire (δ := True) s n p).of_returns hs'
    exact hremoved

/-- A propagator that is never replaced answers that it is at a fixpoint, or not needed any more. -/
theorem verdict_of_answers {p : Propagator} {store : Store} {verdict : Verdict Propagator}
    (hq : q.replacements = 0) (h : q.Answers δ store (p, verdict)) :
    verdict = .fix ∨ verdict = .subsumed := by
  cases verdict with
  | fix => exact .inl rfl
  | subsumed => exact .inr rfl
  | noFix => exact h.elim
  | replace successor =>
    obtain ⟨-, hfewer, -⟩ := h
    omega

/-- An execution finishes if the run does, and if the propagator is never replaced, it is not
scheduled then. -/
theorem finishes_execute {n : Nat} (h : s.Tracks δ posted (some n))
    (hslot : s.propagator? n = some q) (hq : q.replacements = 0) (hrun : q.run.Finishes s.state) :
    (s.execute n).Finishes ∧
      ∀ s', (s.execute n).Returns (true, s') → s'.state.queue.isScheduled n = false := by
  obtain ⟨p, hp⟩ := h.exists_posted hslot
  have hw := (h.upholds hp hslot).wellFormed
  obtain ⟨r, hr⟩ := hrun
  have hexecute : (q.execute s.state).Finishes := by
    rw [Propagator.execute_eq_run hw]
    exact Journaled.Finishes.lift hr
  have hlaw := Propagator.execute_law h.ready hw
  unfold execute
  rw [hslot]
  refine ⟨hexecute.bind fun r hr => ?_, fun s' hs' => ?_⟩
  · have hanswers := hlaw.of_returns hr
    obtain ⟨outcome, state⟩ := r
    cases outcome with
    | error i => exact (Journaled.Finishes.note _).bind fun _ _ => Journaled.Finishes.pure _
    | ok r =>
      have hsettle := finishes_settle (s := { s with state, propagations := s.propagations + 1 })
        (n := n) (p := r.1) (verdict_of_answers hq hanswers.2)
      exact hsettle.1.bind fun _ _ => Journaled.Finishes.pure _
  · obtain ⟨r, hr, hs'⟩ := Journaled.exists_of_returns_bind hs'
    have hanswers := hlaw.of_returns hr
    obtain ⟨outcome, state⟩ := r
    cases outcome with
    | error i =>
      obtain ⟨-, -, hs'⟩ := Journaled.exists_of_returns_bind hs'
      cases Journaled.of_returns_pure hs'
    | ok r =>
      obtain ⟨s₂, hs₂, hs'⟩ := Journaled.exists_of_returns_bind hs'
      obtain rfl := congrArg Prod.snd (Journaled.of_returns_pure hs')
      exact (finishes_settle (verdict_of_answers hq hanswers.2)).2 _ hs₂

/-- Propagation begins with a run of the propagator. -/
theorem Sole.finishes_run (h : s.Sole δ q) (hs' : s.propagate.Returns s') :
    ∃ state : State, state.Ready ∧ state.store = s.store ∧ q.run.Finishes state := by
  obtain ⟨s₁, hpop, htracks, hslot, hstore⟩ := h.exists_pop
  obtain ⟨steps, hsteps⟩ := exists_propagationBound s
  unfold propagate at hs'
  rw [if_neg (by simp [isFailed, h.tracks.ready.alive]), hsteps, propagateWithin, hpop] at hs'
  obtain ⟨r, hr, -⟩ := Journaled.exists_of_returns_bind hs'
  unfold execute at hr
  rw [hslot] at hr
  obtain ⟨outcome, houtcome, -⟩ := Journaled.exists_of_returns_bind hr
  have hw := (htracks.upholds rfl hslot).wellFormed
  rw [Propagator.execute_eq_run hw] at houtcome
  exact ⟨s₁.state, htracks.ready, hstore, outcome, Journaled.of_returns_lift houtcome⟩

/-- Propagation finishes if the run of the propagator does, and the propagator is never replaced. -/
theorem Sole.finishes_propagate (h : s.Sole δ q) (hq : q.replacements = 0)
    (hrun : ∀ state : State, state.Ready → state.store = s.store → q.run.Finishes state) :
    s.propagate.Finishes := by
  obtain ⟨s₁, hpop, htracks, hslot, hstore⟩ := h.exists_pop
  obtain ⟨steps, hsteps⟩ := exists_propagationBound s
  unfold propagate
  rw [if_neg (by simp [isFailed, h.tracks.ready.alive]), hsteps, propagateWithin, hpop]
  obtain ⟨hexecute, hidle⟩ :=
    finishes_execute htracks hslot hq (hrun s₁.state htracks.ready hstore)
  refine hexecute.bind fun r hr => ?_
  obtain ⟨consistent, s₂⟩ := r
  cases consistent with
  | false => exact Journaled.Finishes.pure _
  | true =>
    obtain ⟨htracks₂, -, -⟩ := (execute_law htracks).of_returns hr
    refine finishes_propagateWithin_of_idle htracks₂.queue (fun n => ?_) steps
    by_contra hn
    have hn := eq_true_of_ne_false hn
    obtain rfl : n = 0 := Nat.lt_one_iff.1 (htracks₂.scheduled n hn)
    rw [hidle s₂ hr] at hn
    cases hn

end Space

end ConstraintSearch
