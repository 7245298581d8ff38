import ConstraintSearch.Proofs.Permanence
import ConstraintSearch.Proofs.Search.Model

/-!
# Propagation comes to an end

Each turn of propagation makes a domain smaller, replaces a propagator by a simpler one, or leaves
fewer propagators scheduled; so the number of turns is bounded by what a space is, whatever its
queue has gone through. Handles may be shared and repeated freely.

* `Propagator.Fresh`, `Brancher.ExistsIn`, `Space.Operation.Admissible`: clients post propagators of
  integers and sets, and mention variables that exist;
* `Space.InOrder`: every operation of such a client keeps the invariant of propagation, or fails the
  space;
* `Space.Turns k s s'`: `k` turns of propagation lead from `s` to `s'`;
* `Space.Reachable.terminates`: in every space that such a client reaches, the turns of propagation
  are bounded, each execution ends, and the status is returned, unless 32-bit arithmetic faults.
-/

namespace ConstraintSearch

variable {δ : Prop}

/-! ### Narrowings without floats -/

/-- A narrowing of a view that did not fail follows its law, whether the variable exists or not. -/
theorem IntVar.narrowedTo_of_restrict {x : IntVar} {relation : Relation} {v : Int} {s s' : Store}
    {event : Event} (hs : s.Sound) (h : x.restrict relation v s = .ok (event, s'))
    (he : event.isFailed = false) : ∃ condition, s.NarrowedTo x.ref condition event s' := by
  obtain ⟨pulled, hpulled, h⟩ := Yields.exists_of_bind h
  have hmeans := ((yields_pull (.inr trivial) relation v : Yields True _ _).of_ok hpulled).1
  cases pulled with
  | never =>
    cases h
    cases he
  | always =>
    cases h
    exact ⟨fun _ => True, Store.narrowingLaw_unchanged hs trivial⟩
  | root i relation' w =>
    obtain ⟨rfl, -⟩ := hmeans
    obtain ⟨d, hd, -⟩ := Yields.exists_of_bind h
    have hi := Table.lt_of_fetch hd
    have hlaw : Yields True (s.narrowInt x.index (·.restrict relation' w)) _ :=
      Store.yields_narrowInt hs hi ((hs.box.canonical x.index).restrict relation' w)
    have hlaw := hlaw.of_ok h
    unfold Store.NarrowingLaw at hlaw
    rw [he] at hlaw
    exact ⟨_, hlaw⟩

theorem Store.narrowedTo_of_narrowSet {i : Nat} {narrowing : SetDomain → Narrowing SetDomain}
    {condition : SetDomain → Prop} {s s' : Store} {event : Event} (hs : s.Sound)
    (hn : ∀ d : SetDomain, d.Normal →
      Narrowed SetDomain.Normal condition SetDomain.freedom d (narrowing d))
    (h : s.narrowSet i narrowing = .ok (event, s')) (he : event.isFailed = false) :
    ∃ condition, s.NarrowedTo (.set i) condition event s' := by
  obtain ⟨d, hd, -⟩ := Yields.exists_of_bind h
  have hi := Table.lt_of_fetch hd
  have hlaw : Yields True (s.narrowSet i narrowing) _ :=
    yields_narrowSet hs hi (hn _ (hs.box.normal i))
  have hlaw := hlaw.of_ok h
  unfold NarrowingLaw at hlaw
  rw [he] at hlaw
  exact ⟨_, hlaw⟩

namespace State

variable {s s' : State}

theorem advances_of_narrow {x : VarRef} {operation : Store → Except Fault (Event × Store)}
    {event : Event} (h : s.narrow x operation = .ok (event, s'))
    (ho : ∀ store, operation s.store = .ok (event, store) → event.isFailed = false →
      ∃ condition, s.store.NarrowedTo x condition event store) :
    s.Advances s' ∨ s'.failed = true := by
  rcases cases_of_narrow h with ⟨-, -, rfl⟩ | ⟨hf, store, hstore, rfl⟩
  · exact .inl (.refl _)
  · cases he : event.isFailed with
    | true => exact .inr ((of_narrow h hf).2 he)
    | false =>
      obtain ⟨condition, hnarrowed⟩ := ho store hstore he
      exact .inl (advances_notify hnarrowed he).1

/-- If there are no floats, then a narrowing advances the state or fails it. -/
theorem Step.advances (h : s.Step s') (hs : s.store.Sound) (hfloats : s.store.floats.size = 0) :
    s.Advances s' ∨ s'.failed = true := by
  cases h with
  | restrict h => exact advances_of_narrow h fun _ ho => IntVar.narrowedTo_of_restrict hs ho
  | narrowSet hn h => exact advances_of_narrow h fun _ ho => Store.narrowedTo_of_narrowSet hs hn ho
  | narrowFloat h =>
    refine advances_of_narrow h fun store ho => ?_
    obtain ⟨d, hd, -⟩ := Yields.exists_of_bind ho
    have hi : _ < s.store.floats.size := Table.lt_of_fetch hd
    omega

theorem Leads.advances (h : s.Leads s') (hs : s.store.Sound) (hfloats : s.store.floats.size = 0) :
    s.Advances s' ∨ s'.failed = true := by
  induction h with
  | refl => exact .inl (.refl s)
  | tail _ hstep ih =>
    rcases ih with hadvances | hfailed
    · rcases hstep.advances (hadvances.sound hs) (hadvances.store.floats ▸ hfloats) with h | h
      · exact .inl (hadvances.trans h)
      · exact .inr h
    · exact .inr (hstep.descends.failed hfailed)

end State

/-! ### What clients post -/

namespace Propagator

/-- The propagator as a client posts it: it is one of the propagators of integers and sets, its
variables exist, and nothing is marked or settled. -/
def Fresh (δ : Prop) (s : Store) : Propagator → Prop
  | notEquals a b _ | lessOrEqual a b _ => a.Admissible δ s ∧ b.Admissible δ s
  | linearAtMost terms _ | linearEqual terms _ | clause terms => ∀ x ∈ terms, x.Admissible δ s
  | allDifferent vars => ∀ x ∈ vars, x.1.Admissible δ s ∧ x.2 = false
  | setCardinality set x => set < s.sets.size ∧ x.Admissible δ s
  | noGoods levels start => start = 0 ∧ ∀ level ∈ levels, level.Admissible δ s
  | floatAtMost _ _ | scripted _ _ => False

theorem Fresh.wellFormed {p : Propagator} {s : Store} (h : p.Fresh δ s) : p.WellFormed δ s := by
  cases p with
  | notEquals | lessOrEqual | linearAtMost | linearEqual | clause | setCardinality => exact h
  | allDifferent vars =>
    refine ⟨fun x hx => (h x hx).1, fun i x hi => ?_⟩
    have hmark : true = false := (h _ (List.mem_of_getElem? hi)).2
    cases hmark
  | noGoods levels start =>
    obtain ⟨rfl, h⟩ := h
    exact ⟨h, by simp⟩
  | floatAtMost | scripted => exact h.elim

end Propagator

namespace Brancher

variable {b b' : Brancher} {s s' : Store}

/-- The brancher is one of integers or sets, and its variables exist. -/
def ExistsIn (s : Store) : Brancher → Prop
  | int b => ∀ x ∈ b.vars.toList, x.index < s.ints.size
  | set vars _ => ∀ i ∈ vars.toList, i < s.sets.size
  | float _ _ _ => False

theorem ExistsIn.of_evolves (h : b.ExistsIn s) (he : s.Evolves s') : b.ExistsIn s' := by
  cases b with
  | int b => exact fun x hx => (h x hx).trans_le he.size_ints
  | set vars start => exact fun i hi => (h i hi).trans_le he.size_sets
  | float vars precision start => exact h.elim

/-- The status of a brancher is found, and the brancher keeps its variables. -/
theorem ExistsIn.yields_status (h : b.ExistsIn s) (hs : s.Sound) :
    Yields δ (b.status s) fun r => r.2.ExistsIn s := by
  cases b with
  | int b =>
    have hfixed (x) (hx : x ∈ b.vars.toList.drop b.start) :
        Yields δ (x.isFixed s) fun fixed => fixed = true ↔ (x.fixedAt s.box).isSome = true := by
      refine (IntVar.yields_isFixed hs (h x (List.mem_of_mem_drop hx))).mono fun fixed h => ?_
      rw [h.1]
    exact (yields_countDecided hfixed).bind fun n _ => Yields.pure h
  | set vars start =>
    have hassigned (i) (hi : i ∈ vars.toList.drop start) :
        Yields δ (do return (← s.set i).isAssigned) fun b =>
          b = true ↔ (s.box.sets i).isAssigned = true := by
      refine (Store.yields_set (h i (List.mem_of_mem_drop hi))).bind fun d hd => Yields.pure ?_
      rw [hd]
    exact (yields_countDecided hassigned).bind fun n _ => Yields.pure h
  | float vars precision start => exact h.elim

theorem ExistsIn.of_decide {state : State} {decision : Decision} (hb : b.ExistsIn s)
    (h : b.decide state = .ok (decision, b')) : b'.ExistsIn s := by
  cases b with
  | int b =>
    obtain ⟨⟨decision', b₁⟩, hdecide, h⟩ := Yields.exists_of_bind h
    cases h
    obtain ⟨⟨position, select⟩, -, hdecide⟩ := Yields.exists_of_bind hdecide
    obtain ⟨x, -, hdecide⟩ := Yields.exists_of_bind hdecide
    obtain ⟨fixed, -, hdecide⟩ := Yields.exists_of_bind hdecide
    dsimp only at hdecide
    split at hdecide
    · cases hdecide
    obtain ⟨⟨split, value⟩, -, hdecide⟩ := Yields.exists_of_bind hdecide
    cases hdecide
    exact hb
  | set vars start =>
    obtain ⟨x, -, h⟩ := Yields.exists_of_bind h
    obtain ⟨d, -, h⟩ := Yields.exists_of_bind h
    split at h
    · cases h
      exact hb
    · cases h
  | float vars precision start => exact hb.elim

theorem ExistsIn.gives_commit (hb : b.ExistsIn s) (decision : Decision) (alternative : Nat) :
    Propagation.Gives (·.ExistsIn s) (b.commit decision alternative) := by
  unfold commit
  split
  · rename_i b position x split breaks
    have hcommit : Propagation.Gives (fun b' : IntBrancher => (int b').ExistsIn s)
        (b.commit position x split alternative) := by
      cases split with
      | equal v =>
        unfold IntBrancher.commit IntBrancher.commitEqual
        dsimp only
        split
        · exact .bind .trivial fun _ _ => .pure hb
        · exact .bind .trivial fun _ _ => .bind .trivial fun _ _ => .pure hb
      | atMost v | atLeast v =>
        unfold IntBrancher.commit
        dsimp only
        split
        · exact .bind .trivial fun _ _ => .pure hb
        · exact .bind .trivial fun _ _ => .bind .trivial fun _ _ => .pure hb
      | values vs => exact .bind .trivial fun _ _ => .bind .trivial fun _ _ => .pure hb
    intro state b' state' h
    rw [Propagation.bind_apply] at h
    obtain ⟨⟨outcome, state₁⟩, hr, h⟩ := Yields.exists_of_bind h
    cases outcome with
    | error i => cases h
    | ok b₁ =>
      cases h
      exact hcommit _ _ _ hr
  · split <;> exact .bind .trivial fun _ _ => .pure hb
  · exact hb.elim
  · exact .throw _

end Brancher

/-! ### What clients keep -/

namespace Space

variable {s s' : Space} {posted : List Propagator}

namespace Operation

/-- Clients create variables of integers and sets, post propagators of them, and mention variables
that exist. -/
def Admissible (δ : Prop) (s : Space) : Operation → Prop
  | newFloat _ _ => False
  | post p => p.Fresh δ s.store
  | branch b => b.ExistsIn s.store
  | _ => True

end Operation

/-- Unless the space has failed, its slots do the work of what was posted, and its branchers know
their variables. -/
structure InOrder (δ : Prop) (s : Space) : Prop where
  tracks : ∃ posted, s.Tracks δ posted none
  floats : s.store.floats.size = 0
  branchers : ∀ i b, s.branchers.get? i = some b → b.ExistsIn s.store

namespace InOrder

/-- Narrowing variables keeps everything in order. -/
theorem advance (h : s.InOrder δ) {state : State} (ha : s.state.Advances state) :
    InOrder δ { s with state } := by
  obtain ⟨posted, htracks⟩ := h.tracks
  exact ⟨⟨posted, htracks.advance ha⟩, ha.store.floats ▸ h.floats,
    fun i b hb => (h.branchers i b hb).of_evolves ha.store.evolves⟩

/-- New variables keep everything in order. -/
theorem extend (h : s.InOrder δ) {store : Store} (hstore : store.Sound)
    (he : s.store.Extends store) (hfloats : store.floats = s.store.floats) :
    InOrder δ { s with state := { s.state with store } } := by
  obtain ⟨posted, htracks⟩ := h.tracks
  exact ⟨⟨posted, htracks.extend hstore he⟩, (congrArg Table.size hfloats).trans h.floats,
    fun i b hb => (h.branchers i b hb).of_evolves he.evolves⟩

theorem post (h : s.InOrder δ) {p : Propagator} (hp : p.Fresh δ s.store) :
    (s.posting p).InOrder δ := by
  obtain ⟨posted, htracks⟩ := h.tracks
  exact ⟨⟨_, htracks.posting hp.wellFormed⟩, h.floats, h.branchers⟩

/-- A brancher of existing variables may take any place. -/
theorem setBrancher (h : s.InOrder δ) {b : Brancher} (hb : b.ExistsIn s.store) (i : Nat) :
    InOrder δ { s with branchers := s.branchers.set i b } := by
  obtain ⟨posted, htracks⟩ := h.tracks
  refine ⟨⟨posted, htracks.congr rfl rfl⟩, h.floats, fun j b' hb' => ?_⟩
  change (s.branchers.set i b).get? j = some b' at hb'
  rw [Table.get?_set] at hb'
  split at hb'
  · split at hb'
    · cases hb'
      exact hb
    · cases hb'
  · exact h.branchers j b' hb'

/-- Narrowings that do not fail keep everything in order. -/
theorem leads (h : s.InOrder δ) {state : State} (hl : s.state.Leads state) :
    state.failed = true ∨ InOrder δ { s with state } := by
  obtain ⟨posted, htracks⟩ := h.tracks
  rcases hl.advances htracks.ready.sound h.floats with ha | hf
  · exact .inr (h.advance ha)
  · exact .inl hf

theorem yields_advance {store : Store} (hs : store.Sound) {candidates : List (Brancher × Nat)}
    {branchers : Table Brancher} {active : Nat} (hcandidates : ∀ c ∈ candidates, c.1.ExistsIn store)
    (h : ∀ i b, branchers.get? i = some b → b.ExistsIn store) :
    Yields δ (Space.advance store candidates branchers active) fun r =>
      ∀ i b, r.2.1.get? i = some b → b.ExistsIn store := by
  induction candidates generalizing branchers active with
  | nil => exact Yields.pure h
  | cons candidate rest ih =>
    obtain ⟨b, position⟩ := candidate
    obtain ⟨hb, hrest⟩ := List.forall_mem_cons.1 hcandidates
    refine (hb.yields_status hs).bind fun r hr => ?_
    obtain ⟨isOpen, b'⟩ := r
    have hset (i) (b'' : Brancher) (hget : (branchers.set position b').get? i = some b'') :
        b''.ExistsIn store := by
      rw [Table.get?_set] at hget
      split at hget
      · split at hget
        · cases hget
          exact hr
        · cases hget
      · exact h i b'' hget
    cases isOpen with
    | true => exact Yields.pure hset
    | false => exact ih hrest hset

/-- The status is returned, and leaves everything in order unless the space has failed. -/
theorem yields_status (h : s.InOrder δ) :
    Journaled.Yields δ s.status fun r => r.2.isFailed = true ∨ r.2.InOrder δ := by
  obtain ⟨posted, htracks⟩ := h.tracks
  refine (propagate_law htracks).bind fun s₁ hs₁ => ?_
  unfold Propagated at hs₁
  by_cases hf : s₁.isFailed = true
  · rw [if_pos hf]
    exact Journaled.Yields.pure (.inl hf)
  rw [if_neg hf] at hs₁ ⊢
  obtain ⟨htracks₁, hprogress, -⟩ := hs₁
  have hbranchers (i) (b : Brancher) (hb : s₁.branchers.get? i = some b) :
      b.ExistsIn s₁.store := by
    rw [hprogress.branching.branchers] at hb
    exact (h.branchers i b hb).of_evolves hprogress.narrows.evolves
  refine (Journaled.Yields.lift (yields_advance htracks₁.ready.sound (fun c hc => ?_)
    hbranchers)).bind fun r hr => Journaled.Yields.pure (.inr ?_)
  · have hmem := (List.mem_zipIdx (List.mem_of_mem_drop hc)).2.2
    exact hbranchers _ _ (Array.getElem?_eq_some_iff.2 ⟨_, hmem.symm⟩)
  · exact ⟨⟨posted, htracks₁.congr rfl rfl⟩, hprogress.narrows.floats ▸ h.floats, hr⟩

end InOrder

/-- **Every operation of a client keeps everything in order**, or fails the space. -/
theorem Operation.Runs.inOrder {o : Operation} (h : o.Runs s s') (hs : s.InOrder δ)
    (ho : o.Admissible δ s) : s'.isFailed = true ∨ s'.InOrder δ := by
  obtain ⟨posted, htracks⟩ := hs.tracks
  cases o with
  | newInt | newIntOfValues | newBool | newSet =>
    obtain ⟨store, rfl, hextends, hfloats, hsound⟩ := h.exists_store trivial
    exact .inr (hs.extend (hsound htracks.ready.sound) hextends hfloats)
  | newFloat => exact ho.elim
  | restrict | restrictBelow | restrictAbove | restrictTo | includeElement | excludeElement
  | boundCardinality | setFloatUpper | setFloatLower | constrain | fail =>
    obtain ⟨state, hl, rfl | rfl⟩ := h.exists_state trivial
    · exact hs.leads hl
    · exact .inl rfl
  | post p =>
    have hposting := post_eq htracks.ready.alive (Propagator.Fresh.wellFormed ho)
    rcases h with ⟨n, h⟩ | ⟨error, h, -⟩
    · rw [hposting] at h
      cases h
      exact .inr (hs.post ho)
    · rw [hposting] at h
      cases h
  | branch b =>
    cases h
    refine .inr ⟨⟨posted, htracks.congr rfl rfl⟩, hs.floats, fun i b' hb' => ?_⟩
    change (s.branchers.push b).rows[i]? = some b' at hb'
    simp only [Table.push, Array.getElem?_push] at hb'
    split at hb'
    · cases hb'
      exact ho
    · exact hs.branchers i b' hb'
  | aim o =>
    cases h
    exact .inr ⟨⟨posted, htracks.congr rfl rfl⟩, hs.floats, hs.branchers⟩
  | status =>
    obtain ⟨status, h⟩ := h
    exact hs.yields_status.of_returns h
  | choose =>
    obtain ⟨c, h⟩ := h
    obtain ⟨b, b', decision, hb, hdecide, rfl⟩ := exists_of_choice h
    exact .inr (hs.setBrancher ((hs.branchers _ b hb).of_decide hdecide) _)
  | commit c alternative =>
    rcases cases_of_commit h with rfl | ⟨b, hb, outcome, state, hstate, h⟩
    · exact .inr hs
    have hl := (b.commit_narrows _ _ _ _ hstate).leads
    cases outcome with
    | error i =>
      cases h
      exact .inl rfl
    | ok b' =>
      cases h
      refine (hs.leads hl).imp id fun hs' => ?_
      exact hs'.setBrancher ((hs'.branchers _ b hb).gives_commit _ _ _ _ _ hstate) _

/-- In the spaces that a client reaches, everything is in order unless they have failed. -/
theorem Reachable.inOrder (h : s.Reachable (Operation.Admissible δ)) :
    s.isFailed = true ∨ s.InOrder δ := by
  induction h with
  | empty policy =>
    refine .inr ⟨⟨[], tracks_ofPolicy policy⟩, rfl, fun i b hb => ?_⟩
    cases hb
  | step _ ho hr ih =>
    rcases ih with hf | hs
    · exact .inl (hr.descends.failed hf)
    · exact hr.inOrder hs ho

/-! ### Turns -/

/-- One turn of propagation leads from `s` to `s'`: the propagator that is served next is executed,
and the space has not failed. -/
def Turn (s s' : Space) : Prop :=
  s.isFailed = false ∧ ∃ n s₁, s.pop = (some n, s₁) ∧ (s₁.execute n).Returns (true, s')

/-- So many turns of propagation lead from one space to the other. -/
inductive Turns : Nat → Space → Space → Prop
  | zero (s : Space) : Turns 0 s s
  | succ {k : Nat} {s s₁ s' : Space} (h : s.Turn s₁) (hs : Turns k s₁ s') : Turns (k + 1) s s'

/-- A turn makes the measure smaller. -/
theorem Tracks.turn (h : s.Tracks δ posted none) (ht : s.Turn s') :
    s'.Tracks δ posted none ∧ s'.measure < s.measure := by
  obtain ⟨-, n, s₁, hpop, hreturns⟩ := ht
  have hpopped := h.pop
  rw [hpop] at hpopped
  obtain ⟨htracks, -, hmeasure⟩ := hpopped
  obtain ⟨htracks', hshrinks, -⟩ := (execute_law htracks).of_returns hreturns
  exact ⟨htracks', (hshrinks.measure_le htracks').trans_lt hmeasure⟩

/-- There are no more turns than the measure says. -/
theorem Tracks.turns {k : Nat} (h : s.Tracks δ posted none) (ht : Turns k s s') :
    s'.Tracks δ posted none ∧ s'.measure + k ≤ s.measure := by
  induction ht with
  | zero s => exact ⟨h, Nat.le_refl _⟩
  | succ hturn _ ih =>
    obtain ⟨htracks, hmeasure⟩ := h.turn hturn
    obtain ⟨htracks', hle⟩ := ih htracks
    exact ⟨htracks', by omega⟩

/-! ### Executions -/

theorem propagations_settle (s : Space) (n : Nat) (p : Propagator) (verdict : Verdict Propagator) :
    (s.settle n p verdict).Ensures fun s' => s'.propagations = s.propagations := by
  have hretire : (s.retire n p).Ensures (· = s.retired n) :=
    (yields_retire (δ := True) s n p).ensures
  cases verdict with
  | fix | noFix => exact Journaled.Ensures.pure rfl
  | subsumed =>
    refine hretire.mono ?_
    rintro s' rfl
    rfl
  | replace successor =>
    refine hretire.bind ?_
    rintro s' rfl
    exact Journaled.Ensures.trivial.bind fun _ _ => Journaled.Ensures.trivial.bind fun _ _ =>
      Journaled.Ensures.pure rfl

theorem propagations_execute (s : Space) (n : Nat) :
    (s.execute n).Ensures fun r => r.2.propagations ≤ s.propagations + 1 := by
  unfold execute
  cases s.propagator? n with
  | none => exact Journaled.Ensures.pure (Nat.le_succ _)
  | some p =>
    refine Journaled.Ensures.trivial.bind fun r _ => ?_
    obtain ⟨outcome, state⟩ := r
    cases outcome with
    | error i =>
      exact Journaled.Ensures.trivial.bind fun _ _ => Journaled.Ensures.pure (Nat.le_refl _)
    | ok r =>
      exact (propagations_settle _ n r.1 r.2).bind fun s' hs' =>
        Journaled.Ensures.pure (Nat.le_of_eq hs')

/-- There are no more executions than the measure says. -/
theorem Tracks.propagations_propagateWithin (h : s.Tracks δ posted none) (steps : Nat) :
    (propagateWithin steps s).Ensures fun s' => s'.propagations ≤ s.propagations + s.measure := by
  -- Each execution counts one, and makes the measure smaller by one at least.
  induction steps generalizing s with
  | zero => exact Journaled.Ensures.throw _
  | succ steps ih =>
    have hpop := h.pop
    have hsame : s.pop.2.propagations = s.propagations := rfl
    unfold propagateWithin
    generalize s.pop = r at hpop hsame
    obtain ⟨number, s₁⟩ := r
    cases number with
    | none => exact Journaled.Ensures.pure (hsame ▸ Nat.le_add_right _ _)
    | some n =>
      obtain ⟨htracks, -, hmeasure⟩ := hpop
      have hexecute : (s₁.execute n).Ensures fun r =>
          s₁.Executed δ posted r ∧ r.2.propagations ≤ s₁.propagations + 1 := fun r hr =>
        ⟨(execute_law htracks).of_returns hr, propagations_execute s₁ n r hr⟩
      refine hexecute.bind fun r hr => ?_
      obtain ⟨consistent, s₂⟩ := r
      obtain ⟨hexecuted, hcount⟩ := hr
      dsimp only at hsame hcount
      cases consistent with
      | false => exact Journaled.Ensures.pure (by omega)
      | true =>
        obtain ⟨htracks₂, hshrinks, -⟩ := hexecuted
        have hle := hshrinks.measure_le htracks₂
        exact (ih htracks₂).mono fun s₃ hs₃ => by omega

theorem InOrder.propagations_status (h : s.InOrder δ) :
    s.status.Ensures fun r => r.2.propagations ≤ s.propagations + s.propagationBound := by
  obtain ⟨posted, htracks⟩ := h.tracks
  have hpropagate : s.propagate.Ensures fun s' =>
      s'.propagations ≤ s.propagations + s.propagationBound := by
    unfold propagate
    rw [if_neg (by simp [isFailed, htracks.ready.alive])]
    exact (htracks.propagations_propagateWithin _).mono fun s' hs' =>
      hs'.trans (Nat.add_le_add_left htracks.measure_lt.le _)
  refine hpropagate.bind fun s₁ hs₁ => ?_
  split
  · exact Journaled.Ensures.pure hs₁
  · exact Journaled.Ensures.trivial.bind fun r _ => Journaled.Ensures.pure hs₁

/-- Propagation comes to an end: no more turns are possible than the bound says, each execution on
the way ends, and so does the status, after no more executions than that. An execution that does not
end with a result ends with a fault of 32-bit arithmetic. -/
structure Terminates (δ : Prop) (s : Space) (bound : Nat) : Prop where
  turns : ∀ k s', Turns k s s' → k ≤ bound
  executions : ∀ k s' n s₁, Turns k s s' → s'.isFailed = false → s'.pop = (some n, s₁) →
    Journaled.Yields δ (s₁.execute n) fun _ => True
  status : Journaled.Yields δ s.status fun r => r.2.propagations ≤ s.propagations + bound

/-- **The fixpoint of propagation is reached**, in every space that a client reaches. -/
theorem Reachable.terminates (h : s.Reachable (Operation.Admissible δ)) :
    s.Terminates δ s.propagationBound := by
  rcases h.inOrder with hf | hs
  · refine ⟨fun k s' ht => ?_, fun k s' n s₁ ht => ?_, fun journal => ?_⟩
    · cases ht with
      | zero => exact Nat.zero_le _
      | succ hturn => exact absurd hf (by simp [hturn.1])
    · cases ht with
      | zero => exact fun halive => absurd hf (by simp [halive])
      | succ hturn => exact absurd hf (by simp [hturn.1])
    · rw [status_of_failed hf]
      exact Nat.le_add_right _ _
  · obtain ⟨posted, htracks⟩ := hs.tracks
    refine ⟨fun k s' ht => ?_, fun k s' n s₁ ht _ hpop => ?_, ?_⟩
    · have hle := (htracks.turns ht).2
      have hlt := htracks.measure_lt
      omega
    · have hpopped := (htracks.turns ht).1.pop
      rw [hpop] at hpopped
      exact (execute_law hpopped.1).mono fun _ _ => trivial
    · exact hs.yields_status.self.mono fun r hr => hs.propagations_status r hr.2

/-! ### Clients that can be evaluated -/

section Decidable

variable [Decidable δ]

instance (x : IntVar) (s : Store) : Decidable (x.Admissible δ s) :=
  have := decidableProper x
  decidable_of_iff (x.index < s.ints.size ∧ (x.Proper ∨ δ))
    ⟨fun h => ⟨h.1, h.2⟩, fun h => ⟨h.exists_var, h.proper⟩⟩

instance decidableAdmissible (s : Store) : (l : Literal) → Decidable (l.Admissible δ s)
  | .comparison x _ _ => inferInstanceAs (Decidable (x.Admissible δ s))
  | .membership i _ _ => inferInstanceAs (Decidable (i < s.sets.size))

instance (level : NoGoodLevel) (s : Store) : Decidable (level.Admissible δ s) :=
  decidable_of_iff
    ((∀ l ∈ level.explored, l.Admissible δ s) ∧ ∀ l ∈ level.taken, l.Admissible δ s)
    ⟨fun h => ⟨h.1, h.2⟩, fun h => ⟨h.explored, h.taken⟩⟩

instance decidableFresh (s : Store) : (p : Propagator) → Decidable (p.Fresh δ s)
  | .notEquals a b _ | .lessOrEqual a b _ =>
      inferInstanceAs (Decidable (a.Admissible δ s ∧ b.Admissible δ s))
  | .linearAtMost terms _ | .linearEqual terms _ | .clause terms =>
      inferInstanceAs (Decidable (∀ x ∈ terms, x.Admissible δ s))
  | .allDifferent vars => inferInstanceAs (Decidable (∀ x ∈ vars, x.1.Admissible δ s ∧ x.2 = false))
  | .setCardinality set x =>
      inferInstanceAs (Decidable (set < s.sets.size ∧ x.Admissible δ s))
  | .noGoods levels start =>
      inferInstanceAs (Decidable (start = 0 ∧ ∀ level ∈ levels, level.Admissible δ s))
  | .floatAtMost _ _ | .scripted _ _ => inferInstanceAs (Decidable False)

instance decidableExistsIn (s : Store) : (b : Brancher) → Decidable (b.ExistsIn s)
  | .int b => inferInstanceAs (Decidable (∀ x ∈ b.vars.toList, x.index < s.ints.size))
  | .set vars _ => inferInstanceAs (Decidable (∀ i ∈ vars.toList, i < s.sets.size))
  | .float _ _ _ => inferInstanceAs (Decidable False)

instance decidableAllowed (s : Space) : (o : Operation) → Decidable (o.Admissible δ s)
  | .newFloat _ _ => inferInstanceAs (Decidable False)
  | .post p => inferInstanceAs (Decidable (p.Fresh δ s.store))
  | .branch b => inferInstanceAs (Decidable (b.ExistsIn s.store))
  | .newInt _ _ | .newIntOfValues _ | .newBool | .newSet _ _ _ _ | .restrict _ _ _
  | .restrictBelow _ _ | .restrictAbove _ _ | .restrictTo _ _ | .includeElement _ _
  | .excludeElement _ _ | .boundCardinality _ _ _ | .setFloatUpper _ _ | .setFloatLower _ _
  | .aim _ | .status | .choose | .commit _ _ | .constrain _ | .fail =>
      inferInstanceAs (Decidable True)

end Decidable

/-- A client whose constraints name variables several times, and which commits to an alternative
that takes symmetric values from its variables. -/
def repeating : List Operation :=
  [.newInt 0 6, .newInt 0 6, .newSet [] [1, 2, 3] 0 3,
    .post (.linearEqual [.root 0, .affine (.root 0) 2 0, .affine (.root 1) (-1) 0] 0),
    .post (.setCardinality 0 (.root 1)), .post (.allDifferent [(.root 0, false), (.root 1, false)]),
    .post (.lessOrEqual (.root 0) (.root 0) 0), .status,
    .branch (.int ⟨⟨#[.root 0, .root 1]⟩, 0, .inputOrder, .min, [.positions [0, 1]]⟩),
    .status, .choose, .commit ⟨0, .int 0 (.root 0) (.equal 1) true⟩ 0]

theorem Reachable.terminates_repeating :
    ∃ s : Space, s.Reachable (Operation.Admissible False) ∧
      (s.isFailed = false ∧ s.propagationBound ≠ 0) ∧
      s.Terminates False s.propagationBound := by
  have hrun : ((ofPolicy .costOrdered).performAll?
      (fun s o => decide (o.Admissible False s)) repeating).any (fun s =>
        decide (s.isFailed = false ∧ s.propagationBound ≠ 0)) = true := by
    decide +kernel
  obtain ⟨s, hs, hproperty⟩ := (Option.any_eq_true ..).1 hrun
  have hreachable : s.Reachable (Operation.Admissible False) :=
    (Reachable.empty .costOrdered).performAll? (fun s o => of_decide_eq_true) hs
  exact ⟨s, hreachable, of_decide_eq_true hproperty, hreachable.terminates⟩

end Space

end ConstraintSearch
