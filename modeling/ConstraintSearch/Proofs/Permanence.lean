import ConstraintSearch.Proofs.Operations

/-!
# Narrowing is monotone, and failure is permanent

Whatever a client does with a space, the domains of its variables only become smaller, and they
never become empty. A failed space stays as it is: it is asked in vain for its status, nothing is
posted in it, and nothing is scheduled.

* `State.Descends s s'`: what can be said of everything that a state goes through on the way from
  `s` to `s'`, failure included. It holds of every narrowing (`State.Step.descends`), and so of the
  runs of all propagators and branchers;
* `Space.Operation.Runs.descends`: it holds of every operation;
* `Space.Reachable.narrows_of_becomes`: the statement about clients.
-/

namespace ConstraintSearch

namespace Store

variable {s s' s'' : Store}

theorem Evolves.refl (s : Store) : s.Evolves s := (Narrows.refl s).evolves

theorem Evolves.trans (h : s.Evolves s') (h' : s'.Evolves s'') : s.Evolves s'' :=
  ⟨h.size_ints.trans h'.size_ints, h.size_sets.trans h'.size_sets, h.within_of_within h'.within⟩

/-- From `s` to `s'`, variables were added, and no domain has changed. -/
structure Retains (s s' : Store) : Prop where
  ints : ∀ i d, s.int i = .ok d → s'.int i = .ok d
  sets : ∀ i d, s.set i = .ok d → s'.set i = .ok d
  floats : ∀ i d, s.float i = .ok d → s'.float i = .ok d

theorem Retains.refl (s : Store) : s.Retains s := ⟨fun _ _ => id, fun _ _ => id, fun _ _ => id⟩

theorem Retains.trans (h : s.Retains s') (h' : s'.Retains s'') : s.Retains s'' :=
  ⟨fun i d => h'.ints i d ∘ h.ints i d, fun i d => h'.sets i d ∘ h.sets i d,
    fun i d => h'.floats i d ∘ h.floats i d⟩

/-- From `s` to `s'` domains have only become smaller, and they are still in order. -/
def Declines (s s' : Store) : Prop := s.Sound → s'.Sound ∧ s.Evolves s'

theorem Declines.refl (s : Store) : s.Declines s := fun hs => ⟨hs, .refl s⟩

theorem Declines.trans (h : s.Declines s') (h' : s'.Declines s'') : s.Declines s'' := fun hs =>
  have hs' := h hs
  have hs'' := h' hs'.1
  ⟨hs''.1, hs'.2.trans hs''.2⟩

theorem Extends.retains (h : s.Extends s') (hfloats : s'.floats = s.floats) : s.Retains s' := by
  refine ⟨fun i d hd => ?_, fun i d hd => ?_, fun i d hd => ?_⟩
  · have hi : i < s.ints.size := Table.lt_of_fetch hd
    rw [← hd, int_of_lt hi, int_of_lt (hi.trans_le h.size_ints), h.ints i hi]
  · have hi : i < s.sets.size := Table.lt_of_fetch hd
    rw [← hd, set_of_lt hi, set_of_lt (hi.trans_le h.size_sets), h.sets i hi]
  · unfold float
    rw [hfloats]
    exact hd

theorem fetch_push {α : Type} {t : Table α} {i : Nat} {d : α} (h : t.fetch i = .ok d) (e : α) :
    (t.push e).fetch i = .ok d := by
  rw [Table.fetch_eq_ok] at h ⊢
  have hi : i < t.rows.size := (Array.getElem?_eq_some_iff.1 h).1
  exact (Array.getElem?_push_lt hi).trans ((Array.getElem?_eq_getElem hi).symm.trans h)

theorem declines_of_narrowInt {i : Nat} {narrowing : IntDomain → Narrowing IntDomain}
    {condition : IntDomain → Prop} {event : Event}
    (hn : ∀ d : IntDomain, d.Canonical →
      Narrowed IntDomain.Canonical condition IntDomain.size d (narrowing d))
    (h : s.narrowInt i narrowing = .ok (event, s')) : s.Declines s' := by
  intro hs
  obtain ⟨hi, ⟨-, rfl⟩ | ⟨d, hcase, rfl, rfl⟩⟩ := cases_of_narrowInt h
  · exact ⟨hs, .refl _⟩
  · have hnarrowed := hn _ (hs.box.canonical i)
    rw [hcase] at hnarrowed
    obtain ⟨hcanonical, hle, he, hsize, hgreatest⟩ := hnarrowed
    have hlaw := narrowedTo_int hs hi hcanonical hle he hsize hgreatest
    exact ⟨hlaw.sound, hlaw.narrows.evolves⟩

theorem declines_of_narrowSet {i : Nat} {narrowing : SetDomain → Narrowing SetDomain}
    {condition : SetDomain → Prop} {event : Event}
    (hn : ∀ d : SetDomain, d.Normal →
      Narrowed SetDomain.Normal condition SetDomain.freedom d (narrowing d))
    (h : s.narrowSet i narrowing = .ok (event, s')) : s.Declines s' := by
  intro hs
  obtain ⟨hi, ⟨-, rfl⟩ | ⟨d, hcase, rfl, rfl⟩⟩ := cases_of_narrowSet h
  · exact ⟨hs, .refl _⟩
  · have hnarrowed := hn _ (hs.box.normal i)
    rw [hcase] at hnarrowed
    obtain ⟨hnormal, hle, he, hsize, hgreatest⟩ := hnarrowed
    have hlaw := narrowedTo_set hs hi hnormal hle he hsize hgreatest
    exact ⟨hlaw.sound, hlaw.narrows.evolves⟩

theorem declines_of_narrowFloat {i : Nat} {narrowing : FloatDomain → Narrowing FloatDomain}
    {event : Event} (h : s.narrowFloat i narrowing = .ok (event, s')) : s.Declines s' := by
  intro hs
  obtain ⟨d, -, h⟩ := Yields.exists_of_bind h
  cases hcase : narrowing d with
  | unchanged | empty =>
    rw [hcase] at h
    cases h
    exact ⟨hs, .refl s⟩
  | changed e =>
    rw [hcase] at h
    cases h
    exact ⟨⟨hs.box, hs.fits⟩, Nat.le_refl _, Nat.le_refl _, s.box_within⟩

end Store

theorem IntVar.declines_of_restrict {x : IntVar} {relation : Relation} {v : Int} {s s' : Store}
    {event : Event} (h : x.restrict relation v s = .ok (event, s')) : s.Declines s' := by
  obtain ⟨pulled, -, h⟩ := Yields.exists_of_bind h
  cases pulled with
  | root i relation' w =>
    exact Store.declines_of_narrowInt (fun d hd => hd.restrict relation' w) h
  | never | always =>
    cases h
    exact .refl s

/-! ### States -/

namespace State

variable {s s' s'' : State}

/-- If the state has failed, then nothing is scheduled. -/
def Idle (s : State) : Prop := s.failed = true → ∀ n, s.queue.isScheduled n = false

/-- From `s` to `s'` domains have only become smaller; if `s` has failed, no domain has changed, and
`s'` has failed too. -/
structure Descends (s s' : State) : Prop where
  declines : s.store.Declines s'.store
  failed : s.failed = true → s'.failed = true
  frozen : s.failed = true → s.store.Retains s'.store
  idle : s.Idle → s'.Idle

namespace Descends

theorem refl (s : State) : s.Descends s := ⟨.refl _, id, fun _ => .refl _, id⟩

theorem trans (h : s.Descends s') (h' : s'.Descends s'') : s.Descends s'' :=
  ⟨h.declines.trans h'.declines, h'.failed ∘ h.failed,
    fun hs => (h.frozen hs).trans (h'.frozen (h.failed hs)), h'.idle ∘ h.idle⟩

/-- Where no domain is touched, and nothing is scheduled in a failed state. -/
theorem of_store_eq (hstore : s'.store = s.store) (hfailed : s.failed = true → s'.failed = true)
    (hidle : s.Idle → s'.Idle) : s.Descends s' := by
  refine ⟨?_, hfailed, fun _ => ?_, hidle⟩
  · rw [hstore]
    exact .refl _
  · rw [hstore]
    exact .refl _

/-- New variables, and nothing else. -/
theorem of_retains {store : Store} (hdeclines : s.store.Declines store)
    (hretains : s.store.Retains store) : s.Descends { s with store } :=
  ⟨hdeclines, id, fun _ => hretains, id⟩

end Descends

theorem idle_of_alive (h : s.failed = false) : s.Idle := fun hf => by
  rw [h] at hf
  cases hf

theorem idle_fail (s : State) : s.fail.Idle := fun _ n => Queue.isScheduled_clear s.queue n

theorem descends_fail (s : State) : s.Descends s.fail :=
  .of_store_eq rfl (fun _ => rfl) fun _ => s.idle_fail

theorem descends_of_narrow {x : VarRef} {operation : Store → Except Fault (Event × Store)}
    {event : Event} (h : s.narrow x operation = .ok (event, s'))
    (ho : ∀ store, operation s.store = .ok (event, store) → s.store.Declines store) :
    s.Descends s' := by
  rcases cases_of_narrow h with ⟨-, -, rfl⟩ | ⟨hs, store, hstore, rfl⟩
  · exact .refl _
  have hdeclines := ho store hstore
  have hdead (hf : s.failed = true) {P : Prop} : P := by
    rw [hs] at hf
    cases hf
  cases he : event.isFailed with
  | true =>
    have hnotify : { s with store }.notify x event = { s with store }.fail := by
      unfold notify
      rw [he, if_pos rfl]
    rw [hnotify]
    exact ⟨hdeclines, fun _ => rfl, fun hf => hdead hf, fun _ => idle_fail _⟩
  | false =>
    obtain ⟨queue, hnotify⟩ := notify_eq { s with store } x he
    rw [hnotify]
    exact ⟨hdeclines, fun hf => hdead hf, fun hf => hdead hf, fun _ => idle_of_alive hs⟩

theorem Step.descends (h : s.Step s') : s.Descends s' := by
  cases h with
  | restrict h => exact descends_of_narrow h fun _ ho => IntVar.declines_of_restrict ho
  | narrowSet hn h => exact descends_of_narrow h fun _ ho => Store.declines_of_narrowSet hn ho
  | narrowFloat h => exact descends_of_narrow h fun _ ho => Store.declines_of_narrowFloat ho

theorem Leads.descends (h : s.Leads s') : s.Descends s' := by
  induction h with
  | refl => exact .refl s
  | tail _ hstep ih => exact ih.trans hstep.descends

end State

/-! ### Propagation -/

namespace Space

variable {s s' : Space} {n : Nat}

theorem settle_ensures (s : Space) (n : Nat) (p : Propagator) (verdict : Verdict Propagator) :
    (s.settle n p verdict).Ensures fun s' => s'.store = s.store ∧ s'.isFailed = s.isFailed := by
  have hretire : (s.retire n p).Ensures (· = s.retired n) :=
    (yields_retire (δ := True) s n p).ensures
  cases verdict with
  | fix | noFix => exact Journaled.Ensures.pure ⟨rfl, rfl⟩
  | subsumed =>
    refine hretire.mono ?_
    rintro s' rfl
    exact ⟨rfl, rfl⟩
  | replace successor =>
    refine hretire.bind ?_
    rintro s' rfl
    exact Journaled.Ensures.trivial.bind fun _ _ => Journaled.Ensures.trivial.bind fun _ _ =>
      Journaled.Ensures.pure ⟨rfl, rfl⟩

/-- An execution in a space that has not failed leaves one that has failed or not, as it says. -/
theorem execute_ensures (hs : s.isFailed = false) (n : Nat) :
    (s.execute n).Ensures fun r => s.state.Descends r.2.state ∧ r.2.isFailed = !r.1 := by
  unfold execute
  cases s.propagator? n with
  | none => exact Journaled.Ensures.pure ⟨.refl _, hs⟩
  | some p =>
    refine (p.execute_ended s.state).bind fun r hr => ?_
    obtain ⟨outcome, state⟩ := r
    have hdescends : s.state.Descends state := hr.leads.descends
    cases outcome with
    | error i =>
      exact Journaled.Ensures.trivial.bind fun _ _ =>
        Journaled.Ensures.pure ⟨hdescends.trans state.descends_fail, rfl⟩
    | ok r =>
      have halive : state.failed = false := (hr.failed r rfl).trans hs
      refine (settle_ensures _ n r.1 r.2).bind fun s' hs' => Journaled.Ensures.pure ?_
      have hfailed : s'.state.failed = false := hs'.2.trans halive
      refine ⟨hdescends.trans (.of_store_eq hs'.1 (fun h => ?_) fun _ =>
        State.idle_of_alive hfailed), hfailed⟩
      rw [halive] at h
      cases h

theorem propagateWithin_ensures (hs : s.isFailed = false) (steps : Nat) :
    (propagateWithin steps s).Ensures fun s' => s.state.Descends s'.state := by
  induction steps generalizing s with
  | zero => exact Journaled.Ensures.throw _
  | succ steps ih =>
    -- What waits in the queue does not matter.
    have hpop : s.pop.2.isFailed = false ∧ s.state.Descends s.pop.2.state :=
      ⟨hs, .of_store_eq rfl id fun _ => State.idle_of_alive hs⟩
    unfold propagateWithin
    generalize s.pop = r at hpop
    obtain ⟨number, s₁⟩ := r
    obtain ⟨hs₁, hdescends⟩ := hpop
    cases number with
    | none => exact Journaled.Ensures.pure hdescends
    | some n =>
      refine (execute_ensures hs₁ n).bind fun r hr => ?_
      obtain ⟨consistent, s₂⟩ := r
      obtain ⟨hr, hfailed⟩ := hr
      replace hdescends := hdescends.trans hr
      cases consistent with
      | false => exact Journaled.Ensures.pure hdescends
      | true => exact (ih hfailed).mono fun _ h => hdescends.trans h

theorem descends_of_status {status : SpaceStatus} (h : s.status.Returns (status, s')) :
    s.state.Descends s'.state := by
  obtain ⟨s₁, hpropagate, -, hstate, -⟩ := exists_of_status h
  dsimp only at hstate
  rw [hstate]
  unfold propagate at hpropagate
  split at hpropagate
  · obtain rfl := Journaled.of_returns_pure hpropagate
    exact .refl _
  · rename_i hs
    exact (propagateWithin_ensures (by simpa using hs) _).of_returns hpropagate

/-! ### Operations -/

/-- A failed space refuses every propagator. -/
theorem post_of_failed (hs : s.isFailed = true) (p : Propagator) :
    s.post p = .ok (.error .infeasibleState) := by
  unfold post
  rw [if_pos hs]
  rfl

/-- A failed space reports its failure. -/
theorem status_of_failed (hs : s.isFailed = true) (journal : Journal) :
    s.status journal = (.ok (.failed, s), journal) := by
  have hpropagate : s.propagate = pure s := by
    unfold propagate
    rw [if_pos hs]
  unfold status
  rw [hpropagate, pure_bind, if_pos hs]
  rfl

theorem descends_of_post {p : Propagator} (h : s.post p = .ok (.ok (n, s'))) :
    s.state.Descends s'.state := by
  by_cases hs : s.isFailed = true
  · rw [post_of_failed hs] at h
    cases h
  · have halive : s.state.failed = false := Bool.eq_false_iff.2 hs
    unfold post at h
    rw [if_neg hs] at h
    obtain ⟨subscriptions, -, h⟩ := Request.exists_of_bind h
    cases h
    exact .of_store_eq rfl id fun _ => State.idle_of_alive halive

/-- Whatever the client does, domains only become smaller, and a failed space stays as it is. -/
theorem Operation.Runs.descends {o : Operation} (h : o.Runs s s') :
    s.state.Descends s'.state := by
  cases o with
  | newInt | newIntOfValues | newBool | newSet =>
    obtain ⟨store, rfl, hextends, hfloats, hsound⟩ := h.exists_store trivial
    exact .of_retains (fun hs => ⟨hsound hs, hextends.evolves⟩) (hextends.retains hfloats)
  | newFloat lower upper =>
    obtain ⟨x, h⟩ := h
    unfold Space.newFloat at h
    split at h
    · rename_i d hd
      cases h
      exact .of_retains (fun hs => ⟨⟨hs.box, hs.fits⟩, Nat.le_refl _, Nat.le_refl _,
        s.store.box_within⟩) ⟨fun _ _ => id, fun _ _ => id, fun _ _ h => Store.fetch_push h d⟩
    · cases h
  | restrict | restrictBelow | restrictAbove | restrictTo | includeElement | excludeElement
  | boundCardinality | setFloatUpper | setFloatLower | constrain | fail =>
    obtain ⟨state, hl, rfl | rfl⟩ := h.exists_state trivial
    · exact hl.descends
    · exact hl.descends.trans state.descends_fail
  | post p =>
    rcases h with ⟨n, h⟩ | ⟨error, -, rfl⟩
    · exact descends_of_post h
    · exact .refl _
  | branch b | aim o =>
    cases h
    exact .refl _
  | status =>
    obtain ⟨status, h⟩ := h
    exact descends_of_status h
  | choose =>
    obtain ⟨c, h⟩ := h
    obtain ⟨b, b', decision, -, -, rfl⟩ := exists_of_choice h
    exact .refl _
  | commit c alternative =>
    rcases cases_of_commit h with rfl | ⟨b, -, outcome, state, hstate, h⟩
    · exact .refl _
    · have hdescends := (b.commit_narrows _ _ _ _ hstate).leads.descends
      cases outcome with
      | ok b' =>
        cases h
        exact hdescends
      | error i =>
        cases h
        exact hdescends.trans state.descends_fail

theorem descends_of_becomes (h : Relation.ReflTransGen Becomes s s') :
    s.state.Descends s'.state := by
  induction h with
  | refl => exact .refl _
  | tail _ hstep ih =>
    obtain ⟨o, ho⟩ := hstep
    exact ih.trans ho.descends

/-- In the spaces that clients reach, the domains are in order, and nothing is scheduled after a
failure. -/
theorem Reachable.in_order {allowed : Space → Operation → Prop} (h : s.Reachable allowed) :
    s.store.Sound ∧ s.state.Idle := by
  induction h with
  | empty policy => exact ⟨Store.sound_empty, State.idle_of_alive rfl⟩
  | step _ _ hr ih => exact ⟨(hr.descends.declines ih.1).1, hr.descends.idle ih.2⟩

/-! ### Clients -/

/-- What is left of a failed space: it reports its failure, refuses propagators, and schedules
nothing. -/
structure Dead (s : Space) : Prop where
  failed : s.isFailed = true
  status : ∀ journal, s.status journal = (.ok (.failed, s), journal)
  post : ∀ p, s.post p = .ok (.error .infeasibleState)
  idle : ∀ n, s.state.queue.isScheduled n = false

/-- From `s` to `s'` the variables have lost values, but not all of them, and a failed space has
kept all of them and stayed failed. -/
structure Narrows (s s' : Space) : Prop where
  ints : ∀ i d, s.store.int i = .ok d →
    ∃ d', s'.store.int i = .ok d' ∧ (∃ v, v ∈ d') ∧ ∀ v ∈ d', v ∈ d
  sets : ∀ i d, s.store.set i = .ok d →
    ∃ d', s'.store.set i = .ok d' ∧ (∃ l, l ∈ d') ∧ ∀ l ∈ d', l ∈ d
  failed : s.isFailed = true → s'.isFailed = true
  frozen : s.isFailed = true → s.store.Retains s'.store
  dead : s'.isFailed = true → s'.Dead

/-- **Narrowing is monotone, and failure is permanent.** Whatever a client does with a space that it
has reached, every domain keeps a value and gets none; a failed space stays dead. -/
theorem Reachable.narrows_of_becomes {allowed : Space → Operation → Prop} (h : s.Reachable allowed)
    (hr : Relation.ReflTransGen Becomes s s') : s.Narrows s' := by
  obtain ⟨hs, hidle⟩ := h.in_order
  have hdescends := descends_of_becomes hr
  obtain ⟨hs', hevolves⟩ := hdescends.declines hs
  refine ⟨fun i d hd => ?_, fun i d hd => ?_, hdescends.failed, hdescends.frozen, fun hf =>
    ⟨hf, status_of_failed hf, post_of_failed hf, hdescends.idle hidle hf⟩⟩
  · have hi : i < s.store.ints.size := Table.lt_of_fetch hd
    obtain rfl := Except.ok.inj ((Store.int_of_lt hi).symm.trans hd)
    exact ⟨_, Store.int_of_lt (hi.trans_le hevolves.size_ints),
      ⟨_, (hs'.box.canonical i).min_mem⟩, hevolves.within.ints i hi⟩
  · have hi : i < s.store.sets.size := Table.lt_of_fetch hd
    obtain rfl := Except.ok.inj ((Store.set_of_lt hi).symm.trans hd)
    exact ⟨_, Store.set_of_lt (hi.trans_le hevolves.size_sets),
      (hs'.box.normal i).exists_mem, fun l hl => ⟨hl.1, SetDomain.le_trans hl.2
        (hevolves.within.sets i hi)⟩⟩

/-- Two variables with different values, split by a brancher that may exchange them. -/
def exchanging : List Operation :=
  [.newInt 0 2, .newInt 0 2, .post (.notEquals (.root 0) (.root 1) 0),
    .branch (.int ⟨⟨#[.root 0, .root 1]⟩, 0, .inputOrder, .min, [.positions [0, 1]]⟩), .status]

/-- The second alternative of a choice, which takes a value from both variables, and then values
that contradict each other. -/
def contradicting : List Operation :=
  [.commit ⟨0, .int 0 (.root 0) (.equal 0) true⟩ 1, .restrict (.root 0) .equal 1, .status,
    .restrictBelow (.root 1) 2, .post (.notEquals (.root 0) (.root 1) 0), .status]

theorem Reachable.narrows_of_becomes_contradicting :
    ∃ s s' : Space, s.Reachable (fun _ _ => True) ∧ Relation.ReflTransGen Becomes s s' ∧
      (s.isFailed = false ∧ s'.isFailed = true ∧
        (s.store.int 1).toOption ≠ (s'.store.int 1).toOption) ∧
      s.Narrows s' := by
  have hrun : ((ofPolicy .costOrdered).performAll? (fun _ _ => true) exchanging).any (fun s =>
      (s.performAll? (fun _ _ => true) contradicting).any fun s' =>
        decide (s.isFailed = false ∧ s'.isFailed = true ∧
          (s.store.int 1).toOption ≠ (s'.store.int 1).toOption)) = true := by
    decide +kernel
  obtain ⟨s, hs, hrun⟩ := (Option.any_eq_true ..).1 hrun
  obtain ⟨s', hs', hproperty⟩ := (Option.any_eq_true ..).1 hrun
  have hreachable : s.Reachable fun _ _ => True :=
    (Reachable.empty .costOrdered).performAll? (fun _ _ _ => trivial) hs
  have hbecomes := becomes_of_performAll? hs'
  exact ⟨s, s', hreachable, hbecomes, of_decide_eq_true hproperty,
    hreachable.narrows_of_becomes hbecomes⟩

end Space

end ConstraintSearch
