import Mathlib.Algebra.BigOperators.Group.Finset.Basic
import ConstraintSearch.Proofs.Operations

/-!
# Slots, subscriptions and the queue

A propagator is known to a space in several places: its slot, the lists of the variables that it
watches, the list of these variables, its cost, and the queue. Posting, subsumption, replacement and
failure keep these places in step.

* `Propagator.execute_akin`: a run may change marks and counters of a propagator, but neither what
  it watches nor what it costs;
* `Space.Recorded` says what became of the propagators of a space: a record holds, for each number,
  the propagator that was last put into the slot, or nothing if that one was subsumed;
* `Space.Occupies` is what all places say of one number, and `Space.Wired` of all of them;
* `Space.Reachable.wired`: it holds of the spaces that clients reach.
-/

namespace ConstraintSearch

/-! ### Runs of propagators -/

namespace Propagator

open Propagation

variable {p p' : Propagator}

/-- Both propagators watch the same and cost the same. -/
structure Akin (p p' : Propagator) : Prop where
  subscriptions : p'.subscriptions = p.subscriptions
  cost : p'.cost = p.cost

theorem Akin.trans {p'' : Propagator} (h : p.Akin p') (h' : p'.Akin p'') : p.Akin p'' :=
  ⟨h'.subscriptions.trans h.subscriptions, h'.cost.trans h.cost⟩

theorem Continues.akin (h : p.Continues p') : p.Akin p' := by
  cases h with
  | same => exact ⟨rfl, rfl⟩
  | @marked vars vars' h =>
    have hlength := congrArg List.length h
    rw [List.length_map, List.length_map] at hlength
    exact ⟨congrArg Except.ok (Continues.marked h).interests, congrArg Cost.linear hlength⟩
  | settled => exact ⟨rfl, rfl⟩

/-- The passes of a run do nothing to the variables but mark them. -/
theorem process_gives (steps : Nat) (vars : List (IntVar × Bool)) :
    (AllDifferent.process steps vars).Gives fun vars' => vars'.map (·.1) = vars.map (·.1) := by
  induction steps generalizing vars with
  | zero => exact .fault _
  | succ steps ih =>
    refine Gives.trivial.bind fun next _ => ?_
    cases next with
    | none => exact .pure rfl
    | some next =>
      refine Gives.trivial.bind fun _ _ => (ih _).mono fun vars' h => ?_
      rw [h, AllDifferent.map_modify]

theorem run_continues (p : Propagator) : p.run.Gives fun r => p.Continues r.1 := by
  cases p with
  | allDifferent vars =>
    refine (process_gives _ vars).bind fun vars' h => Gives.trivial.bind fun left _ => ?_
    split <;> exact .pure (.marked h)
  | noGoods levels start => exact Gives.trivial.bind fun _ _ => .pure (.settled levels start _)
  | scripted script executions => exact .pure (.same _)
  | _ => exact Gives.trivial.bind fun _ _ => .pure (.same _)

/-- A run leaves a propagator that watches and costs what it did before. -/
theorem execute_akin (p : Propagator) (s : State) :
    (p.execute s).Ensures fun r => ∀ p' verdict, r.1 = .ok (p', verdict) → p.Akin p' := by
  cases p with
  | scripted script executions =>
    refine Journaled.Ensures.trivial.bind fun r _ => Journaled.Ensures.pure ?_
    obtain ⟨outcome, s'⟩ := r
    rintro p' verdict h
    cases outcome with
    | error i => cases h
    | ok reply =>
      cases h
      exact ⟨rfl, rfl⟩
  | notEquals | lessOrEqual | linearAtMost | linearEqual | allDifferent | clause | setCardinality
  | floatAtMost | noGoods =>
    refine Journaled.Ensures.lift fun r hr => ?_
    rintro p' verdict heq
    obtain ⟨outcome, s'⟩ := r
    cases heq
    exact (run_continues _ s _ s' hr).akin

end Propagator

/-! ### States -/

namespace State

variable {s s' s'' : State}

/-- From `s` to `s'`, nobody has subscribed or left, and whoever is scheduled was so before or
watches a variable. -/
structure Steady (s s' : State) : Prop where
  watches : s'.watches = s.watches
  costs : s'.costs = s.costs
  valid : s.queue.Valid → s'.queue.Valid
  scheduled : ∀ n, s'.queue.isScheduled n = true → s.queue.isScheduled n = true ∨
    ∃ x, ∃ sub ∈ s.watches.watchers x, sub.propagator = n

namespace Steady

theorem refl (s : State) : s.Steady s := ⟨rfl, rfl, id, fun _ h => .inl h⟩

theorem trans (h : s.Steady s') (h' : s'.Steady s'') : s.Steady s'' where
  watches := h'.watches.trans h.watches
  costs := h'.costs.trans h.costs
  valid := h'.valid ∘ h.valid
  scheduled n hn := by
    rcases h'.scheduled n hn with hn | hn
    · exact h.scheduled n hn
    · rw [h.watches] at hn
      exact .inr hn

theorem of_store (store : Store) : s.Steady { s with store } := ⟨rfl, rfl, id, fun _ h => .inl h⟩

theorem of_queue {queue : Queue} (hvalid : s.queue.Valid → queue.Valid)
    (hscheduled : ∀ n, queue.isScheduled n = true → s.queue.isScheduled n = true) :
    s.Steady { s with queue } :=
  ⟨rfl, rfl, hvalid, fun n hn => .inl (hscheduled n hn)⟩

theorem fail (s : State) : s.Steady s.fail :=
  ⟨rfl, rfl, Queue.Valid.clear, fun n hn => by
    rw [show s.fail.queue = s.queue.clear from rfl, Queue.isScheduled_clear] at hn
    cases hn⟩

theorem wake (s : State) (x : VarRef) (event : Event) : s.Steady (s.wake x event) := by
  obtain ⟨⟨queue, hrest⟩, hvalid, hscheduled⟩ := s.woken x event
  refine ⟨by rw [hrest], by rw [hrest], hvalid, fun n hn => ?_⟩
  exact ((hscheduled n).1 hn).imp_right fun ⟨sub, hsub, hn, _⟩ =>
    ⟨x, sub, Array.mem_toList_iff.1 hsub, hn⟩

theorem of_narrow {x : VarRef} {operation : Store → Except Fault (Event × Store)} {event : Event}
    (h : s.narrow x operation = .ok (event, s')) : s.Steady s' := by
  rcases cases_of_narrow h with ⟨-, -, rfl⟩ | ⟨-, store, -, rfl⟩
  · exact .refl _
  refine (of_store store).trans ?_
  unfold notify
  split
  · exact .fail _
  split
  · exact .wake _ x event
  · exact .refl _

end Steady

theorem Leads.steady (h : s.Leads s') : s.Steady s' := by
  induction h with
  | refl => exact .refl s
  | tail _ hstep ih =>
    refine ih.trans ?_
    cases hstep with
    | restrict h => exact .of_narrow h
    | narrowSet _ h => exact .of_narrow h
    | narrowFloat h => exact .of_narrow h

end State

/-! ### Records -/

namespace Space

/-- The propagators that were last put into the slots, and nothing where it was subsumed. -/
abbrev Record := List (Option Propagator)

/-- The record after a run of the propagator `n`. -/
def Record.after (record : Record) (n : Nat) : Verdict Propagator → Record
  | .fix | .noFix => record
  | .subsumed => record.set n none
  | .replace successor => record.set n (some successor)

/-- The operation neither posts a propagator nor runs any. -/
def Operation.IsQuiet : Operation → Prop
  | post _ | status => False
  | _ => True

/-- The record of a space that operations have led to. Propagation is taken apart into the runs of
the propagators, so that the spaces between them have records too. -/
inductive Recorded : Space → Record → Prop
  | empty (policy : Policy) : Recorded (ofPolicy policy) []
  | posted {s s' : Space} {record : Record} {p : Propagator} {n : Nat} (h : Recorded s record)
      (hr : s.post p = .ok (.ok (n, s'))) : Recorded s' (record ++ [some p])
  | operation {s s' : Space} {record : Record} {o : Operation} (h : Recorded s record)
      (ho : o.IsQuiet) (hr : o.Runs s s') : Recorded s' record
  | popped {s : Space} {record : Record} (h : Recorded s record) : Recorded s.pop.2 record
  | executed {s s' : Space} {record : Record} {n : Nat} {p p' : Propagator}
      {verdict : Verdict Propagator} {state : State} (h : Recorded s record)
      (hslot : s.propagator? n = some p)
      (hrun : (p.execute s.state).Returns (.ok (p', verdict), state))
      (hsettle : (settle { s with state, propagations := s.propagations + 1 } n p' verdict).Returns
        s') : Recorded s' (record.after n verdict)
  | failed {s : Space} {record : Record} {n : Nat} {p : Propagator} {i : Inconsistency}
      {state : State} (h : Recorded s record) (hslot : s.propagator? n = some p)
      (hrun : (p.execute s.state).Returns (.error i, state)) :
      Recorded (fail { s with state, propagations := s.propagations + 1 }) record
  /-- Branchers and the objective are not recorded. -/
  | beside {s s' : Space} {record : Record} (h : Recorded s record) (hstate : s'.state = s.state)
      (hslots : s'.propagators = s.propagators) : Recorded s' record

/-- What all places say of the number `n`. Where nothing is held, there is nothing. Where a
propagator was put, it is still there up to marks and counters, and it has the subscriptions that it
registered and its cost. -/
def Occupies (s : Space) (n : Nat) : Option Propagator → Prop
  | none => s.propagator? n = none ∧ s.state.watches.Registered n [] ∧
      s.state.queue.isScheduled n = false
  | some q => ∃ p interests, s.propagator? n = some p ∧ q.Akin p ∧
      q.subscriptions = .ok interests ∧ s.state.watches.Registered n interests ∧
      s.state.costs.get? n = some q.cost

/-- The space is what the record says. -/
structure Matches (s : Space) (record : Record) : Prop where
  valid : s.state.queue.Valid
  size : s.propagators.size = record.length
  occupies : ∀ n, s.Occupies n record[n]?.join

variable {s s' : Space} {record : Record} {n m : Nat} {p p' q : Propagator}
  {slot entry : Option Propagator}

/-! ### What the operations keep -/

/-- Where neither the slot nor the subscriptions change, nobody is scheduled but subscribers. -/
theorem Occupies.congr (h : s.Occupies n entry) (hslot : s'.propagator? n = s.propagator? n)
    (hwatches : ∀ interests, s.state.watches.Registered n interests →
      s'.state.watches.Registered n interests)
    (hcosts : ∀ cost, s.state.costs.get? n = some cost → s'.state.costs.get? n = some cost)
    (hscheduled : s'.state.queue.isScheduled n = true → s.state.queue.isScheduled n = true ∨
      ∃ x, ∃ sub ∈ s.state.watches.watchers x, sub.propagator = n) : s'.Occupies n entry := by
  cases entry with
  | none =>
    obtain ⟨hnone, hregistered, hidle⟩ := h
    refine ⟨hslot.trans hnone, hwatches _ hregistered, Bool.eq_false_iff.2 fun hn => ?_⟩
    -- A vacant number has no subscription through which it could have been woken.
    rcases hscheduled hn with hn | ⟨x, sub, hsub, rfl⟩
    · rw [hidle] at hn
      cases hn
    · cases hregistered.mem hsub
  | some q =>
    obtain ⟨p, interests, hp, hakin, hsubscriptions, hregistered, hcost⟩ := h
    exact ⟨p, interests, hslot.trans hp, hakin, hsubscriptions, hwatches _ hregistered,
      hcosts _ hcost⟩

theorem Matches.steady (h : s.Matches record) (hslots : s'.propagators = s.propagators)
    (hs : s.state.Steady s'.state) : s'.Matches record where
  valid := hs.valid h.valid
  size := hslots ▸ h.size
  occupies n := by
    refine (h.occupies n).congr ?_ (fun interests hi => ?_) (fun cost hcost => ?_) (hs.scheduled n)
    · unfold propagator?
      rw [hslots]
    · rwa [hs.watches]
    · rwa [hs.costs]

/-- The slot `n` gets another occupant, and the others keep what they have. -/
theorem Matches.put (h : s.Matches record) (hn : n < record.length)
    (hslots : s'.propagators = s.propagators.set n slot) (hvalid : s'.state.queue.Valid)
    (hwatches : ∀ m, n ≠ m → ∀ interests, s.state.watches.Registered m interests →
      s'.state.watches.Registered m interests)
    (hcosts : ∀ m, n ≠ m → ∀ cost, s.state.costs.get? m = some cost →
      s'.state.costs.get? m = some cost)
    (hscheduled : ∀ m, n ≠ m → s'.state.queue.isScheduled m = s.state.queue.isScheduled m)
    (hentry : s'.Occupies n entry) : s'.Matches (record.set n entry) := by
  refine ⟨hvalid, ?_, fun m => ?_⟩
  · rw [hslots, Table.size_set, List.length_set, h.size]
  · rw [List.getElem?_set]
    by_cases hnm : n = m
    · subst hnm
      rw [if_pos rfl, if_pos hn]
      exact hentry
    · rw [if_neg hnm]
      refine (h.occupies m).congr ?_ (hwatches m hnm) (hcosts m hnm) fun hm => .inl ?_
      · unfold propagator?
        rw [hslots, propagator?_set (h.size ▸ hn), if_neg hnm]
        rfl
      · rwa [← hscheduled m hnm]

/-- A new slot that is still empty. -/
theorem Matches.push (h : s.Matches record) :
    Matches { s with propagators := s.propagators.push none } (record ++ [none]) := by
  refine ⟨h.valid, ?_, fun n => ?_⟩
  · rw [Table.size_push, List.length_append, h.size]
    rfl
  · have hentry : (record ++ [none])[n]?.join = record[n]?.join := by
      rw [List.getElem?_append]
      split
      · rfl
      · rename_i hn
        rw [List.getElem?_eq_none (Nat.le_of_not_lt hn), List.getElem?_singleton]
        split <;> rfl
    rw [hentry]
    exact (h.occupies n).congr (propagator?_push s n) (fun _ => id) (fun _ => id) .inl

theorem Matches.exists_registered (h : s.Matches record) (n : Nat) :
    ∃ interests, s.state.watches.Registered n interests := by
  have hoccupies := h.occupies n
  cases hentry : record[n]?.join with
  | none =>
    rw [hentry] at hoccupies
    exact ⟨[], hoccupies.2.1⟩
  | some q =>
    rw [hentry] at hoccupies
    obtain ⟨p, interests, -, -, -, hregistered, -⟩ := hoccupies
    exact ⟨interests, hregistered⟩

/-- The propagator leaves. -/
theorem Matches.retired (h : s.Matches record) (hn : n < record.length) :
    (s.retired n).Matches (record.set n none) := by
  obtain ⟨interests, hregistered⟩ := h.exists_registered n
  refine h.put hn rfl (h.valid.remove n) (fun m hm _ hi => hi.unsubscribeAll_of_ne hm)
    (fun _ _ _ => id) (fun m hm => isScheduled_remove_of_ne (Ne.symm hm))
    ⟨?_, hregistered.unsubscribeAll_self, ?_⟩
  · unfold propagator?
    exact (propagator?_set (h.size ▸ hn) n).trans (if_pos rfl)
  · change (s.state.queue.remove n).isScheduled n = false
    rw [Queue.isScheduled_remove, decide_eq_true rfl]
    rfl

/-- A propagator gets an empty slot. -/
theorem Matches.install {interests : List (VarRef × Wake)} (h : s.Matches record)
    (hn : n < record.length) (hvacant : record[n]?.join = none)
    (hq : q.subscriptions = .ok interests) :
    (install { s with state := s.state.subscribe n interests } n q).Matches
      (record.set n (some q)) := by
  have hoccupies := h.occupies n
  rw [hvacant] at hoccupies
  have hcosts (m : Nat) : ((s.state.costs.accommodate n q.cost).set n q.cost).get? m =
      if n = m then some q.cost else if s.state.costs.size ≤ m ∧ m ≤ n then some q.cost
        else s.state.costs.get? m := by
    rw [Table.get?_set, Table.get?_accommodate, if_pos (Table.lt_size_accommodate ..)]
  refine h.put hn rfl (h.valid.schedule ..) (fun m hm _ hi => hi.subscribeAll_of_ne hm)
    (fun m hm cost hcost => ?_) (fun m hm => ?_) ⟨q, interests, ?_, ⟨rfl, rfl⟩, hq, ?_, ?_⟩
  · -- Costs that the table grows by were not there before.
    have hsize : ¬(s.state.costs.size ≤ m ∧ m ≤ n) := fun hm => by
      rw [show s.state.costs.get? m = none from Array.getElem?_eq_none hm.1] at hcost
      cases hcost
    exact ((hcosts m).trans ((if_neg hm).trans (if_neg hsize))).trans hcost
  · refine (Queue.isScheduled_schedule ..).trans ?_
    rw [decide_eq_false hm]
    rfl
  · exact (propagator?_set (h.size ▸ hn) n).trans (if_pos rfl)
  · exact hoccupies.2.1.subscribeAll_self
  · exact (hcosts n).trans (if_pos rfl)

theorem Matches.post (h : s.Matches record) (hr : s.post p = .ok (.ok (n, s'))) :
    s'.Matches (record ++ [some p]) := by
  unfold Space.post at hr
  dsimp only at hr
  split at hr
  · cases hr
  obtain ⟨interests, hinterests, hr⟩ := Request.exists_of_bind hr
  cases hr
  have hset : (record ++ [none]).set s.propagators.size (some p) = record ++ [some p] := by
    rw [h.size, List.set_append_right _ _ (Nat.le_refl _), Nat.sub_self]
    rfl
  have hvacant : (record ++ [none])[s.propagators.size]?.join = none := by
    rw [h.size, List.getElem?_concat_length]
    rfl
  rw [← hset]
  refine h.push.install ?_ hvacant (Request.of_lift hinterests)
  rw [List.length_append, h.size]
  exact Nat.lt_succ_self _

/-! ### Runs -/

/-- Whoever is in a slot was put there. -/
theorem Matches.exists_entry (h : s.Matches record) (hslot : s.propagator? n = some p) :
    ∃ q, record[n]? = some (some q) ∧ s.Occupies n (some q) := by
  have hoccupies := h.occupies n
  cases hentry : record[n]?.join with
  | none =>
    rw [hentry] at hoccupies
    rw [hoccupies.1] at hslot
    cases hslot
  | some q =>
    rw [hentry] at hoccupies
    exact ⟨q, Option.join_eq_some_iff.1 hentry, hoccupies⟩

/-- A propagator that has run goes back into its slot. -/
theorem Matches.settled (h : s.Matches record) (hslot : s.propagator? n = some p)
    (hakin : p.Akin p') {queue : Queue} (hvalid : queue.Valid)
    (hscheduled : ∀ m, n ≠ m → queue.isScheduled m = s.state.queue.isScheduled m) :
    Matches { s with
      propagators := s.propagators.set n (some p')
      state := { s.state with queue } } record := by
  obtain ⟨q, hq, p₁, interests, hp₁, hq₁, hinterests, hregistered, hcost⟩ := h.exists_entry hslot
  obtain rfl := Option.some.inj (hslot.symm.trans hp₁)
  obtain ⟨hn, hrow⟩ := List.getElem?_eq_some_iff.1 hq
  have hsame : record.set n (some q) = record := by
    rw [← hrow, List.set_getElem_self]
  rw [← hsame]
  refine h.put hn rfl hvalid (fun _ _ _ => id) (fun _ _ _ => id) hscheduled
    ⟨p', interests, ?_, hq₁.trans hakin, hinterests, hregistered, hcost⟩
  exact (propagator?_set (h.size ▸ hn) n).trans (if_pos rfl)

theorem Matches.settle (h : s.Matches record) (hslot : s.propagator? n = some p)
    (hakin : p.Akin p') (verdict : Verdict Propagator) :
    (s.settle n p' verdict).Ensures (Matches · (record.after n verdict)) := by
  obtain ⟨q, hq, -⟩ := h.exists_entry hslot
  have hn : n < record.length := (List.getElem?_eq_some_iff.1 hq).1
  have hretire : (s.retire n p').Ensures (· = s.retired n) :=
    (yields_retire (δ := True) s n p').ensures
  cases verdict with
  | fix =>
    exact Journaled.Ensures.pure (h.settled hslot hakin (h.valid.remove n)
      fun m hm => isScheduled_remove_of_ne (Ne.symm hm))
  | noFix => exact Journaled.Ensures.pure (h.settled hslot hakin h.valid fun _ _ => rfl)
  | subsumed =>
    refine hretire.mono ?_
    rintro s' rfl
    exact h.retired hn
  | replace successor =>
    refine hretire.bind ?_
    rintro s' rfl
    refine (Journaled.Ensures.lift fun _ => id).bind fun interests hinterests =>
      Journaled.Ensures.trivial.bind fun _ _ => Journaled.Ensures.pure ?_
    have hvacant : (record.set n none)[n]?.join = none := by
      rw [List.getElem?_set_self hn]
      rfl
    have hinstalled := (h.retired hn).install (by rwa [List.length_set]) hvacant hinterests
    rwa [List.set_set] at hinstalled

theorem Matches.pop (h : s.Matches record) : s.pop.2.Matches record := by
  refine h.steady rfl ?_
  have hpopped := h.valid.pop
  change s.state.Steady { s.state with queue := s.state.queue.pop.2 }
  generalize s.state.queue.pop = r at hpopped
  obtain ⟨number, queue⟩ := r
  cases number with
  | none =>
    obtain ⟨hvalid, hflags, -⟩ := hpopped
    refine .of_queue (fun _ => hvalid) fun n hn => ?_
    unfold Queue.isScheduled at hn ⊢
    rwa [← hflags]
  | some k =>
    obtain ⟨hvalid, -, -, hflags⟩ := hpopped
    refine .of_queue (fun _ => hvalid) fun n hn => ?_
    rw [hflags, Bool.and_eq_true] at hn
    exact hn.2

theorem Matches.operation {o : Operation} (h : s.Matches record) (ho : o.IsQuiet)
    (hr : o.Runs s s') : s'.Matches record := by
  cases o with
  | newInt | newIntOfValues | newBool | newSet =>
    obtain ⟨store, rfl, -⟩ := hr.exists_store trivial
    exact h.steady rfl (.of_store store)
  | newFloat lower upper =>
    obtain ⟨x, hr⟩ := hr
    unfold Space.newFloat at hr
    split at hr
    · cases hr
      exact h.steady rfl (.of_store _)
    · cases hr
  | restrict | restrictBelow | restrictAbove | restrictTo | includeElement | excludeElement
  | boundCardinality | setFloatUpper | setFloatLower | constrain | fail =>
    obtain ⟨state, hl, rfl | rfl⟩ := hr.exists_state trivial
    · exact h.steady rfl hl.steady
    · exact h.steady rfl (hl.steady.trans (.fail state))
  | branch b | aim o =>
    cases hr
    exact h.steady rfl (.refl _)
  | choose =>
    obtain ⟨c, hr⟩ := hr
    obtain ⟨b, b', decision, -, -, rfl⟩ := exists_of_choice hr
    exact h.steady rfl (.refl _)
  | commit c alternative =>
    rcases cases_of_commit hr with rfl | ⟨b, -, outcome, state, hstate, hr⟩
    · exact h
    · have hsteady := (b.commit_narrows _ _ _ _ hstate).leads.steady
      cases outcome with
      | ok b' =>
        cases hr
        exact h.steady rfl hsteady
      | error i =>
        cases hr
        exact h.steady rfl (hsteady.trans (.fail state))
  | post | status => exact ho.elim

/-- Slots, subscriptions, costs and the queue are what the record says. -/
theorem Recorded.matches (h : Recorded s record) : s.Matches record := by
  induction h with
  | empty policy =>
    refine ⟨.ofPolicy policy, rfl, fun n => ⟨?_, ⟨fun x => ?_, ?_⟩, ?_⟩⟩
    · rfl
    · cases x <;> rfl
    · rfl
    · rfl
  | posted _ hr ih => exact ih.post hr
  | operation _ ho hr ih => exact ih.operation ho hr
  | popped _ ih => exact ih.pop
  | @executed s s' record n p p' verdict state _ hslot hrun hsettle ih =>
    have hleads := ((p.execute_ended s.state).of_returns hrun).leads
    have hakin := (p.execute_akin s.state).of_returns hrun p' verdict rfl
    have hran : Matches { s with state, propagations := s.propagations + 1 } record :=
      ih.steady rfl hleads.steady
    exact (hran.settle hslot hakin verdict).of_returns hsettle
  | @failed s record n p i state _ hslot hrun ih =>
    have hleads := ((p.execute_ended s.state).of_returns hrun).leads
    exact ih.steady rfl (hleads.steady.trans (.fail state))
  | beside _ hstate hslots ih => exact ih.steady hslots (hstate ▸ .refl _)

/-! ### Clients -/

theorem Recorded.execute (h : Recorded s record) (n : Nat) :
    (s.execute n).Ensures fun r => ∃ record, Recorded r.2 record := by
  unfold Space.execute
  cases hslot : s.propagator? n with
  | none => exact Journaled.Ensures.pure ⟨record, h⟩
  | some p =>
    refine Journaled.Ensures.trivial.self.bind fun r hr => ?_
    obtain ⟨outcome, state⟩ := r
    cases outcome with
    | error i =>
      exact Journaled.Ensures.trivial.bind fun _ _ =>
        Journaled.Ensures.pure ⟨record, h.failed hslot hr.2⟩
    | ok r =>
      obtain ⟨p', verdict⟩ := r
      exact Journaled.Ensures.trivial.self.bind fun s' hs' =>
        Journaled.Ensures.pure ⟨_, h.executed hslot hr.2 hs'.2⟩

theorem Recorded.propagateWithin (h : Recorded s record) (steps : Nat) :
    (propagateWithin steps s).Ensures fun s' => ∃ record, Recorded s' record := by
  induction steps generalizing s record with
  | zero => exact Journaled.Ensures.throw _
  | succ steps ih =>
    -- A turn takes a propagator from the queue; its run writes the record on.
    have hpop := h.popped
    unfold Space.propagateWithin
    generalize s.pop = r at hpop
    obtain ⟨number, s₁⟩ := r
    cases number with
    | none => exact Journaled.Ensures.pure ⟨record, hpop⟩
    | some n =>
      refine (hpop.execute n).bind fun r hr => ?_
      obtain ⟨consistent, s₂⟩ := r
      obtain ⟨record', hr⟩ := hr
      cases consistent with
      | false => exact Journaled.Ensures.pure ⟨record', hr⟩
      | true => exact ih hr

theorem Recorded.status (h : Recorded s record) {status : SpaceStatus}
    (hr : s.status.Returns (status, s')) : ∃ record, Recorded s' record := by
  obtain ⟨s₁, hpropagate, -, hstate, hslots⟩ := exists_of_status hr
  unfold propagate at hpropagate
  split at hpropagate
  · obtain rfl := Journaled.of_returns_pure hpropagate
    exact ⟨record, h.beside hstate hslots⟩
  · obtain ⟨record', h'⟩ := (h.propagateWithin _).of_returns hpropagate
    exact ⟨record', h'.beside hstate hslots⟩

/-- The spaces that clients reach have records. -/
theorem Reachable.exists_recorded {allowed : Space → Operation → Prop} (h : s.Reachable allowed) :
    ∃ record, Recorded s record := by
  induction h with
  | empty policy => exact ⟨[], .empty policy⟩
  | @step s s' o _ _ hr ih =>
    obtain ⟨record, ih⟩ := ih
    cases o with
    | post p =>
      rcases hr with ⟨n, hr⟩ | ⟨error, -, rfl⟩
      · exact ⟨_, ih.posted hr⟩
      · exact ⟨record, ih⟩
    | status =>
      obtain ⟨status, hr⟩ := hr
      exact ih.status hr
    | _ =>
      refine ⟨record, ih.operation ?_ hr⟩
      exact True.intro

/-! ### What the record and the space say -/

/-- The numbers of the propagators that are in their slots. -/
def installed (s : Space) : Finset Nat :=
  (Finset.range s.propagators.size).filter fun n => (s.propagator? n).isSome

/-- The slots, the two indexes of the subscriptions, the costs and the queue agree with one another
and with the record. -/
structure Wired (s : Space) (record : Record) : Prop where
  size : s.propagators.size = record.length
  /-- Whoever has subscribed to a variable is in its slot. -/
  subscriber : ∀ x, ∀ sub ∈ s.state.watches.watchers x, sub.propagator ∈ s.installed
  /-- Whoever is scheduled is in its slot. -/
  scheduled : ∀ n, s.state.queue.isScheduled n = true → n ∈ s.installed
  /-- A variable lists a propagator as often as the propagator lists the variable. -/
  mirrored : ∀ n x, (s.state.watches.watchers x).toList.countP (·.propagator = n) =
    (s.state.watches.variablesOf n).toList.count x
  /-- The degree of a variable is the number of subscriptions of the propagators in the slots. -/
  degree : ∀ x, s.state.watches.degree x =
    ∑ n ∈ s.installed, (s.state.watches.variablesOf n).toList.count x
  /-- Nothing is left of a propagator that was subsumed. -/
  subsumed : ∀ n, record[n]? = some none → s.propagator? n = none ∧
    (∀ x, ∀ sub ∈ s.state.watches.watchers x, sub.propagator ≠ n) ∧
    s.state.watches.variablesOf n = #[] ∧ s.state.queue.isScheduled n = false
  /-- A propagator that was posted, or has replaced another one, is in the slot up to marks and
  counters. It has its cost and exactly the subscriptions that it registered. -/
  held : ∀ n q, record[n]? = some (some q) → ∃ p interests, s.propagator? n = some p ∧
    q.Akin p ∧ q.subscriptions = .ok interests ∧ s.state.watches.Registered n interests ∧
    s.state.costs.get? n = some q.cost

theorem mem_installed (hslot : s.propagator? n = some p) : n ∈ s.installed := by
  have hn : n < s.propagators.size := by
    by_contra hn
    unfold propagator? at hslot
    rw [show s.propagators.get? n = none from Array.getElem?_eq_none (Nat.le_of_not_lt hn)] at hslot
    cases hslot
  exact Finset.mem_filter.2 ⟨Finset.mem_range.2 hn, by rw [hslot]; rfl⟩

/-- Nobody but a propagator in its slot subscribes or is scheduled. -/
theorem Matches.mem_installed (h : s.Matches record)
    (hn : s.state.queue.isScheduled n = true ∨
      ∃ x, ∃ sub ∈ s.state.watches.watchers x, sub.propagator = n) : n ∈ s.installed := by
  have hoccupies := h.occupies n
  cases hentry : record[n]?.join with
  | some q =>
    rw [hentry] at hoccupies
    obtain ⟨p, interests, hslot, -⟩ := hoccupies
    exact Space.mem_installed hslot
  | none =>
    rw [hentry] at hoccupies
    obtain ⟨-, hregistered, hidle⟩ := hoccupies
    rcases hn with hn | ⟨x, sub, hsub, rfl⟩
    · rw [hidle] at hn
      cases hn
    · cases hregistered.mem hsub

theorem Matches.degree_eq (h : s.Matches record) (x : VarRef) : s.state.watches.degree x =
    ∑ n ∈ s.installed, (s.state.watches.variablesOf n).toList.count x := by
  -- The subscriptions to `x`, counted by the propagators that they belong to.
  let subscribers : Multiset Nat :=
    (((s.state.watches.watchers x).toList.map (·.propagator) : List Nat) : Multiset Nat)
  have hcount (n : Nat) :
      subscribers.count n = (s.state.watches.variablesOf n).toList.count x := by
    obtain ⟨interests, hregistered⟩ := h.exists_registered n
    rw [← hregistered.countP_eq, Multiset.coe_count, List.count, List.countP_map]
    rfl
  have hmem : ∀ n ∈ subscribers, n ∈ s.installed := fun n hn => by
    obtain ⟨sub, hsub, hn⟩ := List.mem_map.1 (Multiset.mem_coe.1 hn)
    exact h.mem_installed (.inr ⟨x, sub, Array.mem_toList_iff.1 hsub, hn⟩)
  calc s.state.watches.degree x
      = subscribers.card := by simp [subscribers, WatchLists.degree]
    _ = ∑ n ∈ s.installed, subscribers.count n := (Multiset.sum_count_eq_card hmem).symm
    _ = _ := Finset.sum_congr rfl fun n _ => hcount n

theorem Matches.agrees (h : s.Matches record) : s.Wired record where
  size := h.size
  subscriber x sub hsub := h.mem_installed (.inr ⟨x, sub, hsub, rfl⟩)
  scheduled _ hn := h.mem_installed (.inl hn)
  mirrored n x := by
    obtain ⟨interests, hregistered⟩ := h.exists_registered n
    exact hregistered.countP_eq x
  degree := h.degree_eq
  subsumed n hn := by
    have hoccupies := h.occupies n
    rw [hn] at hoccupies
    obtain ⟨hslot, hregistered, hidle⟩ := hoccupies
    have hvariables := Array.toList_eq_nil_iff.1 hregistered.vars
    refine ⟨hslot, fun x sub hsub hsubn => ?_, hvariables, hidle⟩
    subst hsubn
    cases hregistered.mem hsub
  held n q hn := by
    have hoccupies := h.occupies n
    rw [hn] at hoccupies
    exact hoccupies

/-- **Slots, subscriptions and the queue stay in step.** Every space that a client reaches has a
record of what became of its propagators, and agrees with every such record. -/
theorem Reachable.wired (h : s.Reachable fun _ _ => True) :
    (∃ record, Recorded s record) ∧ ∀ record, Recorded s record → s.Wired record :=
  ⟨h.exists_recorded, fun _ hr => hr.matches.agrees⟩

/-- Three variables that differ, two of which are also ordered, and a sum with a repeated variable;
then values at which the first constraint comes down to two variables and the second is settled. -/
def settling : List Operation :=
  [.newInt 0 3, .newInt 0 3, .newInt 0 3, .post (.distinct [.root 0, .root 1, .root 2]),
    .post (.lessOrEqual (.root 0) (.root 1) 0),
    .post (.linearAtMost [.root 0, .root 1, .root 1] 4), .status, .restrict (.root 2) .equal 3,
    .restrict (.root 1) .atLeast 1, .restrict (.root 0) .atMost 1, .status]

/-- One propagator was replaced, one was subsumed, and one is subscribed to a variable twice. -/
theorem Reachable.wired_settling :
    ∃ s : Space, s.Reachable (fun _ _ => True) ∧
      ((s.propagator? 0).map (·.name) = some "BinaryNotEquals" ∧
        (s.propagator? 1).isNone = true ∧
        (s.state.watches.variablesOf 2).toList = [.int 0, .int 1, .int 1] ∧
        s.state.watches.degree (.int 1) = 3) ∧
      (∃ record, Recorded s record) ∧ ∀ record, Recorded s record → s.Wired record := by
  have hrun : ((ofPolicy .costOrdered).performAll? (fun _ _ => true) settling).any (fun s =>
      decide ((s.propagator? 0).map (·.name) = some "BinaryNotEquals" ∧
        (s.propagator? 1).isNone = true ∧
        (s.state.watches.variablesOf 2).toList = [.int 0, .int 1, .int 1] ∧
        s.state.watches.degree (.int 1) = 3)) = true := by
    decide +kernel
  obtain ⟨s, hs, hproperty⟩ := (Option.any_eq_true ..).1 hrun
  have hreachable : s.Reachable fun _ _ => True :=
    (Reachable.empty .costOrdered).performAll? (fun _ _ _ => True.intro) hs
  exact ⟨s, hreachable, of_decide_eq_true hproperty, hreachable.wired⟩

end Space

end ConstraintSearch
