import ConstraintSearch.Space
import ConstraintSearch.Proofs.Propagator.Execution

/-!
# The theory of propagation

The slots of a space hold what is left of the constraints that were posted: a propagator that has
been subsumed is gone, and one that has been replaced is another one. `Space.Tracks posted s` says
that what is left still does the work of what was posted.

* `Space.Upholds`: what a propagator in a slot owes to the posted one;
* `Space.Tracks`: the invariant of propagation, from which one propagator may be exempt while it
  is running;
* `Space.Propagated`: what propagation establishes. If the space has failed, no box is stable for
  all that was posted; otherwise nothing is scheduled, and no stable box was lost;
* `Space.propagate_law`: propagation establishes it, and does not stop early;
* `Space.Tracks.of_status`: what the status of a space says.
-/

namespace ConstraintSearch.Space

open Propagator

/-- The propagator `p` in the slot `n` does the work of the posted propagator `q`. Unless it is
scheduled or exempt, it rests. -/
structure Upholds (δ : Prop) (exempt : Option Nat) (state : State) (n : Nat) (q p : Propagator) :
    Prop where
  origin : q.Continues p ∨ (∃ a b offset, p = notEquals a b offset) ∧
    p.replacements < q.replacements
  wellFormed : p.WellFormed δ state.store
  watches : ∀ i ∈ p.interests, ⟨n, i.2⟩ ∈ state.watches.watchers i.1
  agrees : ∀ F : Box, F.Sound → F.Within state.store → (q.Stable F ↔ p.Stable F)
  rests : exempt ≠ some n → state.queue.isScheduled n = false → p.Oriented → p.Rests state.store

/-- What a slot owes to the posted propagator `q`. -/
def Accounts (δ : Prop) (exempt : Option Nat) (state : State) (n : Nat) (q : Propagator) :
    Option Propagator → Prop
  | some p => Upholds δ exempt state n q p
  | none => ∀ F : Box, F.Sound → F.Within state.store → q.Stable F

/-- The slots do the work of the posted propagators. -/
structure Tracks (δ : Prop) (posted : List Propagator) (exempt : Option Nat) (s : Space) :
    Prop where
  ready : s.state.Ready
  queue : s.state.queue.Valid
  size : s.propagators.size = posted.length
  scheduled : ∀ n, s.state.queue.isScheduled n = true → n < posted.length
  watched : ∀ x, ∀ sub ∈ s.state.watches.watchers x, sub.propagator < posted.length
  accounts : ∀ n q, posted[n]? = some q → Accounts δ exempt s.state n q (s.propagator? n)

variable {δ : Prop} {posted : List Propagator} {exempt : Option Nat} {s s' : Space}
  {state state' : State} {n m : Nat} {p q : Propagator} {slot : Option Propagator} {F : Box}

/-- Narrowing variables and waking the subscribers changes nothing of what a slot owes. -/
theorem Accounts.advance (h : Accounts δ exempt state n q slot) (hs : state.Ready)
    (ha : state.Advances state') : Accounts δ exempt state' n q slot := by
  have hsound := (ha.ready hs).sound
  cases slot with
  | none => exact fun F hF hle => h F hF (ha.store.within_of_within hle)
  | some p =>
    refine ⟨h.origin, h.wellFormed.of_evolves hs.sound hsound ha.store.evolves, fun i hi => ?_,
      fun F hF hle => h.agrees F hF (ha.store.within_of_within hle),
      fun hexempt hn horiented => ?_⟩
    · rw [ha.watches]
      exact h.watches i hi
    · have hbefore : state.queue.isScheduled n = false := by
        by_contra hne
        have := ha.scheduled n (by simpa using hne)
        rw [hn] at this
        cases this
      exact rests_of_keeps h.wellFormed (h.rests hexempt hbefore horiented) hs.sound hsound
        ha.store.evolves fun i hi => ha.quiet n hn i.1 _ (h.watches i hi) rfl

/-- What a slot owes while others are exempt, subscribe, or are taken from the queue. -/
theorem Accounts.congr {exempt' : Option Nat} (h : Accounts δ exempt state n q slot)
    (hstore : state'.store = state.store)
    (hwatches : ∀ x, ∀ sub ∈ state.watches.watchers x, sub.propagator = n →
      sub ∈ state'.watches.watchers x)
    (hrests : exempt' ≠ some n → state'.queue.isScheduled n = false →
      exempt ≠ some n ∧ state.queue.isScheduled n = false) :
    Accounts δ exempt' state' n q slot := by
  cases slot with
  | none =>
    unfold Accounts
    rw [hstore]
    exact h
  | some p =>
    refine ⟨h.origin, by rw [hstore]; exact h.wellFormed, fun i hi =>
      hwatches i.1 _ (h.watches i hi) rfl, by rw [hstore]; exact h.agrees,
      fun hexempt hn horiented => ?_⟩
    obtain ⟨hexempt, hn⟩ := hrests hexempt hn
    rw [hstore]
    exact h.rests hexempt hn horiented

namespace Tracks

/-- Only the state and the propagators matter. -/
theorem congr (h : s.Tracks δ posted exempt) (hstate : s'.state = s.state)
    (hslots : s'.propagators = s.propagators) : s'.Tracks δ posted exempt := by
  obtain ⟨state, slots, branchers, active, objective, propagations⟩ := s
  obtain ⟨state', slots', branchers', active', objective', propagations'⟩ := s'
  cases hstate
  cases hslots
  exact ⟨h.ready, h.queue, h.size, h.scheduled, h.watched, h.accounts⟩

theorem upholds (h : s.Tracks δ posted exempt) (hq : posted[n]? = some q)
    (hp : s.propagator? n = some p) : Upholds δ exempt s.state n q p := by
  have := h.accounts n q hq
  rwa [hp] at this

/-- The number of a propagator in a slot is the number of a posted one. -/
theorem exists_posted (h : s.Tracks δ posted exempt) (hp : s.propagator? n = some p) :
    ∃ q, posted[n]? = some q := by
  have hlt : n < s.propagators.size := by
    by_contra hle
    have hnone : s.propagators.get? n = none := Array.getElem?_eq_none (not_lt.1 hle)
    unfold propagator? at hp
    rw [hnone] at hp
    cases hp
  rw [h.size] at hlt
  exact ⟨posted[n], List.getElem?_eq_getElem hlt⟩

/-- Narrowing variables and waking the subscribers keeps the invariant. -/
theorem advance (h : s.Tracks δ posted exempt) (ha : s.state.Advances state) :
    Tracks δ posted exempt { s with state } where
  ready := ha.ready h.ready
  queue := ha.valid h.queue
  size := h.size
  scheduled n hn := by
    rcases ha.watched n hn with hn | ⟨x, sub, hsub, rfl⟩
    · exact h.scheduled n hn
    · exact h.watched x sub hsub
  watched x sub hsub := by
    change sub ∈ state.watches.watchers x at hsub
    rw [ha.watches] at hsub
    exact h.watched x sub hsub
  accounts n q hq := (h.accounts n q hq).advance h.ready ha

end Tracks

theorem propagator?_set (hn : n < s.propagators.size) (m : Nat) :
    ((s.propagators.set n slot).get? m).join = if n = m then slot else s.propagator? m := by
  rw [Table.get?_set, if_pos hn]
  split <;> rfl

/-- What it takes to settle the run of the propagator `n`: the new occupant of its slot keeps what
the slot owes, and nothing changes for the others. -/
theorem Tracks.of_settled (h : s.Tracks δ posted (some n)) (hq : posted[n]? = some q)
    (hstore : state.store = s.state.store) (hfailed : state.failed = s.state.failed)
    (hqueue : state.queue.Valid)
    (hscheduled : ∀ m, m ≠ n → state.queue.isScheduled m = s.state.queue.isScheduled m)
    (hkept : ∀ x, ∀ sub ∈ s.state.watches.watchers x, sub.propagator ≠ n →
      sub ∈ state.watches.watchers x)
    (hadded : ∀ x, ∀ sub ∈ state.watches.watchers x, sub ∈ s.state.watches.watchers x ∨
      sub.propagator = n)
    (haccounts : Accounts δ none state n q slot) :
    Tracks δ posted none { s with state, propagators := s.propagators.set n slot } := by
  have hn : n < posted.length := (List.getElem?_eq_some_iff.1 hq).1
  refine
    { ready := ⟨hfailed.trans h.ready.alive, hstore ▸ h.ready.sound⟩
      queue := hqueue
      size := (Table.size_set ..).trans h.size
      scheduled := fun m hm => ?_
      watched := fun x sub hsub => ?_
      accounts := fun m q' hq' => ?_ }
  · by_cases hmn : m = n
    · exact hmn ▸ hn
    · exact h.scheduled m ((hscheduled m hmn).symm.trans hm)
  · rcases hadded x sub hsub with hsub | hsub
    · exact h.watched x sub hsub
    · exact hsub ▸ hn
  · unfold propagator?
    rw [propagator?_set (h.size ▸ hn)]
    split
    · rename_i hnm
      subst hnm
      rw [hq] at hq'
      cases hq'
      exact haccounts
    · rename_i hnm
      refine (h.accounts m q' hq').congr hstore (fun x sub hsub hm => hkept x sub hsub ?_)
        fun _ hm => ⟨fun hsome => hnm (Option.some.inj hsome), ?_⟩
      · exact fun hn => hnm (hn.symm.trans hm)
      · exact (hscheduled m (Ne.symm hnm)).symm.trans hm

/-- A propagator whose slot is empty needs no exemption. -/
theorem Tracks.of_vacant (h : s.Tracks δ posted (some n)) (hslot : s.propagator? n = none) :
    s.Tracks δ posted none where
  ready := h.ready
  queue := h.queue
  size := h.size
  scheduled := h.scheduled
  watched := h.watched
  accounts m q hq := by
    have haccounts := h.accounts m q hq
    by_cases hmn : n = m
    · subst hmn
      rw [hslot] at haccounts ⊢
      exact haccounts
    · exact haccounts.congr rfl (fun _ _ hsub _ => hsub)
        fun _ hm => ⟨fun hsome => hmn (Option.some.inj hsome), hm⟩

/-! ### Posting -/

/-- The propagators of the constraints on integers and sets say at once what they watch. -/
theorem subscriptions_of_wellFormed {s : Store} (h : p.WellFormed δ s) :
    p.subscriptions = .ok p.interests := by
  cases p <;> first | rfl | exact h.elim

/-- Let a propagator subscribe, and put it into the slot `n`. -/
def occupy (s : Space) (n : Nat) (p : Propagator) : Space :=
  install { s with state := s.state.subscribe n p.interests } n p

theorem mem_watchers_occupy {x : VarRef} {sub : Subscription} :
    sub ∈ (s.occupy n p).state.watches.watchers x ↔
      sub ∈ s.state.watches.watchers x ∨ sub.propagator = n ∧ (x, sub.wake) ∈ p.interests :=
  WatchLists.mem_subscribeAll

theorem isScheduled_occupy (m : Nat) : (s.occupy n p).state.queue.isScheduled m =
    (decide (n = m) || s.state.queue.isScheduled m) :=
  Queue.isScheduled_schedule ..

theorem valid_occupy (h : s.state.queue.Valid) : (s.occupy n p).state.queue.Valid :=
  h.schedule ..

/-- The space after a propagator was posted. -/
def posting (s : Space) (p : Propagator) : Space :=
  { s with propagators := s.propagators.push none }.occupy s.propagators.size p

theorem post_eq (hs : s.state.failed = false) {store : Store} (hw : p.WellFormed δ store) :
    s.post p = .ok (.ok (s.propagators.size, s.posting p)) := by
  unfold post
  rw [if_neg (by simp [isFailed, hs]), subscriptions_of_wellFormed hw]
  rfl

/-- A new slot is empty. -/
theorem propagator?_push (s : Space) (m : Nat) :
    ((s.propagators.push none).get? m).join = s.propagator? m := by
  unfold propagator? Table.push Table.get?
  rw [Array.getElem?_push]
  split
  · rename_i hm
    rw [hm, Array.getElem?_eq_none (Nat.le_refl _)]
    rfl
  · rfl

/-- The slots after a propagator was posted. -/
theorem propagator?_posting (s : Space) (p : Propagator) (m : Nat) :
    (s.posting p).propagator? m =
      if s.propagators.size = m then some p else s.propagator? m := by
  have hset : (((s.propagators.push none).set s.propagators.size (some p)).get? m).join =
      if s.propagators.size = m then some p else ((s.propagators.push none).get? m).join :=
    propagator?_set (s := { s with propagators := s.propagators.push none }) (by simp) m
  exact hset.trans (by rw [propagator?_push])

theorem Tracks.posting (h : s.Tracks δ posted none) (hw : p.WellFormed δ s.store) :
    (s.posting p).Tracks δ (posted ++ [p]) none := by
  have hsize := h.size
  have hscheduled (m : Nat) : (s.posting p).state.queue.isScheduled m =
      (decide (s.propagators.size = m) || s.state.queue.isScheduled m) := isScheduled_occupy m
  have hwatchers (x : VarRef) (sub : Subscription) :
      sub ∈ (s.posting p).state.watches.watchers x ↔ sub ∈ s.state.watches.watchers x ∨
        sub.propagator = s.propagators.size ∧ (x, sub.wake) ∈ p.interests := mem_watchers_occupy
  refine
    { ready := ⟨h.ready.alive, h.ready.sound⟩
      queue := valid_occupy h.queue
      size := by simp [Space.posting, occupy, install, hsize]
      scheduled := fun m hm => ?_
      watched := fun x sub hsub => ?_
      accounts := fun m q hq => ?_ }
  · rw [List.length_append, List.length_singleton]
    rw [hscheduled, Bool.or_eq_true, decide_eq_true_iff] at hm
    rcases hm with rfl | hm
    · omega
    · exact (h.scheduled m hm).trans (Nat.lt_succ_self _)
  · rw [List.length_append, List.length_singleton]
    rcases (hwatchers x sub).1 hsub with hsub | ⟨hsub, -⟩
    · exact (h.watched x sub hsub).trans (Nat.lt_succ_self _)
    · omega
  · rw [propagator?_posting]
    by_cases hm : s.propagators.size = m
    · rw [if_pos hm]
      subst hm
      rw [hsize, List.getElem?_append_right (Nat.le_refl _), Nat.sub_self] at hq
      cases hq
      refine ⟨.inl (.same p), hw, fun i hi => (hwatchers i.1 _).2 (.inr ⟨rfl, hi⟩),
        fun F _ _ => Iff.rfl, fun _ hn => ?_⟩
      rw [hscheduled] at hn
      simp at hn
    · rw [if_neg hm]
      have hlt : m < posted.length := by
        have := (List.getElem?_eq_some_iff.1 hq).1
        rw [List.length_append, List.length_singleton] at this
        omega
      rw [List.getElem?_append_left hlt] at hq
      refine (h.accounts m q hq).congr rfl
        (fun x sub hsub _ => (hwatchers x sub).2 (.inl hsub)) fun hexempt hm' => ⟨hexempt, ?_⟩
      rw [hscheduled, Bool.or_eq_false_iff] at hm'
      exact hm'.2

/-! ### The measure of propagation -/

/-- How often the propagators can still be replaced. -/
def replaceable (slots : Table (Option Propagator)) : Nat :=
  total (fun slot => (slot.map (·.replacements)).getD 0) slots.toList

/-- A bound for the number of runs that are left. -/
def measure (s : Space) : Nat :=
  (s.store.weight + replaceable s.propagators) * (s.propagators.size + 1) + s.state.queue.count

/-- What propagation does not touch. -/
structure SameBranching (s s' : Space) : Prop where
  branchers : s'.branchers = s.branchers
  active : s'.active = s.active
  objective : s'.objective = s.objective

theorem SameBranching.trans {s'' : Space} (h : s.SameBranching s') (h' : s'.SameBranching s'') :
    s.SameBranching s'' :=
  ⟨h'.branchers.trans h.branchers, h'.active.trans h.active, h'.objective.trans h.objective⟩

/-- A run, or the settlement of a run, that does not lead back. -/
structure Shrinks (s s' : Space) : Prop where
  size : s'.propagators.size = s.propagators.size
  progress :
    s'.store.weight + replaceable s'.propagators < s.store.weight + replaceable s.propagators ∨
      s'.store.weight + replaceable s'.propagators ≤ s.store.weight + replaceable s.propagators ∧
        s'.state.queue.count ≤ s.state.queue.count

theorem Shrinks.trans {s'' : Space} (h : s.Shrinks s') (h' : s'.Shrinks s'') : s.Shrinks s'' where
  size := h'.size.trans h.size
  progress := by
    have := h.progress
    have := h'.progress
    omega

/-- Whatever the queue has gained, it is outweighed by what was lost elsewhere. -/
theorem Shrinks.measure_le (h : s.Shrinks s') (hs' : s'.Tracks δ posted none) :
    s'.measure ≤ s.measure := by
  have hcount : s'.state.queue.count ≤ s.propagators.size := by
    rw [← h.size, hs'.size]
    exact hs'.queue.count_le hs'.scheduled
  unfold measure
  rw [h.size]
  rcases h.progress with hlt | ⟨hle, hqueue⟩
  · have hmul := Nat.mul_le_mul_right (s.propagators.size + 1) (Nat.succ_le_of_lt hlt)
    rw [Nat.succ_mul] at hmul
    omega
  · exact Nat.add_le_add (Nat.mul_le_mul_right _ hle) hqueue

/-- The replacements that are left after a slot has got a new occupant. -/
theorem replaceable_set (hp : s.propagator? n = some p) (slot : Option Propagator) :
    replaceable (s.propagators.set n slot) + p.replacements =
      replaceable s.propagators + (slot.map (·.replacements)).getD 0 := by
  have hrow : s.propagators.toList[n]? = some (some p) := by
    unfold propagator? at hp
    rw [Option.join_eq_some_iff] at hp
    simpa [Table.toList, Table.get?] using hp
  have := total_set (fun slot : Option Propagator => (slot.map (·.replacements)).getD 0) slot hrow
  simpa [replaceable, Table.toList, Table.set] using this

theorem count_remove_le (queue : Queue) (n : Nat) : (queue.remove n).count ≤ queue.count := by
  unfold Queue.remove
  split
  · exact Nat.sub_le _ _
  · exact Nat.le_refl _

/-! ### Runs -/

/-- The space after a propagator was taken out. -/
def retired (s : Space) (n : Nat) : Space :=
  { s with
    propagators := s.propagators.set n none
    state := { s.state with
      watches := s.state.watches.unsubscribeAll n
      queue := s.state.queue.remove n } }

theorem yields_retire (s : Space) (n : Nat) (p : Propagator) :
    Journaled.Yields δ (s.retire n p) fun s' => s' = s.retired n := by
  have hnote : Journaled.Yields δ p.retire fun _ => True := by
    cases p <;> first | exact Journaled.Yields.note _ | exact Journaled.Yields.pure trivial
  exact hnote.bind fun _ _ => Journaled.Yields.pure rfl

theorem isScheduled_remove_of_ne {queue : Queue} {m : Nat} (hm : m ≠ n) :
    (queue.remove n).isScheduled m = queue.isScheduled m := by
  rw [Queue.isScheduled_remove, decide_eq_false (Ne.symm hm)]
  rfl

/-- What a settlement keeps. -/
structure Settlement (δ : Prop) (posted : List Propagator) (s s' : Space) : Prop where
  tracks : s'.Tracks δ posted none
  branching : s.SameBranching s'
  shrinks : s.Shrinks s'
  store : s'.store = s.store

theorem settlement_replace (h : s.Tracks δ posted (some n)) (hp : s.propagator? n = some p)
    {p' : Propagator} (hp' : ∃ a b offset, p' = notEquals a b offset)
    (hfewer : p'.replacements < p.replacements) (hw : p'.WellFormed δ s.store)
    (hiff : ∀ F : Box, F.Sound → F.Within s.store → (p.Stable F ↔ p'.Stable F)) :
    s.Settlement δ posted ((s.retired n).occupy n p') := by
  obtain ⟨q, hq⟩ := h.exists_posted hp
  have hup := h.upholds hq hp
  have hslots : ((s.retired n).occupy n p').propagators =
      s.propagators.set n (some p') := by
    simp [occupy, install, retired, Table.set]
  have hfewer' := replaceable_set hp (some p')
  refine ⟨?_, ⟨rfl, rfl, rfl⟩, ⟨?_, .inl ?_⟩, rfl⟩
  · have htracks : Tracks δ posted none { s with
        state := ((s.retired n).occupy n p').state
        propagators := s.propagators.set n (some p') } := by
      refine h.of_settled hq rfl rfl (valid_occupy (h.queue.remove n)) ?_ ?_ ?_ ?_
      · intro m hm
        rw [isScheduled_occupy, decide_eq_false (Ne.symm hm), Bool.false_or]
        exact isScheduled_remove_of_ne hm
      · exact fun x sub hsub hne => mem_watchers_occupy.2
          (.inl (WatchLists.mem_unsubscribeAll.1 hsub hne))
      · intro x sub hsub
        rcases mem_watchers_occupy.1 hsub with hsub | ⟨hsub, -⟩
        · exact .inl (WatchLists.mem_unsubscribeAll.2 hsub)
        · exact .inr hsub
      · have hfewest : p'.replacements < q.replacements := by
          rcases hup.origin with horigin | ⟨-, hless⟩
          · exact horigin.replacements ▸ hfewer
          · exact hfewer.trans hless
        refine ⟨.inr ⟨hp', hfewest⟩, hw, fun i hi => mem_watchers_occupy.2 (.inr ⟨rfl, hi⟩),
          fun F hF hle => (hup.agrees F hF hle).trans (hiff F hF hle), fun _ hn => ?_⟩
        rw [isScheduled_occupy, decide_eq_true rfl] at hn
        cases hn
    exact htracks.congr rfl hslots
  · rw [hslots]
    exact Table.size_set ..
  · rw [hslots]
    simp only [Option.map_some, Option.getD_some] at hfewer'
    refine Nat.add_lt_add_left ?_ s.store.weight
    omega

theorem settle_law (h : s.Tracks δ posted (some n)) (hp : s.propagator? n = some p)
    {p' : Propagator} {verdict : Verdict Propagator} (ha : p.Answers δ s.store (p', verdict)) :
    Journaled.Yields δ (s.settle n p' verdict) fun s' => s.Settlement δ posted s' := by
  obtain ⟨q, hq⟩ := h.exists_posted hp
  have hup := h.upholds hq hp
  have hreplaced := replaceable_set hp
  unfold settle
  cases verdict with
  | fix =>
    obtain ⟨hcontinues, hw, hrests⟩ := ha
    refine Journaled.Yields.pure ⟨?_, ⟨rfl, rfl, rfl⟩, ⟨Table.size_set .., ?_⟩, rfl⟩
    · refine h.of_settled hq rfl rfl (h.queue.remove n)
        (fun _ => isScheduled_remove_of_ne) (fun _ _ hsub _ => hsub)
        (fun _ _ hsub => .inl hsub) ?_
      refine ⟨?_, hw, fun i hi => ?_, fun F hF hle => ?_, fun _ _ horiented => ?_⟩
      · rcases hup.origin with horigin | ⟨⟨a, b, offset, rfl⟩, hless⟩
        · exact .inl (horigin.trans hcontinues)
        · cases hcontinues
          exact .inr ⟨⟨a, b, offset, rfl⟩, hless⟩
      · rw [hcontinues.interests] at hi
        exact hup.watches i hi
      · rw [hcontinues.stable]
        exact hup.agrees F hF hle
      · refine hrests ?_
        cases hcontinues with
        | same => exact horiented
        | marked => trivial
        | settled => trivial
    · have hsame : replaceable (s.propagators.set n (some p')) + p.replacements =
          replaceable s.propagators + p'.replacements := hreplaced (some p')
      rw [hcontinues.replacements] at hsame
      refine .inr ⟨?_, count_remove_le s.state.queue n⟩
      exact Nat.add_le_add_left (Nat.add_right_cancel hsame).le s.store.weight
  | noFix => exact ha.elim
  | subsumed =>
    refine (yields_retire s n p').mono ?_
    rintro s' rfl
    refine ⟨?_, ⟨rfl, rfl, rfl⟩, ⟨Table.size_set .., ?_⟩, rfl⟩
    · refine h.of_settled hq rfl rfl (h.queue.remove n)
        (fun _ => isScheduled_remove_of_ne)
        (fun _ _ hsub hne => WatchLists.mem_unsubscribeAll.1 hsub hne)
        (fun _ _ hsub => .inl (WatchLists.mem_unsubscribeAll.2 hsub)) ?_
      exact fun F hF hle => (hup.agrees F hF hle).2 (ha F hF hle)
    · have hless : replaceable (s.propagators.set n none) + p.replacements =
          replaceable s.propagators := hreplaced none
      refine .inr ⟨?_, count_remove_le s.state.queue n⟩
      exact Nat.add_le_add_left ((Nat.le_add_right _ _).trans hless.le) s.store.weight
  | replace successor =>
    obtain ⟨hsuccessor, hfewer, hw, hiff⟩ := ha
    refine (yields_retire s n p').bind ?_
    rintro s' rfl
    have hsubscriptions : Journaled.Yields δ (liftM successor.subscriptions)
        fun interests => interests = successor.interests := by
      rw [subscriptions_of_wellFormed hw]
      exact Journaled.Yields.lift (P := fun i => i = successor.interests) rfl
    refine hsubscriptions.bind ?_
    rintro interests rfl
    refine (Journaled.Yields.note _).bind fun _ _ => Journaled.Yields.pure ?_
    exact settlement_replace h hp hsuccessor hfewer hw hiff

/-- The box is stable for all that was posted. -/
def Consistent (posted : List Propagator) (F : Box) : Prop := ∀ q ∈ posted, q.Stable F

/-- From `s` to `s'` variables were narrowed, and no box was lost that is stable for all that was
posted. -/
structure Progress (posted : List Propagator) (s s' : Space) : Prop where
  branching : s.SameBranching s'
  narrows : s.store.Narrows s'.store
  kept : ∀ F : Box, F.Sound → Consistent posted F → F.Within s.store → F.Within s'.store

/-- Where no variable is touched, there is progress of a kind. -/
theorem Progress.of_store_eq (hbranching : s.SameBranching s') (hstore : s'.store = s.store) :
    s.Progress posted s' := by
  refine ⟨hbranching, ?_, fun F _ _ hle => ?_⟩
  · rw [hstore]
    exact Store.Narrows.refl _
  · rw [hstore]
    exact hle

theorem Progress.trans {s'' : Space} (h : s.Progress posted s') (h' : s'.Progress posted s'') :
    s.Progress posted s'' :=
  ⟨h.branching.trans h'.branching, h.narrows.trans h'.narrows,
    fun F hF hC hle => h'.kept F hF hC (h.kept F hF hC hle)⟩

/-- The space `s'` has failed, and rightly so: no box in `s` is stable for all that was posted. -/
structure Refutation (posted : List Propagator) (s s' : Space) : Prop where
  branching : s.SameBranching s'
  failed : s'.isFailed = true
  none_stable : ∀ F : Box, F.Sound → Consistent posted F → ¬F.Within s.store

/-- What a run of the propagator in a slot establishes. -/
def Executed (δ : Prop) (posted : List Propagator) (s : Space) : Bool × Space → Prop
  | (true, s') => s'.Tracks δ posted none ∧ s.Shrinks s' ∧ s.Progress posted s'
  | (false, s') => s.Refutation posted s'

theorem execute_law (h : s.Tracks δ posted (some n)) :
    Journaled.Yields δ (s.execute n) (s.Executed δ posted) := by
  unfold execute
  cases hp : s.propagator? n with
  | none =>
    refine Journaled.Yields.pure ⟨h.of_vacant hp, ⟨rfl, .inr ⟨Nat.le_refl _, Nat.le_refl _⟩⟩, ?_⟩
    exact .of_store_eq ⟨rfl, rfl, rfl⟩ rfl
  | some p =>
    obtain ⟨q, hq⟩ := h.exists_posted hp
    have hup := h.upholds hq hp
    have hstable (F : Box) (hF : F.Sound) (hC : Consistent posted F) (hle : F.Within s.store) :
        p.Stable F := (hup.agrees F hF hle).1 (hC q (List.mem_of_getElem? hq))
    refine (Propagator.execute_law h.ready hup.wellFormed).bind fun r hr => ?_
    obtain ⟨outcome, state⟩ := r
    cases outcome with
    | error i =>
      refine (Journaled.Yields.note _).bind fun _ _ => Journaled.Yields.pure ?_
      exact ⟨⟨rfl, rfl, rfl⟩, rfl, fun F hF hC hle => hr F hF (hstable F hF hC hle) hle⟩
    | ok r =>
      obtain ⟨p', verdict⟩ := r
      obtain ⟨hstep, hanswers⟩ := hr
      have hran : s.Progress posted { s with state, propagations := s.propagations + 1 } :=
        ⟨⟨rfl, rfl, rfl⟩, hstep.advances.store,
          fun F hF hC hle => hstep.kept F hF (hstable F hF hC hle) hle⟩
      have hshrinks : s.Shrinks { s with state, propagations := s.propagations + 1 } := by
        refine ⟨rfl, ?_⟩
        rcases hstep.advances.lighter with rfl | hlighter
        · exact .inr ⟨Nat.le_refl _, Nat.le_refl _⟩
        · exact .inl (Nat.add_lt_add_right hlighter _)
      have hadvanced : Tracks δ posted (some n)
          { s with state, propagations := s.propagations + 1 } :=
        (h.advance hstep.advances).congr rfl rfl
      refine (settle_law hadvanced hp hanswers).bind fun s' hs' => Journaled.Yields.pure ?_
      exact ⟨hs'.tracks, hshrinks.trans hs'.shrinks,
        hran.trans (.of_store_eq hs'.branching hs'.store)⟩

/-- Taking a propagator from the queue exempts it. -/
theorem Tracks.pop (h : s.Tracks δ posted none) :
    match s.pop with
    | (none, s') => s'.Tracks δ posted none ∧ s.Progress posted s' ∧
        ∀ n, s'.state.queue.isScheduled n = false
    | (some n, s') => s'.Tracks δ posted (some n) ∧ s.Progress posted s' ∧
        s'.measure < s.measure := by
  have hpop := h.queue.pop
  unfold Space.pop State.pop
  generalize s.state.queue.pop = r at hpop
  obtain ⟨number, queue⟩ := r
  cases number with
  | none =>
    obtain ⟨hvalid, hflags, hnone⟩ := hpop
    have hsame (m : Nat) : queue.isScheduled m = s.state.queue.isScheduled m := by
      unfold Queue.isScheduled
      rw [hflags]
    refine ⟨?_, Progress.of_store_eq ⟨rfl, rfl, rfl⟩ rfl, fun n => (hsame n).trans (hnone n)⟩
    exact
      { ready := ⟨h.ready.alive, h.ready.sound⟩
        queue := hvalid
        size := h.size
        scheduled := fun m hm => h.scheduled m ((hsame m).symm.trans hm)
        watched := h.watched
        accounts := fun m q hq => (h.accounts m q hq).congr rfl (fun _ _ hsub _ => hsub)
          fun hexempt hm => ⟨hexempt, (hsame m).symm.trans hm⟩ }
  | some n =>
    obtain ⟨hvalid, -, hcount, hflags⟩ := hpop
    refine ⟨?_, Progress.of_store_eq ⟨rfl, rfl, rfl⟩ rfl, ?_⟩
    · refine
        { ready := ⟨h.ready.alive, h.ready.sound⟩
          queue := hvalid
          size := h.size
          scheduled := fun m hm => h.scheduled m ?_
          watched := h.watched
          accounts := fun m q hq => (h.accounts m q hq).congr rfl (fun _ _ hsub _ => hsub) ?_ }
      · have := (hflags m).symm.trans hm
        rw [Bool.and_eq_true] at this
        exact this.2
      · intro hexempt hm
        have hne : n ≠ m := fun hnm => hexempt (congrArg some hnm)
        have := (hflags m).symm.trans hm
        rw [decide_eq_false hne] at this
        exact ⟨by simp, this⟩
    · unfold measure
      refine Nat.add_lt_add_left ?_ _
      show queue.count < s.state.queue.count
      omega

/-- What propagation establishes. -/
def Propagated (δ : Prop) (posted : List Propagator) (s s' : Space) : Prop :=
  if s'.isFailed then s.Refutation posted s'
  else s'.Tracks δ posted none ∧ s.Progress posted s' ∧
    ∀ n, s'.state.queue.isScheduled n = false

theorem propagateWithin_law {steps : Nat} (h : s.Tracks δ posted none)
    (hsteps : s.measure < steps) :
    Journaled.Yields δ (propagateWithin steps s) (s.Propagated δ posted) := by
  induction steps generalizing s with
  | zero => exact absurd hsteps (Nat.not_lt_zero _)
  | succ steps ih =>
    have hpop := h.pop
    unfold propagateWithin
    generalize s.pop = r at hpop
    obtain ⟨number, s₁⟩ := r
    cases number with
    | none =>
      obtain ⟨htracks, hprogress, hidle⟩ := hpop
      refine Journaled.Yields.pure ?_
      unfold Propagated
      rw [if_neg (by simp [isFailed, htracks.ready.alive])]
      exact ⟨htracks, hprogress, hidle⟩
    | some n =>
      obtain ⟨htracks, hprogress, hmeasure⟩ := hpop
      refine (execute_law htracks).bind fun r hr => ?_
      obtain ⟨consistent, s₂⟩ := r
      cases consistent with
      | false =>
        refine Journaled.Yields.pure ?_
        unfold Propagated
        rw [if_pos hr.failed]
        exact ⟨hprogress.branching.trans hr.branching, hr.failed,
          fun F hF hC hle => hr.none_stable F hF hC (hprogress.kept F hF hC hle)⟩
      | true =>
        obtain ⟨htracks₂, hshrinks, hprogress₂⟩ := hr
        have hle := hshrinks.measure_le htracks₂
        refine (ih htracks₂ (by omega)).mono fun s₃ hs₃ => ?_
        have hprogress := hprogress.trans hprogress₂
        unfold Propagated at hs₃ ⊢
        split at hs₃
        · rw [if_pos hs₃.failed]
          exact ⟨hprogress.branching.trans hs₃.branching, hs₃.failed,
            fun F hF hC hle => hs₃.none_stable F hF hC (hprogress.kept F hF hC hle)⟩
        · rename_i halive
          rw [if_neg halive]
          exact ⟨hs₃.1, hprogress.trans hs₃.2.1, hs₃.2.2⟩

/-- The bound of propagation is large enough. -/
theorem Tracks.measure_lt (h : s.Tracks δ posted none) : s.measure < s.propagationBound := by
  have hcount : s.state.queue.count ≤ s.propagators.size := by
    rw [h.size]
    exact h.queue.count_le h.scheduled
  unfold propagationBound measure
  change (s.store.weight + replaceable s.propagators) * _ + _ < _ * _ + 1
  rw [Nat.succ_mul]
  unfold replaceable
  omega

/-- Propagation comes to an end within its bound, and establishes what it should. -/
theorem propagate_law (h : s.Tracks δ posted none) :
    Journaled.Yields δ s.propagate (s.Propagated δ posted) := by
  unfold propagate
  rw [if_neg (by simp [isFailed, h.ready.alive])]
  exact propagateWithin_law h h.measure_lt

/-- Where nothing is scheduled, the domains are stable for what was posted. Of the cardinality of a
set this is only said once the set is known. -/
theorem Tracks.stable_of_idle (h : s.Tracks δ posted none)
    (hidle : s.state.queue.isScheduled n = false) (hq : posted[n]? = some q)
    (horiented : q.Oriented)
    (hset : ∀ set x, q = setCardinality set x → (s.store.box.sets set).isAssigned = true) :
    q.Stable s.store.box := by
  have haccounts := h.accounts n q hq
  cases hp : s.propagator? n with
  | none =>
    rw [hp] at haccounts
    exact haccounts _ h.ready.sound.box s.store.box_within
  | some p =>
    rw [hp] at haccounts
    refine (haccounts.agrees _ h.ready.sound.box s.store.box_within).2 ?_
    have hp : p.Oriented := by
      rcases haccounts.origin with horigin | ⟨⟨a, b, offset, rfl⟩, -⟩
      · exact horigin.oriented horiented
      · trivial
    have hrests := haccounts.rests (by simp) hidle hp
    refine stable_of_rests h.ready.sound haccounts.wellFormed hrests ?_
    rintro set x rfl
    rcases haccounts.origin with horigin | ⟨⟨a, b, offset, horigin⟩, -⟩
    · cases horigin
      have hopen : (s.store.box.sets set).isAssigned = false := hrests.2.2.1
      rw [hset set x rfl] at hopen
      cases hopen
    · cases horigin

/-- The status of a space is read off after propagation, which is all that touches its variables
and propagators. -/
theorem exists_of_status {r : SpaceStatus × Space} (h : s.status.Returns r) :
    ∃ s₁, s.propagate.Returns s₁ ∧ (r.1 = .failed ↔ s₁.isFailed = true) ∧
      r.2.state = s₁.state ∧ r.2.propagators = s₁.propagators := by
  obtain ⟨s₁, hpropagate, h⟩ := Journaled.exists_of_returns_bind h
  refine ⟨s₁, hpropagate, ?_⟩
  by_cases hf : s₁.isFailed = true
  · rw [if_pos hf] at h
    obtain rfl := Journaled.of_returns_pure h
    exact ⟨by simp [hf], rfl, rfl⟩
  · rw [if_neg hf] at h
    obtain ⟨⟨isOpen, branchers, active⟩, -, h⟩ := Journaled.exists_of_returns_bind h
    obtain rfl := Journaled.of_returns_pure h
    refine ⟨?_, rfl, rfl⟩
    cases isOpen <;> simp [hf]

theorem isFailed_of_status {status : SpaceStatus} (h : s.status.Returns (status, s')) :
    s'.isFailed = true ↔ status = .failed := by
  obtain ⟨s₁, -, hfailed, hstate, -⟩ := exists_of_status h
  rw [hfailed]
  exact iff_of_eq (congrArg (·.failed = true) hstate)

/-- What a status says about what was posted. -/
theorem Tracks.of_status (h : s.Tracks δ posted none) {status : SpaceStatus}
    (hs : s.status.Returns (status, s')) :
    if status = .failed then ∀ F : Box, F.Sound → Consistent posted F → ¬F.Within s.store
    else s'.Tracks δ posted none ∧ s.store.Narrows s'.store ∧
      (∀ F : Box, F.Sound → Consistent posted F → F.Within s.store → F.Within s'.store) ∧
      ∀ n, s'.state.queue.isScheduled n = false := by
  obtain ⟨s₁, hpropagate, hfailed, hstate, hslots⟩ := exists_of_status hs
  have hlaw := (propagate_law h).of_returns hpropagate
  unfold Propagated at hlaw
  dsimp only at hfailed hstate hslots
  by_cases hf : s₁.isFailed = true
  · rw [if_pos (hfailed.2 hf)]
    rw [if_pos hf] at hlaw
    exact hlaw.none_stable
  · rw [if_neg fun hs => hf (hfailed.1 hs)]
    rw [if_neg hf] at hlaw
    obtain ⟨htracks, hprogress, hidle⟩ := hlaw
    have hstore : s'.store = s₁.store := congrArg State.store hstate
    rw [hstore, hstate]
    exact ⟨htracks.congr hstate hslots, hprogress.narrows, hprogress.kept, hidle⟩

end ConstraintSearch.Space
