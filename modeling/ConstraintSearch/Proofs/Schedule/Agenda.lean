import Mathlib.Data.List.Forall2
import Mathlib.Logic.Relation
import ConstraintSearch.Proofs.Schedule.Queue

/-!
# The queue as a set and as an order

What a queue should hold is known from the sequence of its operations alone: an agenda lists the
scheduled propagators in the order in which they last became scheduled, each with the cost that it
was given then.

* `Queue.Run` are the queues that operations lead to, each beside its agenda; a random order may
  draw any position and go on with any generator;
* `Queue.Run.isSet`: the queue is exactly the set of the members of the agenda, and `Queue.pop`
  takes one of them out;
* `Agenda.First` is the propagator that is due under a policy, and `Queue.Run.pop_in_order` says
  that it is the one that is served, if it has one entry in the line. In any case the one that is
  served is the first one of the line that is scheduled;
* a propagator that was cancelled and scheduled again has left an entry behind that is not passed
  over: it may be served before its time (`Queue.Run.exists_served_early`).
-/

namespace ConstraintSearch

/-- The scheduled propagators with their costs, in the order in which they became scheduled. -/
abbrev Agenda := List (Nat × Cost)

namespace Agenda

def members (a : Agenda) : Finset Nat := (a.map Prod.fst).toFinset

/-- A propagator that is scheduled keeps its place and its cost. -/
def schedule (a : Agenda) (n : Nat) (cost : Cost) : Agenda :=
  if n ∈ a.members then a else a ++ [(n, cost)]

def remove (a : Agenda) (n : Nat) : Agenda := a.filter fun x => x.1 ≠ n

/-- The propagator is due: under `Policy.costOrdered` none is cheaper, and those that became
scheduled before it cost more; under `Policy.fifo` none became scheduled before it. A random order
knows no such propagator, so that each of them may be served. -/
def First (policy : Policy) (a : Agenda) (n : Nat) : Prop :=
  match policy with
  | .costOrdered => ∃ cost before after, a = before ++ (n, cost) :: after ∧
      (∀ x ∈ before, cost.rank < x.2.rank) ∧ ∀ x ∈ after, cost.rank ≤ x.2.rank
  | .fifo => ∃ cost after, a = (n, cost) :: after
  | .random _ => n ∈ a.members

variable {a : Agenda} {n m : Nat}

theorem mem_members : n ∈ a.members ↔ ∃ cost, (n, cost) ∈ a := by simp [members]

theorem members_schedule (a : Agenda) (n : Nat) (cost : Cost) :
    (a.schedule n cost).members = insert n a.members := by
  unfold schedule
  split
  · rename_i h
    rw [Finset.insert_eq_of_mem h]
  · ext m
    simp only [members, List.map_append, List.toFinset_append, Finset.mem_union, Finset.mem_insert,
      List.mem_toFinset, List.map_cons, List.map_nil, List.mem_singleton, or_comm]

theorem members_remove (a : Agenda) (n : Nat) : (a.remove n).members = a.members.erase n := by
  ext m
  simp only [mem_members, remove, Finset.mem_erase, List.mem_filter, decide_eq_true_eq]
  exact ⟨fun ⟨cost, h, hm⟩ => ⟨hm, cost, h⟩, fun ⟨hm, cost, h⟩ => ⟨cost, h, hm⟩⟩

theorem members_eq_empty : a.members = ∅ ↔ a = [] := by simp [members]

theorem remove_of_notMem (h : n ∉ a.members) : a.remove n = a := by
  refine List.filter_eq_self.2 fun x hx => decide_eq_true ?_
  rintro rfl
  exact h (mem_members.2 ⟨x.2, hx⟩)

/-! ### The lanes of an agenda -/

/-- The members that wait in the lane of a class, the first one in front. -/
def lane (order : Order) (a : Agenda) (cost : Cost) : List Nat :=
  (a.filter fun x => Queue.Order.lane order x.2 = cost).map Prod.fst

theorem lane_remove (order : Order) (a : Agenda) (n : Nat) (cost : Cost) :
    (a.remove n).lane order cost = (a.lane order cost).filter (· ≠ n) := by
  unfold lane remove
  rw [List.filter_map, List.filter_filter, List.filter_filter]
  congr 2
  funext x
  exact Bool.and_comm _ _

theorem lane_append (order : Order) (a : Agenda) (n : Nat) (cost cost' : Cost) :
    lane order (a ++ [(n, cost)]) cost' =
      a.lane order cost' ++ if Queue.Order.lane order cost = cost' then [n] else [] := by
  unfold lane
  rw [List.filter_append, List.map_append]
  congr 1
  by_cases h : Queue.Order.lane order cost = cost' <;> simp [h]

/-- The members in the order in which they are due: lane by lane. -/
def due (order : Order) (a : Agenda) : List Nat := Cost.all.flatMap (a.lane order)

theorem mem_due {order : Order} : n ∈ a.due order ↔ n ∈ a.members := by
  simp only [due, lane, List.mem_flatMap, List.mem_map, List.mem_filter, mem_members,
    decide_eq_true_eq]
  constructor
  · rintro ⟨-, -, x, ⟨hx, -⟩, rfl⟩
    exact ⟨x.2, hx⟩
  · rintro ⟨cost, h⟩
    exact ⟨Queue.Order.lane order cost, by cases Queue.Order.lane order cost <;> decide, (n, cost),
      ⟨h, rfl⟩, rfl⟩

theorem exists_lane_of_flatMap {order : Order} {classes : List Cost} {rest : List Nat}
    (h : classes.flatMap (a.lane order) = n :: rest) : ∃ cheaper cost dearer rest',
      classes = cheaper ++ cost :: dearer ∧ (∀ c ∈ cheaper, a.lane order c = []) ∧
        a.lane order cost = n :: rest' := by
  induction classes with
  | nil => cases h
  | cons cost classes ih =>
    rw [List.flatMap_cons] at h
    cases hlane : a.lane order cost with
    | nil =>
      rw [hlane, List.nil_append] at h
      obtain ⟨cheaper, c, dearer, rest', rfl, hcheaper, hc⟩ := ih h
      refine ⟨cost :: cheaper, c, dearer, rest', rfl, ?_, hc⟩
      simpa [hlane] using hcheaper
    | cons m rest' =>
      rw [hlane, List.cons_append, List.cons.injEq] at h
      obtain ⟨rfl, -⟩ := h
      exact ⟨[], cost, classes, rest', rfl, by simp, hlane⟩

/-- The first one of the first lane that is not empty: no class comes before its own, and those of
its own class that came before it would stand in front of it. -/
theorem exists_split_of_due {order : Order} {rest : List Nat} (h : a.due order = n :: rest) :
    ∃ cost before after, a = before ++ (n, cost) :: after ∧
      (∀ x ∈ before, (Queue.Order.lane order cost).rank < (Queue.Order.lane order x.2).rank) ∧
      ∀ x ∈ after, (Queue.Order.lane order cost).rank ≤ (Queue.Order.lane order x.2).rank := by
  obtain ⟨cheaper, cost, dearer, rest', hall, hcheaper, hlane⟩ := exists_lane_of_flatMap h
  have hle (x : Nat × Cost) (hx : x ∈ a) : cost.rank ≤ (Queue.Order.lane order x.2).rank := by
    have hsorted : Cost.all.Pairwise fun c c' => c.rank < c'.rank := by decide
    have hmem : Queue.Order.lane order x.2 ∈ Cost.all := by
      cases Queue.Order.lane order x.2 <;> decide
    rw [hall] at hsorted hmem
    rcases List.mem_append.1 hmem with hmem | hmem
    · have hnil := hcheaper _ hmem
      rw [lane, List.map_eq_nil_iff, List.filter_eq_nil_iff] at hnil
      exact absurd (decide_eq_true rfl) (hnil x hx)
    · rcases List.mem_cons.1 hmem with heq | hmem
      · rw [heq]
      · exact (List.rel_of_pairwise_cons (List.pairwise_append.1 hsorted).2.1 hmem).le
  obtain ⟨⟨_, own⟩, _, hfilter, rfl, -⟩ := List.map_eq_cons_iff.1 hlane
  obtain ⟨before, after, rfl, hbefore, hown, -⟩ := List.filter_eq_cons_iff.1 hfilter
  have hown : Queue.Order.lane order own = cost := of_decide_eq_true hown
  rw [← hown] at hle hbefore
  refine ⟨own, before, after, rfl, fun x hx => ?_, fun x hx => hle x (by simp [hx])⟩
  refine lt_of_le_of_ne (hle x (by simp [hx])) fun hrank => ?_
  exact hbefore x hx (decide_eq_true (Cost.rank_injective hrank).symm)

theorem first_of_due {policy : Policy} (hpolicy : ∀ seed, policy ≠ .random seed)
    {rest : List Nat} (h : a.due policy.order = n :: rest) : a.First policy n := by
  obtain ⟨cost, before, after, rfl, hbefore, hafter⟩ := exists_split_of_due h
  cases policy with
  | random seed => exact absurd rfl (hpolicy seed)
  | costOrdered => exact ⟨cost, before, after, rfl, hbefore, hafter⟩
  | fifo =>
    -- All of them wait in one lane, so that nothing is before the first one of it.
    cases before with
    | nil => exact ⟨cost, after, rfl⟩
    | cons x before => exact absurd (hbefore x List.mem_cons_self) (lt_irrefl _)

end Agenda

namespace Queue

open Agenda

variable {policy : Policy} {q q' : Queue} {a : Agenda} {n : Nat} {outcome : Option Nat}

/-- The queues that a sequence of operations leads to, each beside its agenda. -/
inductive Run (policy : Policy) : Queue → Agenda → Prop
  | fresh : Run policy (Queue.ofPolicy policy) []
  | schedule {q : Queue} {a : Agenda} (h : Run policy q a) (n : Nat) (cost : Cost) :
      Run policy (q.schedule n cost) (a.schedule n cost)
  | remove {q : Queue} {a : Agenda} (h : Run policy q a) (n : Nat) :
      Run policy (q.remove n) (a.remove n)
  | pop {q q' : Queue} {a : Agenda} {outcome : Option Nat} (h : Run policy q a)
      (hpops : q.Pops outcome q') : Run policy q' (outcome.elim a a.remove)
  | clear {q : Queue} {a : Agenda} (h : Run policy q a) : Run policy q.clear []

/-- Each lane holds the members of the agenda that wait in it, in their order and among entries that
were left behind. -/
def Waits (order : Order) (a : Agenda) (classes : List Cost) (lanes : List Lane) : Prop :=
  List.Forall₂ (fun cost lane => (a.lane order cost).Sublist lane.toList) classes lanes

/-! ### What the operations keep -/

/-- What is true of a queue beside its agenda. -/
structure Tracks (policy : Policy) (q : Queue) (a : Agenda) : Prop where
  valid : q.Valid
  isScheduled_iff : ∀ n, q.isScheduled n = true ↔ n ∈ a.members
  waits : (∀ seed, policy ≠ .random seed) →
    q.order = policy.order ∧ Waits policy.order a Cost.all q.lanes.toList

theorem Waits.remove {order : Order} {classes : List Cost} {lanes : List Lane}
    (h : Waits order a classes lanes) (n : Nat) : Waits order (a.remove n) classes lanes := by
  refine List.Forall₂.imp (fun cost lane hlane => ?_) h
  rw [lane_remove]
  exact List.filter_sublist.trans hlane

/-- A propagator that becomes scheduled joins its lane behind those that wait there. -/
theorem Waits.push {order : Order} {classes : List Cost} {lanes : List Lane} {i : Nat} {cost : Cost}
    (h : Waits order a classes lanes) (hnodup : classes.Nodup)
    (hi : classes[i]? = some (Order.lane order cost)) (n : Nat) :
    Waits order (a ++ [(n, cost)]) classes (lanes.modify i (·.push n)) := by
  have hother {c : Cost} (hc : Order.lane order cost ≠ c) :
      Agenda.lane order (a ++ [(n, cost)]) c = a.lane order c := by
    rw [lane_append, if_neg hc, List.append_nil]
  induction h generalizing i with
  | nil => simp at hi
  | @cons c lane classes lanes hlane htail ih =>
    obtain ⟨hc, hnodup⟩ := List.nodup_cons.1 hnodup
    cases i with
    | zero =>
      obtain rfl : c = Order.lane order cost := by simpa using hi
      have hne : ∀ c ∈ classes, Order.lane order cost ≠ c := fun c hmem heq => hc (heq ▸ hmem)
      refine .cons ?_ (((List.forall₂_and_left _ _).2 ⟨hne, htail⟩).imp fun c lane hlane => ?_)
      · rw [lane_append, if_pos rfl, Lane.toList_push]
        exact hlane.append (List.Sublist.refl _)
      · rw [hother hlane.1]
        exact hlane.2
    | succ i =>
      replace hi : classes[i]? = some (Order.lane order cost) := by simpa using hi
      refine .cons ?_ (ih hnodup hi)
      rw [hother]
      · exact hlane
      · rintro rfl
        exact hc (List.mem_of_getElem? hi)

/-- Serving takes an entry from the front of a lane: its propagator, which may be a member of the
agenda or not, is the first one there or none of that lane. -/
theorem Waits.serve {order : Order} {classes : List Cost} {lanes lanes' : List Lane}
    (h : Waits order a classes lanes) (hserve : serveFirst? lanes = some (n, lanes')) :
    Waits order (a.remove n) classes lanes' := by
  induction h generalizing lanes' with
  | nil => cases hserve
  | @cons c lane classes lanes hlane htail ih =>
    unfold serveFirst? at hserve
    cases hpop : lane.pop? with
    | some r =>
      obtain ⟨entry, lane'⟩ := r
      simp only [hpop, Option.some.injEq, Prod.mk.injEq] at hserve
      obtain ⟨rfl, rfl⟩ := hserve
      refine .cons ?_ (Waits.remove htail entry)
      have hfront := hlane.filter (· ≠ entry)
      rw [Lane.toList_of_pop? hpop, List.filter_cons_of_neg (by simp)] at hfront
      rw [lane_remove]
      exact hfront.trans List.filter_sublist
    | none =>
      simp only [hpop, Option.map_eq_some_iff, Prod.mk.injEq] at hserve
      obtain ⟨⟨entry, rest⟩, hrest, rfl, rfl⟩ := hserve
      refine .cons ?_ (ih hrest)
      rw [lane_remove]
      exact List.filter_sublist.trans hlane

theorem Waits.due_sublist {order : Order} {classes : List Cost} {lanes : List Lane}
    (h : Waits order a classes lanes) :
    (classes.flatMap (a.lane order)).Sublist (lanes.flatMap Lane.toList) := by
  induction h with
  | nil => exact List.Sublist.refl _
  | cons hlane _ ih =>
    rw [List.flatMap_cons, List.flatMap_cons]
    exact hlane.append ih

/-- Nothing is asked of lanes in which nothing waits. -/
theorem Waits.nil (order : Order) {classes : List Cost} {lanes : List Lane}
    (h : lanes.length = classes.length) : Waits order [] classes lanes := by
  induction lanes generalizing classes with
  | nil =>
    rw [List.eq_nil_of_length_eq_zero h.symm]
    exact List.Forall₂.nil
  | cons lane lanes ih =>
    cases classes with
    | nil => cases h
    | cons c classes => exact .cons (List.nil_sublist _) (ih (Nat.succ.inj h))

theorem Tracks.fresh (policy : Policy) : Tracks policy (Queue.ofPolicy policy) [] where
  valid := .ofPolicy policy
  isScheduled_iff n := by simp [Agenda.members, Queue.ofPolicy, isScheduled, Table.get?]; rfl
  waits _ := ⟨rfl, .nil _ rfl⟩

theorem Tracks.schedule (h : Tracks policy q a) (n : Nat) (cost : Cost) :
    Tracks policy (q.schedule n cost) (a.schedule n cost) := by
  have hmem := h.isScheduled_iff n
  refine ⟨h.valid.schedule n cost, fun m => ?_, fun hpolicy => ?_⟩
  · rw [isScheduled_schedule, members_schedule, Finset.mem_insert, Bool.or_eq_true,
      h.isScheduled_iff, decide_eq_true_eq, eq_comm]
  · obtain ⟨horder, hwaits⟩ := h.waits hpolicy
    unfold Agenda.schedule
    cases hn : q.isScheduled n with
    | true =>
      rw [schedule_of_scheduled hn, if_pos (hmem.1 hn)]
      exact ⟨horder, hwaits⟩
    | false =>
      rw [schedule_of_not_scheduled hn, if_neg (by simp [← hmem, hn]), horder]
      refine ⟨rfl, ?_⟩
      have hrank : Cost.all[(Order.lane policy.order cost).rank]? =
          some (Order.lane policy.order cost) := by cases Order.lane policy.order cost <;> rfl
      simpa [Table.modify, Table.toList] using hwaits.push (by decide) hrank n

theorem Tracks.remove (h : Tracks policy q a) (n : Nat) :
    Tracks policy (q.remove n) (a.remove n) := by
  refine ⟨h.valid.remove n, fun m => ?_, fun hpolicy => ?_⟩
  · rw [isScheduled_remove, members_remove, Finset.mem_erase, Bool.and_eq_true,
      h.isScheduled_iff, Bool.not_eq_true', decide_eq_false_iff_not, ne_comm]
  · obtain ⟨horder, hwaits⟩ := h.waits hpolicy
    cases hn : q.isScheduled n with
    | true =>
      rw [remove_of_scheduled hn]
      exact ⟨horder, hwaits.remove n⟩
    | false =>
      rw [remove_of_not_scheduled hn]
      exact ⟨horder, hwaits.remove n⟩

theorem Tracks.clear (h : Tracks policy q a) : Tracks policy q.clear [] where
  valid := h.valid.clear
  isScheduled_iff n := by simp [isScheduled_clear, Agenda.members]
  waits hpolicy := by
    refine ⟨(h.waits hpolicy).1, .nil _ ?_⟩
    simpa [Table.size, Table.toList] using h.valid.clear.lanes_size

/-- An order that does not draw serves the first entry of the line. -/
theorem Serves.line_eq (h : q.Serves n q') (horder : ∀ generator, q.order ≠ .random generator) :
    q.line = n :: q'.line ∧ q'.order = q.order ∧
      serveFirst? q.lanes.toList = some (n, q'.lanes.toList) := by
  cases h with
  | first _ hserve => exact ⟨(flatMap_of_serveFirst?_some hserve).1, rfl, hserve⟩
  | drawn hrandom => exact absurd hrandom (horder _)

theorem order_ne_random (hpolicy : ∀ seed, policy ≠ .random seed) (generator : Generator) :
    policy.order ≠ .random generator := by
  cases policy with
  | random seed => exact absurd rfl (hpolicy seed)
  | costOrdered | fifo => exact nofun

/-- An entry is served: its propagator, whether it was scheduled or not, is no longer so. -/
theorem Tracks.serves (h : Tracks policy q a) (hserves : q.Serves n q') :
    Tracks policy (q'.remove n) (a.remove n) := by
  have hserved := hserves.served h.valid
  refine ⟨hserved.valid_remove h.valid, fun m => ?_, fun hpolicy => ?_⟩
  · rw [isScheduled_remove, hserved.isScheduled_eq, ← isScheduled_remove]
    exact (h.remove n).isScheduled_iff m
  · obtain ⟨horder, hwaits⟩ := h.waits hpolicy
    obtain ⟨-, horder', hserve⟩ := hserves.line_eq (horder ▸ order_ne_random hpolicy)
    unfold Queue.remove
    split <;> exact ⟨horder'.trans horder, hwaits.serve hserve⟩

theorem Tracks.passes (h : Tracks policy q a) (hpasses : q.Passes q') : Tracks policy q' a := by
  obtain ⟨-, n, hserves, hn⟩ := hpasses
  have hmem : n ∉ a.members := by
    rw [← h.isScheduled_iff, ← (hserves.served h.valid).isScheduled_eq, hn]
    exact Bool.false_ne_true
  have htracks := h.serves hserves
  rwa [remove_of_not_scheduled hn, remove_of_notMem hmem] at htracks

theorem Tracks.pops (h : Tracks policy q a) (hpops : q.Pops outcome q') :
    Tracks policy q' (outcome.elim a a.remove) := by
  induction hpops with
  | idle => exact h
  | found _ hserves => exact h.serves hserves
  | passed hpasses _ ih => exact ih (h.passes hpasses)

theorem Tracks.isEmpty_iff (h : Tracks policy q a) : q.isEmpty = true ↔ a.members = ∅ := by
  rw [h.valid.isEmpty_iff, Finset.eq_empty_iff_forall_notMem]
  simp only [← h.isScheduled_iff, Bool.not_eq_true]

theorem Tracks.mem_of_pops (h : Tracks policy q a) (hpops : q.Pops (some n) q') :
    n ∈ a.members :=
  (h.isScheduled_iff n).1 (hpops.popped h.valid).2.1

/-- Only the empty queue serves nobody. -/
theorem Tracks.none_iff_of_pops (h : Tracks policy q a) (hpops : q.Pops outcome q') :
    outcome = none ↔ a.members = ∅ := by
  cases outcome with
  | none =>
    have hidle := (hpops.popped h.valid).2.2
    exact iff_of_true rfl (h.isEmpty_iff.1 (h.valid.isEmpty_iff.2 hidle))
  | some n =>
    refine iff_of_false nofun fun hS => ?_
    exact Finset.notMem_empty n (hS ▸ h.mem_of_pops hpops)

theorem Run.tracks (h : Run policy q a) : Tracks policy q a := by
  induction h with
  | fresh => exact .fresh policy
  | schedule _ n cost ih => exact ih.schedule n cost
  | remove _ n ih => exact ih.remove n
  | pop _ hpops ih => exact ih.pops hpops
  | clear _ ih => exact ih.clear

/-! ### The queue as a set -/

/-- The queue is the set `S`: its operations know no more of it, and serving comes to an end. -/
structure IsSet (q : Queue) (S : Finset Nat) : Prop where
  isEmpty_iff : q.isEmpty = true ↔ S = ∅
  isScheduled_iff : ∀ n, q.isScheduled n = true ↔ n ∈ S
  /-- No entry can be passed over forever, whatever is drawn. -/
  terminates : Acc (fun after before => Passes before after) q
  /-- Whatever was passed over, there is an entry left while something is scheduled. -/
  serves : ∀ q₁, Relation.ReflTransGen Passes q q₁ → q₁.isEmpty = false → ∃ n q₂, q₁.Serves n q₂
  /-- A random order draws from a lane that is not empty, and may draw any position of it. -/
  draws : ∀ q₁, Relation.ReflTransGen Passes q q₁ → q₁.isEmpty = false →
    ∀ generator, q₁.order = .random generator →
      ∃ lane, q₁.lanes.get? Cost.unary.rank = some lane ∧ 0 < lane.size ∧
        ∀ position < lane.size, (lane.take? position).isSome = true
  /-- `Queue.pop` serves entries until one belongs to a scheduled propagator. -/
  pops : q.Pops q.pop.1 q.pop.2
  none_iff : ∀ outcome q', q.Pops outcome q' → (outcome = none ↔ S = ∅)
  some_mem : ∀ n q', q.Pops (some n) q' →
    n ∈ S ∧ ∀ m, q'.isScheduled m = true ↔ m ∈ S.erase n

/-- Passing over an entry makes the line shorter. -/
theorem Valid.acc_passes (h : q.Valid) : Acc (fun after before => Passes before after) q := by
  induction hlength : q.line.length using Nat.strong_induction_on generalizing q with
  | _ length ih =>
    refine ⟨_, fun q' hpasses => ?_⟩
    obtain ⟨hvalid, n, hserved⟩ := hpasses.exists_served h
    have := hserved.length
    exact ih _ (by omega) hvalid rfl

theorem Valid.passed {q₁ : Queue} (h : q.Valid) (hpassed : Relation.ReflTransGen Passes q q₁) :
    q₁.Valid := by
  induction hpassed with
  | refl => exact h
  | tail _ hpasses ih => exact (hpasses.exists_served ih).1

theorem Valid.exists_lane (h : q.Valid) (hopen : q.isEmpty = false) {generator : Generator}
    (horder : q.order = .random generator) :
    ∃ lane, q.lanes.get? Cost.unary.rank = some lane ∧ 0 < lane.size ∧
      ∀ position < lane.size, (lane.take? position).isSome = true := by
  obtain ⟨first, _, _, hline, _, hfirst⟩ := h.line_of_random horder
  obtain ⟨n, q', hserves⟩ := h.exists_serves hopen
  refine ⟨first, hfirst, ?_, fun position => Lane.take?_isSome⟩
  have hlength := (hserves.served h).length
  rw [hline, Lane.length_toList] at hlength
  omega

/-- A queue that operations lead to is the set of the propagators that are scheduled by them. -/
theorem Run.isSet (h : Run policy q a) : q.IsSet a.members := by
  have htracks := h.tracks
  have hvalid := htracks.valid
  refine ⟨htracks.isEmpty_iff, htracks.isScheduled_iff, hvalid.acc_passes,
    fun q₁ hpassed hopen => ?_, fun q₁ hpassed hopen generator horder => ?_, hvalid.pops,
    fun _ _ hpops => htracks.none_iff_of_pops hpops, fun n q' hpops => ?_⟩
  · exact (hvalid.passed hpassed).exists_serves hopen
  · exact (hvalid.passed hpassed).exists_lane hopen horder
  · refine ⟨htracks.mem_of_pops hpops, fun m => ?_⟩
    rw [(htracks.pops hpops).isScheduled_iff, Option.elim_some, members_remove]

/-- A random order with an entry that was left behind: the propagator `0` has two of them. -/
theorem Run.isSet_after_cancelling : ∃ q a, Run (.random 3) q a ∧ q.line = [0, 0, 1] ∧
    a.members = {0, 1} ∧ q.IsSet a.members := by
  have hfresh : Run (.random 3) _ _ := .fresh
  have h := hfresh.schedule 0 .cubic |>.remove 0 |>.schedule 0 .unary |>.schedule 1 .binary
  exact ⟨_, _, h, by decide, by decide, h.isSet⟩

/-! ### The queue as an order -/

/-- Entries that are passed over belong to propagators that are not scheduled. -/
theorem Pops.find?_line (h : q.Pops outcome q') (hvalid : q.Valid)
    (horder : ∀ generator, q.order ≠ .random generator) :
    outcome = q.line.find? q.isScheduled := by
  induction h with
  | idle hempty =>
    have hnone := hvalid.isEmpty_iff.1 hempty
    exact (List.find?_eq_none.2 fun n _ => by simp [hnone n]).symm
  | found _ hserves hn =>
    rw [(hserves.served hvalid).isScheduled_eq] at hn
    rw [(hserves.line_eq horder).1, List.find?_cons_of_pos hn]
  | passed hpasses _ ih =>
    obtain ⟨-, n, hserves, hn⟩ := id hpasses
    have hserved := hserves.served hvalid
    obtain ⟨hline, hsame, -⟩ := hserves.line_eq horder
    rw [ih (hpasses.exists_served hvalid).1 (hsame ▸ horder), funext hserved.isScheduled_eq, hline,
      List.find?_cons_of_neg]
    rw [← hserved.isScheduled_eq, hn]
    exact Bool.false_ne_true

/-- If the members that are due are among the entries of a line, in their order, and the one that is
found first has no other entry, it is due first. -/
theorem exists_due_eq_cons {due line : List Nat} {isScheduled : Nat → Bool}
    (hsublist : due.Sublist line) (hdue : ∀ m ∈ due, isScheduled m = true) (hn : n ∈ due)
    (hfind : line.find? isScheduled = some n) (hcount : line.count n = 1) :
    ∃ rest, due = n :: rest := by
  obtain ⟨hscheduled, passed, rest, rfl, hpassed⟩ := List.find?_eq_some_iff_append.1 hfind
  have hpassed : passed.filter isScheduled = [] :=
    List.filter_eq_nil_iff.2 fun m hm => by simpa using hpassed m hm
  have hrest : n ∉ rest := by
    intro hmem
    have := List.count_pos_iff.2 hmem
    simp only [List.count_append, List.count_cons_self] at hcount
    omega
  have hlive := hsublist.filter isScheduled
  rw [List.filter_eq_self.2 hdue, List.filter_append, hpassed, List.nil_append,
    List.filter_cons_of_pos hscheduled] at hlive
  cases hlive with
  | cons _ hlive => exact absurd (List.mem_filter.1 (hlive.subset hn)).1 hrest
  | cons_cons _ _ => exact ⟨_, rfl⟩

/-- The first entry of a scheduled propagator is served, be it the one that the propagator got when
it became scheduled or one that was left behind before. If there is but one, the propagator is
due. -/
theorem Run.pop_in_order (h : Run policy q a) (hpolicy : ∀ seed, policy ≠ .random seed)
    (hpops : q.Pops outcome q') :
    outcome = q.line.find? q.isScheduled ∧ (outcome = none ↔ a = []) ∧
      ∀ n, outcome = some n → n ∈ a.members ∧ (q.line.count n = 1 → a.First policy n) := by
  have htracks := h.tracks
  obtain ⟨horder, hwaits⟩ := htracks.waits hpolicy
  have hfind := hpops.find?_line htracks.valid (horder ▸ order_ne_random hpolicy)
  refine ⟨hfind, ?_, ?_⟩
  · rw [htracks.none_iff_of_pops hpops, members_eq_empty]
  · rintro n rfl
    have hn := htracks.mem_of_pops hpops
    refine ⟨hn, fun hcount => ?_⟩
    obtain ⟨rest, hdue⟩ := exists_due_eq_cons hwaits.due_sublist
      (fun m hm => (htracks.isScheduled_iff m).2 (mem_due.1 hm)) (mem_due.2 hn) hfind.symm hcount
    exact first_of_due hpolicy hdue

/-- The entry that was left behind in a cheaper lane is passed over: its propagator is not
scheduled. -/
theorem Run.pop_in_order_after_cancelling : ∃ q a, Run .costOrdered q a ∧ q.line = [3, 1, 2, 0] ∧
    q.pop.1 = some 1 ∧ a.First .costOrdered 1 := by
  have hfresh : Run .costOrdered _ _ := .fresh
  have h := hfresh.schedule 0 .cubic |>.schedule 3 .unary |>.schedule 1 .binary
    |>.schedule 2 .binary |>.remove 3
  refine ⟨_, _, h, by decide, by decide, ?_⟩
  exact ((h.pop_in_order nofun h.tracks.valid.pops).2.2 1 (by decide)).2 (by decide)

/-- The entry that a propagator left behind counts again once it is scheduled again: `0` is served
before `1`, which became scheduled earlier, even if `0` costs more now. -/
theorem Run.exists_served_early :
    (∃ q, Run .costOrdered q [(1, .binary), (0, .cubic)] ∧ q.pop.1 = some 0 ∧
      ¬ Agenda.First .costOrdered [(1, .binary), (0, .cubic)] 0) ∧
    (∃ q, Run .costOrdered q [(1, .binary), (0, .binary)] ∧ q.pop.1 = some 0 ∧
      ¬ Agenda.First .costOrdered [(1, .binary), (0, .binary)] 0) ∧
    ∃ q, Run .fifo q [(1, .binary), (0, .binary)] ∧ q.pop.1 = some 0 ∧
      ¬ Agenda.First .fifo [(1, .binary), (0, .binary)] 0 := by
  have hfresh (policy : Policy) : Run policy _ _ := .fresh
  have hrun (policy : Policy) (cost : Cost) := (hfresh policy).schedule 0 .binary
    |>.schedule 1 .binary |>.remove 0 |>.schedule 0 cost
  have hlate {cost : Cost} (hcost : Cost.binary.rank ≤ cost.rank) :
      ¬ Agenda.First .costOrdered [(1, .binary), (0, cost)] 0 := by
    rintro ⟨cost', before, after, heq, hbefore, -⟩
    have hmem : (0, cost') ∈ [(1, Cost.binary), (0, cost)] := by simp [heq]
    obtain rfl : cost' = cost := by simpa using hmem
    cases before with
    | nil => simp at heq
    | cons x before =>
      obtain ⟨rfl, -⟩ := List.cons.inj heq
      exact absurd (hbefore _ List.mem_cons_self) hcost.not_gt
  refine ⟨⟨_, hrun .costOrdered .cubic, by decide, hlate (by decide)⟩,
    ⟨_, hrun .costOrdered .binary, by decide, hlate (by decide)⟩,
    _, hrun .fifo .binary, by decide, ?_⟩
  rintro ⟨cost, after, heq⟩
  simp at heq

end Queue

end ConstraintSearch
