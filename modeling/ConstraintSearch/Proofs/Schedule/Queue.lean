import Mathlib.Data.Finset.Card
import ConstraintSearch.Schedule.Queue

/-!
# The law of the propagator queue

In a valid queue the counter is the number of scheduled propagators, and every scheduled propagator
has an entry in the line. Serving takes one entry out of the line, so that `Queue.pop` finds a
scheduled propagator if there is one.

* `Valid.schedule`, `Valid.remove`, `Valid.clear`: the operations keep a queue valid;
* `Serves` is one entry that is served, whatever a random order draws, and `Pops` what serving comes
  to: `Valid.pops` says that `Queue.pop` serves so;
* `Served` is what one entry less leaves of a queue;
* `Valid.pop`: nothing is scheduled when nothing is served, and otherwise the propagator that is
  served was scheduled, and the others stay so;
* `pop_of_pop_none`: a queue, valid or not, from which nothing was served stays as it is.
-/

namespace ConstraintSearch

namespace Lane

/-- Serving a position takes one entry out of the line. -/
theorem mem_of_take? {l l' : Lane} {position entry : Nat}
    (h : l.take? position = some (entry, l')) :
    (∀ m ∈ l.toList, m = entry ∨ m ∈ l'.toList) ∧ l'.size + 1 = l.size := by
  unfold take? at h
  split at h
  · rename_i hlt
    obtain ⟨rfl, rfl⟩ := Prod.mk.inj (Option.some.inj h)
    refine ⟨fun m hm => ?_, by simp only [size, Array.size_pop, Array.size_set]; omega⟩
    obtain ⟨i, hi, rfl⟩ := List.mem_iff_getElem.1 hm
    simp only [toList, List.length_drop, Array.length_toList] at hi
    simp only [toList, List.getElem_drop, Array.getElem_toList]
    by_cases hp : i = position
    · subst hp
      exact .inl rfl
    · refine .inr (List.mem_iff_getElem.2 ?_)
      -- The last entry has moved to `position`, the others are where they were.
      by_cases hlast : l.served + i = l.entries.size - 1
      · refine ⟨position, by simp; omega, ?_⟩
        simp [Array.back, hlast]
      · refine ⟨i, by simp; omega, ?_⟩
        simp only [List.getElem_drop, Array.getElem_toList, Array.getElem_pop]
        rw [Array.getElem_set_ne]
        omega
  · cases h

theorem take?_isSome {l : Lane} {position : Nat} (h : position < l.size) :
    (l.take? position).isSome := by
  unfold size at h
  unfold take?
  rw [dif_pos (by omega)]
  rfl

end Lane

namespace Queue

variable {q q' : Queue} {n : Nat}

theorem schedule_of_scheduled (h : q.isScheduled n = true) (cost : Cost) :
    q.schedule n cost = q := by
  unfold schedule
  rw [if_pos h]

theorem schedule_of_not_scheduled (h : q.isScheduled n = false) (cost : Cost) :
    q.schedule n cost =
      { q with
        lanes := q.lanes.modify (Order.lane q.order cost).rank (·.push n)
        scheduled := flag q.scheduled n true
        count := q.count + 1 } := by
  unfold schedule
  rw [if_neg (by simp [h])]

theorem remove_of_scheduled (h : q.isScheduled n = true) :
    q.remove n = { q with scheduled := flag q.scheduled n false, count := q.count - 1 } := by
  unfold remove
  rw [if_pos h]

theorem remove_of_not_scheduled (h : q.isScheduled n = false) : q.remove n = q := by
  unfold remove
  rw [if_neg (by simp [h])]

/-- The counter counts the scheduled propagators, each of which waits in a lane; the lanes that a
random order does not serve are empty. -/
structure Valid (q : Queue) : Prop where
  lanes_size : q.lanes.size = Cost.all.length
  pending : ∃ S : Finset Nat, S.card = q.count ∧ ∀ n, q.isScheduled n = true ↔ n ∈ S
  waits : ∀ n, q.isScheduled n = true → n ∈ q.line
  single : ∀ generator, q.order = .random generator →
    ∀ lane ∈ q.lanes.toList.tail, lane.toList = []

theorem Valid.ofPolicy (policy : Policy) : (Queue.ofPolicy policy).Valid where
  lanes_size := rfl
  pending := ⟨∅, rfl, fun n => by simp [Queue.ofPolicy, isScheduled, Table.get?]; rfl⟩
  waits n h := by cases h
  single _ _ lane hlane := by
    simp [Queue.ofPolicy, emptyLanes, Table.toList, Cost.all] at hlane
    rw [hlane]
    rfl

/-- The counter is zero if and only if nothing is scheduled. -/
theorem Valid.isEmpty_iff (h : q.Valid) :
    q.isEmpty = true ↔ ∀ n, q.isScheduled n = false := by
  obtain ⟨S, hcard, hS⟩ := h.pending
  unfold isEmpty
  rw [decide_eq_true_iff, ← hcard, Finset.card_eq_zero, Finset.eq_empty_iff_forall_notMem]
  simp only [← hS, Bool.not_eq_true]

/-- The propagators below a bound are at least as many as those that are scheduled, if all of these
are below it. -/
theorem Valid.count_le (h : q.Valid) {bound : Nat}
    (hlt : ∀ n, q.isScheduled n = true → n < bound) : q.count ≤ bound := by
  obtain ⟨S, hcard, hS⟩ := h.pending
  rw [← hcard, ← Finset.card_range bound]
  exact Finset.card_le_card fun n hn => Finset.mem_range.2 (hlt n ((hS n).2 hn))

/-- Joining a lane adds one entry to the line. -/
theorem mem_flatMap_modify_push {lanes : List Lane} {i : Nat} (h : i < lanes.length) (n m : Nat) :
    m ∈ (lanes.modify i (·.push n)).flatMap Lane.toList ↔
      m = n ∨ m ∈ lanes.flatMap Lane.toList := by
  induction lanes generalizing i with
  | nil => cases h
  | cons lane lanes ih =>
    cases i with
    | zero =>
      simp only [List.modify_zero_cons, List.flatMap_cons, Lane.toList_push, List.mem_append,
        List.mem_singleton]
      tauto
    | succ i =>
      simp only [List.modify_succ_cons, List.flatMap_cons, List.mem_append,
        ih (Nat.lt_of_succ_lt_succ h)]
      tauto

theorem Valid.schedule (h : q.Valid) (n : Nat) (cost : Cost) : (q.schedule n cost).Valid := by
  have hflags := isScheduled_schedule q n
  cases hn : q.isScheduled n with
  | true => rwa [schedule_of_scheduled hn]
  | false =>
    have heq := schedule_of_not_scheduled hn cost
    obtain ⟨S, hcard, hS⟩ := h.pending
    have hrank : (Order.lane q.order cost).rank < q.lanes.rows.toList.length := by
      have hsize := h.lanes_size
      simp only [Table.size] at hsize
      rw [Array.length_toList, hsize]
      cases Order.lane q.order cost <;> decide
    refine ⟨?_, ⟨insert n S, ?_, fun m => ?_⟩, fun m hm => ?_, fun g hg lane hlane => ?_⟩
    · rw [heq]
      simpa [Table.modify, Table.size] using h.lanes_size
    · rw [heq, Finset.card_insert_of_notMem, hcard]
      rw [← hS, hn]
      decide
    · rw [hflags]
      simp only [Bool.or_eq_true, decide_eq_true_iff, hS, Finset.mem_insert]
      tauto
    · rw [hflags] at hm
      simp only [Bool.or_eq_true, decide_eq_true_iff] at hm
      rw [heq]
      simp only [line, Table.toList, Table.modify, Array.toList_modify]
      exact (mem_flatMap_modify_push hrank n m).2 (hm.imp Eq.symm (h.waits m))
    · rw [heq] at hg hlane
      have hg : q.order = .random g := hg
      have hsingle := h.single g hg
      simp only [hg, Order.lane, Cost.rank, Table.toList, Table.modify,
        Array.toList_modify] at hlane
      apply hsingle
      revert hlane
      unfold Table.toList
      cases q.lanes.rows.toList with
      | nil => exact id
      | cons first rest => exact id

/-- The queue without `n` is valid, if each of the other propagators waits. -/
theorem Valid.remove_of (hsize : q.lanes.size = Cost.all.length)
    (hpending : ∃ S : Finset Nat, S.card = q.count ∧ ∀ n, q.isScheduled n = true ↔ n ∈ S)
    (hwaits : ∀ m ≠ n, q.isScheduled m = true → m ∈ q.line)
    (hsingle : ∀ generator, q.order = .random generator →
      ∀ lane ∈ q.lanes.toList.tail, lane.toList = []) : (q.remove n).Valid := by
  have hflags := isScheduled_remove q n
  cases hn : q.isScheduled n with
  | false =>
    rw [remove_of_not_scheduled hn]
    refine ⟨hsize, hpending, fun m hm => hwaits m ?_ hm, hsingle⟩
    rintro rfl
    rw [hn] at hm
    cases hm
  | true =>
    have heq := remove_of_scheduled hn
    obtain ⟨S, hcard, hS⟩ := hpending
    refine ⟨?_, ⟨S.erase n, ?_, fun m => ?_⟩, fun m hm => ?_, ?_⟩
    · rw [heq]
      exact hsize
    · rw [heq, Finset.card_erase_of_mem ((hS n).1 hn), hcard]
    · rw [hflags]
      simp only [Bool.and_eq_true, Bool.not_eq_true', decide_eq_false_iff_not, hS,
        Finset.mem_erase]
      tauto
    · rw [hflags] at hm
      simp only [Bool.and_eq_true, Bool.not_eq_true', decide_eq_false_iff_not] at hm
      rw [heq]
      exact hwaits m (Ne.symm hm.1) hm.2
    · rw [heq]
      exact hsingle

theorem Valid.remove (h : q.Valid) (n : Nat) : (q.remove n).Valid :=
  Valid.remove_of h.lanes_size h.pending (fun m _ => h.waits m) h.single

theorem Valid.clear (h : q.Valid) : q.clear.Valid where
  lanes_size := by simpa [Queue.clear, Table.size] using h.lanes_size
  pending := ⟨∅, rfl, fun n => by simp [isScheduled_clear]⟩
  waits n hn := by
    rw [isScheduled_clear] at hn
    cases hn
  single g _ lane hlane := by
    have hmem := List.mem_of_mem_tail hlane
    simp only [Queue.clear, Table.toList, Array.toList_map, List.mem_map] at hmem
    obtain ⟨_, _, rfl⟩ := hmem
    rfl

/-! ### Serving -/

theorem flatMap_of_serveFirst?_none {lanes : List Lane} (h : serveFirst? lanes = none) :
    lanes.flatMap Lane.toList = [] := by
  induction lanes with
  | nil => rfl
  | cons lane lanes ih =>
    unfold serveFirst? at h
    cases hp : lane.pop? with
    | some r => simp [hp] at h
    | none =>
      simp only [hp, Option.map_eq_none_iff] at h
      rw [List.flatMap_cons, Lane.pop?_eq_none.1 hp, ih h]
      rfl

theorem flatMap_of_serveFirst?_some {lanes lanes' : List Lane} {n : Nat}
    (h : serveFirst? lanes = some (n, lanes')) :
    lanes.flatMap Lane.toList = n :: lanes'.flatMap Lane.toList ∧
      lanes'.length = lanes.length := by
  induction lanes generalizing lanes' with
  | nil => cases h
  | cons lane lanes ih =>
    unfold serveFirst? at h
    cases hp : lane.pop? with
    | some r =>
      obtain ⟨entry, lane'⟩ := r
      simp only [hp, Option.some.injEq, Prod.mk.injEq] at h
      obtain ⟨rfl, rfl⟩ := h
      simp [Lane.toList_of_pop? hp]
    | none =>
      simp only [hp, Option.map_eq_some_iff, Prod.mk.injEq] at h
      obtain ⟨⟨entry, rest⟩, hrest, rfl, rfl⟩ := h
      obtain ⟨hflat, hlength⟩ := ih hrest
      rw [List.flatMap_cons, List.flatMap_cons, Lane.pop?_eq_none.1 hp, hflat]
      simp [hlength]

/-- The number of entries in the line. -/
theorem total_size (q : Queue) : total Lane.size q.lanes.toList = q.line.length := by
  unfold line
  induction q.lanes.toList with
  | nil => rfl
  | cons lane lanes ih =>
    rw [total_cons, ih, List.flatMap_cons, List.length_append, Lane.length_toList]

/-- What serving takes out of the line. -/
structure Served (q : Queue) (n : Nat) (q' : Queue) : Prop where
  lanes_size : q'.lanes.size = q.lanes.size
  scheduled : q'.scheduled = q.scheduled
  count : q'.count = q.count
  line : ∀ m ∈ q.line, m = n ∨ m ∈ q'.line
  length : q'.line.length + 1 = q.line.length
  single : ∀ generator, q'.order = .random generator →
    ∀ lane ∈ q'.lanes.toList.tail, lane.toList = []

/-- A lane that is served alone is the first one, with the other ones empty. -/
theorem Valid.line_of_random (h : q.Valid) {generator : Generator}
    (horder : q.order = .random generator) : ∃ first rest, q.lanes.toList = first :: rest ∧
      q.line = first.toList ∧ (∀ lane ∈ rest, lane.toList = []) ∧
      q.lanes.get? Cost.unary.rank = some first := by
  have hsize := h.lanes_size
  have hsingle := h.single generator horder
  unfold Queue.line
  simp only [Table.size, Table.toList, Table.get?, Cost.rank] at hsize hsingle ⊢
  cases hrows : q.lanes.rows.toList with
  | nil =>
    rw [← Array.length_toList, hrows] at hsize
    cases hsize
  | cons first rest =>
    rw [hrows] at hsingle
    have hrest : ∀ lane ∈ rest, lane.toList = [] := hsingle
    refine ⟨first, rest, rfl, ?_, hrest, ?_⟩
    · rw [List.flatMap_cons, List.flatMap_eq_nil_iff.2 hrest, List.append_nil]
    · rw [← Array.getElem?_toList, hrows]
      rfl

theorem Valid.serve?_none (h : q.Valid) (hq : q.serve? = none) : q.line = [] := by
  unfold serve? at hq
  cases horder : q.order with
  | random generator =>
    obtain ⟨first, rest, hlanes, hline, -, hfirst⟩ := h.line_of_random horder
    simp only [horder, hfirst, Option.getD_some, Option.map_eq_none_iff] at hq
    rw [hline]
    refine List.eq_nil_of_length_eq_zero ?_
    rw [Lane.length_toList]
    by_contra hne
    have hsome := Lane.take?_isSome (Generator.below_lt (Nat.pos_of_ne_zero hne) generator)
    rw [hq] at hsome
    cases hsome
  | costOrdered =>
    simp only [horder, Option.map_eq_none_iff] at hq
    exact flatMap_of_serveFirst?_none hq
  | fifo =>
    simp only [horder, Option.map_eq_none_iff] at hq
    exact flatMap_of_serveFirst?_none hq

theorem served_of_serveFirst? {lanes : List Lane} (hnot : ∀ generator, q.order ≠ .random generator)
    (h : serveFirst? q.lanes.toList = some (n, lanes)) :
    q.Served n { q with lanes := ⟨lanes.toArray⟩ } := by
  obtain ⟨hflat, hlength⟩ := flatMap_of_serveFirst?_some h
  have hline : q.line = n :: line { q with lanes := ⟨lanes.toArray⟩ } := hflat
  refine ⟨?_, rfl, rfl, fun m hm => ?_, ?_, fun g hg => absurd hg (hnot g)⟩
  · simpa [Table.size, Table.toList] using hlength
  · rw [hline] at hm
    exact List.mem_cons.1 hm
  · rw [hline, List.length_cons]

/-- The entry `n` may be served next, and `q'` is left: it is the first one of the first lane that
is not empty, or it stands anywhere in the lane that a random order serves, whatever is drawn
there. -/
inductive Serves (q : Queue) : Nat → Queue → Prop
  | first {n : Nat} {lanes : List Lane} (horder : ∀ generator, q.order ≠ .random generator)
      (h : serveFirst? q.lanes.toList = some (n, lanes)) :
      Serves q n { q with lanes := ⟨lanes.toArray⟩ }
  | drawn {generator generator' : Generator} {lane lane' : Lane} {position n : Nat}
      (horder : q.order = .random generator) (hlane : q.lanes.get? Cost.unary.rank = some lane)
      (h : lane.take? position = some (n, lane')) :
      Serves q n
        { q with lanes := q.lanes.set Cost.unary.rank lane', order := .random generator' }

theorem Valid.serves_of_serve? (h : q.Valid) (hq : q.serve? = some (n, q')) : q.Serves n q' := by
  unfold serve? at hq
  cases horder : q.order with
  | random generator =>
    obtain ⟨first, -, -, -, -, hfirst⟩ := h.line_of_random horder
    simp only [horder, hfirst, Option.getD_some, Option.map_eq_some_iff, Prod.mk.injEq] at hq
    obtain ⟨⟨entry, lane⟩, htake, rfl, rfl⟩ := hq
    exact .drawn horder hfirst htake
  | costOrdered | fifo =>
    simp only [horder, Option.map_eq_some_iff, Prod.mk.injEq] at hq
    obtain ⟨⟨entry, lanes⟩, hserve, rfl, rfl⟩ := hq
    rw [← horder]
    exact .first (by simp [horder]) hserve

theorem Serves.served (h : q.Serves n q') (hq : q.Valid) : q.Served n q' := by
  cases h with
  | first horder hserve => exact served_of_serveFirst? horder hserve
  | @drawn generator generator' lane lane' position _ horder hlane htake =>
    obtain ⟨first, rest, hlanes, hline, hrest, hfirst⟩ := hq.line_of_random horder
    obtain rfl := Option.some.inj (hlane.symm.trans hfirst)
    obtain ⟨hmem, hsize⟩ := Lane.mem_of_take? htake
    have hlanes' : (q.lanes.set Cost.unary.rank lane').toList = lane' :: rest := by
      simp only [Table.toList] at hlanes
      simp only [Table.toList, Table.set, Array.toList_setIfInBounds, hlanes, Cost.rank]
      rfl
    have hflat : (lane' :: rest).flatMap Lane.toList = lane'.toList := by
      rw [List.flatMap_cons, List.flatMap_eq_nil_iff.2 hrest, List.append_nil]
    refine ⟨by simp, rfl, rfl, fun m hm => ?_, ?_, fun g _ l hl => ?_⟩
    · rw [hline] at hm
      show m = n ∨ m ∈ (q.lanes.set Cost.unary.rank lane').toList.flatMap Lane.toList
      rw [hlanes', hflat]
      exact hmem m hm
    · show ((q.lanes.set Cost.unary.rank lane').toList.flatMap Lane.toList).length + 1 = _
      rw [hlanes', hflat, hline, Lane.length_toList, Lane.length_toList]
      exact hsize
    · rw [hlanes'] at hl
      exact hrest l hl

/-- Once the propagator that is served is no longer scheduled, the queue is valid again. -/
theorem Served.valid_remove (h : q.Valid) (hserved : q.Served n q') : (q'.remove n).Valid := by
  have hflags (m : Nat) : q'.isScheduled m = q.isScheduled m := by
    unfold isScheduled
    rw [hserved.scheduled]
  refine Valid.remove_of (hserved.lanes_size.trans h.lanes_size) ?_ (fun m hm hscheduled => ?_)
    hserved.single
  · obtain ⟨S, hcard, hS⟩ := h.pending
    exact ⟨S, hcard.trans hserved.count.symm, fun m => by rw [hflags, hS]⟩
  · rw [hflags] at hscheduled
    exact (hserved.line m (h.waits m hscheduled)).resolve_left hm

/-- One turn of serving: something is scheduled, and the entry that is served belongs to a
propagator that is not. -/
def Passes (q q' : Queue) : Prop :=
  q.isEmpty = false ∧ ∃ n, q.Serves n q' ∧ q'.isScheduled n = false

/-- Entries are served until one belongs to a scheduled propagator, or nothing is scheduled. -/
inductive Pops : Queue → Option Nat → Queue → Prop
  | idle {q : Queue} (h : q.isEmpty = true) : Pops q none q
  | found {q q' : Queue} {n : Nat} (h : q.isEmpty = false) (hserves : q.Serves n q')
      (hn : q'.isScheduled n = true) : Pops q (some n) (q'.remove n)
  | passed {q q₁ q' : Queue} {outcome : Option Nat} (h : q.Passes q₁) (hpops : Pops q₁ outcome q') :
      Pops q outcome q'

theorem Served.isScheduled_eq (h : q.Served n q') (m : Nat) :
    q'.isScheduled m = q.isScheduled m := by
  unfold isScheduled
  rw [h.scheduled]

/-- If an entry is passed over, nothing but the line has changed. -/
theorem Passes.exists_served (h : q.Passes q') (hq : q.Valid) : q'.Valid ∧ ∃ n, q.Served n q' := by
  obtain ⟨-, n, hserves, hn⟩ := h
  have hserved := hserves.served hq
  exact ⟨remove_of_not_scheduled hn ▸ hserved.valid_remove hq, n, hserved⟩

/-- While something is scheduled, there is an entry to serve. -/
theorem Valid.exists_serves (h : q.Valid) (hopen : q.isEmpty = false) : ∃ n q', q.Serves n q' := by
  cases hserve : q.serve? with
  | some r => exact ⟨r.1, r.2, h.serves_of_serve? hserve⟩
  | none =>
    have hline := h.serve?_none hserve
    have hempty : q.isEmpty = true := h.isEmpty_iff.2 fun n => by
      by_contra hn
      have := h.waits n (by simpa using hn)
      rw [hline] at this
      cases this
    rw [hopen] at hempty
    cases hempty

theorem Valid.pops_popWithin (h : q.Valid) {steps : Nat} (hsteps : q.line.length ≤ steps) :
    q.Pops (popWithin steps q).1 (popWithin steps q).2 := by
  induction steps generalizing q with
  | zero =>
    -- A queue without entries has nothing scheduled.
    refine .idle (by_contra fun hopen => ?_)
    obtain ⟨n, q', hserves⟩ := h.exists_serves (by simpa using hopen)
    have := (hserves.served h).length
    omega
  | succ steps ih =>
    unfold Queue.popWithin
    split
    · rename_i hempty
      exact .idle hempty
    · rename_i hopen
      replace hopen : q.isEmpty = false := by simpa using hopen
      cases hserve : q.serve? with
      | none =>
        obtain ⟨n, q', hserves⟩ := h.exists_serves hopen
        have := (hserves.served h).length
        rw [h.serve?_none hserve] at this
        cases this
      | some r =>
        obtain ⟨n, q'⟩ := r
        have hserves := h.serves_of_serve? hserve
        dsimp only
        cases hn : q'.isScheduled n with
        | true =>
          rw [if_pos rfl]
          exact .found hopen hserves hn
        | false =>
          rw [if_neg (by decide)]
          have hpasses : q.Passes q' := ⟨hopen, n, hserves, hn⟩
          have hlength := (hserves.served h).length
          exact .passed hpasses (ih (hpasses.exists_served h).1 (by omega))

/-- `Queue.pop` serves so. -/
theorem Valid.pops (h : q.Valid) : q.Pops q.pop.1 q.pop.2 :=
  h.pops_popWithin (by rw [total_size])

/-- What serving a queue comes to. -/
def Popped (q : Queue) : Option Nat × Queue → Prop
  | (none, q') => q'.Valid ∧ q'.scheduled = q.scheduled ∧ ∀ m, q.isScheduled m = false
  | (some n, q') => q'.Valid ∧ q.isScheduled n = true ∧ q'.count + 1 = q.count ∧
      ∀ m, q'.isScheduled m = (!decide (n = m) && q.isScheduled m)

theorem Pops.popped {outcome : Option Nat} (h : q.Pops outcome q') (hq : q.Valid) :
    q.Popped (outcome, q') := by
  induction h with
  | idle hempty => exact ⟨hq, rfl, hq.isEmpty_iff.1 hempty⟩
  | @found q q' n hopen hserves hn =>
    have hserved := hserves.served hq
    have hscheduled := (hserved.isScheduled_eq n).symm.trans hn
    refine ⟨hserved.valid_remove hq, hscheduled, ?_, fun m => ?_⟩
    · obtain ⟨S, hcard, hS⟩ := hq.pending
      have hpos := Finset.card_pos.2 ⟨n, (hS n).1 hscheduled⟩
      have hcount : (q'.remove n).count = q'.count - 1 := by rw [remove_of_scheduled hn]
      have := hserved.count
      omega
    · rw [isScheduled_remove, hserved.isScheduled_eq]
  | @passed q q₁ q' outcome hpasses _ ih =>
    obtain ⟨hvalid, n, hserved⟩ := hpasses.exists_served hq
    have hpopped := ih hvalid
    have hflags := hserved.isScheduled_eq
    cases outcome with
    | none =>
      obtain ⟨hv, hs, hall⟩ := hpopped
      exact ⟨hv, hs.trans hserved.scheduled, fun m => (hflags m).symm.trans (hall m)⟩
    | some k =>
      obtain ⟨hv, hk, hc, hall⟩ := hpopped
      exact ⟨hv, (hflags k).symm.trans hk, by have := hserved.count; omega,
        fun m => by rw [hall, hflags]⟩

theorem Valid.pop (h : q.Valid) : q.Popped q.pop := h.pops.popped h

/-! ### An idle queue -/

/-- Serving takes one entry out of the line. -/
theorem length_line_of_serve? (h : q.serve? = some (n, q')) :
    q'.line.length + 1 = q.line.length := by
  have hfirst {lanes : List Lane} (h : serveFirst? q.lanes.toList = some (n, lanes)) :
      (lanes.flatMap Lane.toList).length + 1 = q.line.length := by
    unfold line
    rw [(flatMap_of_serveFirst?_some h).1, List.length_cons]
  unfold serve? at h
  cases horder : q.order with
  | costOrdered | fifo =>
    simp only [horder, Option.map_eq_some_iff, Prod.mk.injEq] at h
    obtain ⟨⟨entry, lanes⟩, hserve, rfl, rfl⟩ := h
    exact hfirst hserve
  | random generator =>
    simp only [horder, Option.map_eq_some_iff, Prod.mk.injEq] at h
    obtain ⟨⟨entry, lane⟩, htake, rfl, rfl⟩ := h
    cases hlane : q.lanes.get? Cost.unary.rank with
    | none =>
      rw [hlane] at htake
      cases htake
    | some first =>
      rw [hlane] at htake
      have hsize := (Lane.mem_of_take? htake).2
      rw [← total_size, ← total_size]
      have hget : q.lanes.toList[Cost.unary.rank]? = some first := by
        rw [← hlane]
        exact Array.getElem?_toList
      have hset := total_set Lane.size lane hget
      have hlanes : (q.lanes.set Cost.unary.rank lane).toList =
          q.lanes.toList.set Cost.unary.rank lane := Array.toList_setIfInBounds
      show total Lane.size (q.lanes.set Cost.unary.rank lane).toList + 1 = _
      rw [hlanes]
      change lane.size + 1 = first.size at hsize
      omega

/-- A queue from which nothing was popped stays as it is. -/
theorem pop_of_popWithin_none {steps : Nat} (hsteps : q.line.length ≤ steps)
    (h : popWithin steps q = (none, q')) : q'.pop = (none, q') := by
  induction steps generalizing q with
  | zero =>
    cases h
    unfold pop
    rw [total_size, Nat.le_zero.1 hsteps]
    rfl
  | succ steps ih =>
    unfold popWithin at h
    have hself (hpop : ∀ n, popWithin (n + 1) q = (none, q)) : q.pop = (none, q) := by
      unfold pop
      cases total Lane.size q.lanes.toList with
      | zero => rfl
      | succ n => exact hpop n
    split at h
    · rename_i hempty
      cases h
      exact hself fun n => by rw [popWithin, if_pos hempty]
    · rename_i hempty
      cases hserve : q.serve? with
      | none =>
        rw [hserve] at h
        cases h
        exact hself fun n => by rw [popWithin, if_neg hempty, hserve]
      | some r =>
        obtain ⟨n, q₁⟩ := r
        rw [hserve] at h
        dsimp only at h
        split at h
        · cases h
        · have hlength := length_line_of_serve? hserve
          exact ih (by omega) h

theorem pop_of_pop_none (h : q.pop = (none, q')) : q'.pop = (none, q') :=
  pop_of_popWithin_none (total_size q).ge h

end Queue

end ConstraintSearch
