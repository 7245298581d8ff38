import ConstraintSearch.Proofs.Atomicity

/-!
# Who is woken by a change

An operation that narrows a variable reports one event, which wakes the subscribers of the variable
that hear of it. For integers these are exactly the ones that the change concerns, at each level. A
change of a set that leaves it open is told to the subscribers of its bounds only if the required
and the possible elements stay as they were, although the bounds of the cardinality may have moved.

* `IntDomain.Loses`, `SetDomain.Loses`: a change concerns the subscribers of a level;
  `SetDomain.Tells`: they hear of it;
* `State.Visited` are the states that spaces go through, within operations as well, and
  `State.Restricts` is one operation on an integer or a set;
* `State.Visited.wakes`: who is scheduled after an operation that has not failed;
* `Space.exists_bound_lost`: an operation that moves a bound of a set and wakes nobody.
-/

namespace ConstraintSearch

/-! ### Domains -/

namespace IntDomain

/-- The change from `d` to `d'` concerns the subscribers of a level. -/
def Loses (d d' : IntDomain) : Wake → Prop
  | .value => d.isAssigned = false ∧ d'.isAssigned = true
  | .bounds => d'.min ≠ d.min ∨ d'.max ≠ d.max
  | .domain => d' ≠ d

variable {a b c d d' : IntDomain} {w : Wake}

theorem not_loses_self (d : IntDomain) (w : Wake) : ¬ d.Loses d w := by
  cases w <;> simp [Loses]

/-- A domain with one value has no other domains within. -/
theorem Canonical.eq_of_le (hd : d.Canonical) (hd' : d'.Canonical) (hle : d' ≤ d)
    (ha : d.isAssigned = true) : d' = d := by
  refine le_antisymm hd' hd hle fun v hv => ?_
  rw [hd.eq_min_of_isAssigned ha hv, ← hd.eq_min_of_isAssigned ha (hle _ hd'.min_mem)]
  exact hd'.min_mem

/-- Of two changes in a row, one concerns a level if and only if both together do. -/
theorem loses_trans_iff (ha : a.Canonical) (hb : b.Canonical) (hc : c.Canonical) (hba : b ≤ a)
    (hcb : c ≤ b) : a.Loses c w ↔ a.Loses b w ∨ b.Loses c w := by
  have hminb := ha.min_le (hba _ hb.min_mem)
  have hminc := hb.min_le (hcb _ hc.min_mem)
  have hmaxb := ha.le_max (hba _ hb.max_mem)
  have hmaxc := hb.le_max (hcb _ hc.max_mem)
  cases w with
  | value =>
    have hle := hc.min_le_max
    simp only [Loses, ← Bool.not_eq_true, ha.isAssigned_iff, hb.isAssigned_iff, hc.isAssigned_iff]
    omega
  | bounds =>
    simp only [Loses]
    omega
  | domain =>
    simp only [Loses]
    constructor
    · intro hne
      by_contra h
      push Not at h
      exact hne (h.2.trans h.1)
    · rintro (hne | hne) rfl
      · exact hne (le_antisymm hb hc hba hcb)
      · exact hne (le_antisymm hc hb hcb hba)

/-- The event of a change is heard by the subscribers of a level if and only if it concerns them. -/
theorem triggeredBy_eventTowards (hd : d.Canonical) (hd' : d'.Canonical) (hle : d' ≤ d) :
    w.triggeredBy (d.eventTowards d') = true ↔ d.Loses d' w := by
  by_cases heq : d' = d
  · subst heq
    unfold eventTowards
    rw [if_pos rfl]
    exact iff_of_false (by cases w <;> simp [Wake.triggeredBy]) (not_loses_self d' w)
  have hsize : d'.size ≠ d.size := by
    intro hsize
    refine heq (le_antisymm hd' hd hle fun v hv => ?_)
    by_contra hv'
    exact absurd hsize (hd.size_lt hd' hle hv hv').ne
  unfold eventTowards
  rw [if_neg hsize]
  by_cases ha : d'.isAssigned = true
  · -- The last value is a change at every level.
    rw [if_pos ha]
    have hopen : ¬ d.isAssigned = true := fun h => heq (hd.eq_of_le hd' hle h)
    refine iff_of_true (by cases w <;> rfl) ?_
    cases w with
    | value => exact ⟨by simpa using hopen, ha⟩
    | bounds =>
      rw [hd.isAssigned_iff] at hopen
      have := hd'.isAssigned_iff.1 ha
      simp only [Loses]
      omega
    | domain => exact heq
  · rw [if_neg ha]
    split
    · rename_i hbounds
      cases w with
      | value => exact iff_of_false Bool.false_ne_true fun h => ha h.2
      | bounds => exact iff_of_true rfl hbounds
      | domain => exact iff_of_true rfl heq
    · rename_i hbounds
      cases w with
      | value => exact iff_of_false Bool.false_ne_true fun h => ha h.2
      | bounds => exact iff_of_false Bool.false_ne_true hbounds
      | domain => exact iff_of_true rfl heq

end IntDomain

namespace SetDomain

/-- The change from `d` to `d'` concerns the subscribers of a level. The bounds of a set are the
bounds of its cardinality. -/
def Loses (d d' : SetDomain) : Wake → Prop
  | .value => d.isAssigned = false ∧ d'.isAssigned = true
  | .bounds => d'.cardMin ≠ d.cardMin ∨ d'.cardMax ≠ d.cardMax
  | .domain => d' ≠ d

/-- The subscribers of a level hear of the change from `d` to `d'`. The subscribers of the bounds
do not hear of one that touches the elements, unless it closes the set. -/
def Tells (d d' : SetDomain) : Wake → Prop
  | .bounds => d' ≠ d ∧
      (d'.isAssigned = true ∨ d'.required = d.required ∧ d'.possible = d.possible)
  | w => d.Loses d' w

variable {d d' : SetDomain} {w : Wake}

theorem not_tells_self (d : SetDomain) (w : Wake) : ¬ d.Tells d w := by
  cases w <;> simp [Tells, Loses]

/-- A change that concerns the subscribers of a level is told to them, if it does not touch the
elements, or if they subscribe to something else than the bounds, or if it closes the set. -/
theorem Loses.tells (h : d.Loses d' w) (hw : w = .bounds → d'.isAssigned = true ∨
    d'.required = d.required ∧ d'.possible = d.possible) : d.Tells d' w := by
  cases w with
  | bounds =>
    refine ⟨?_, hw rfl⟩
    rintro rfl
    simp [Loses] at h
  | value | domain => exact h

/-- A domain with one set has no other domains within. -/
theorem Normal.eq_of_le (hd : d.Normal) (hd' : d'.Normal) (hle : d' ≤ d)
    (ha : d.isAssigned = true) : d' = d := by
  have heq := hd.isAssigned_iff.1 ha
  have hrequired : d.required = d'.required :=
    eq_of_subset_of_length_le hd.pairwise_required hd'.pairwise_required hle.1
      (length_le_of_subset hd'.pairwise_required fun v hv =>
        heq ▸ hle.2.1 (hd'.required_subset hv))
  have hpossible : d'.possible = d.possible :=
    eq_of_subset_of_length_le hd'.pairwise_possible hd.pairwise_possible hle.2.1
      (length_le_of_subset hd.pairwise_possible fun v hv =>
        hd'.required_subset (hle.1 (heq ▸ hv)))
  have ha' : d'.isAssigned = true := hd'.isAssigned_iff.2 (by rw [← hrequired, hpossible, heq])
  rw [hd'.eq_exactly ha', ← hrequired, ← hd.eq_exactly ha]

/-- The event of a change is heard by those whom the change is told to. -/
theorem triggeredBy_eventTowards (hd : d.Normal) (hd' : d'.Normal) (hle : d' ≤ d) :
    w.triggeredBy (d.eventTowards d') = true ↔ d.Tells d' w := by
  unfold eventTowards
  by_cases heq : d' = d
  · subst heq
    rw [if_pos rfl]
    exact iff_of_false (by cases w <;> simp [Wake.triggeredBy]) (not_tells_self d' w)
  rw [if_neg heq]
  by_cases ha : d'.isAssigned = true
  · rw [if_pos ha]
    have hopen : ¬ d.isAssigned = true := fun h => heq (hd.eq_of_le hd' hle h)
    refine iff_of_true (by cases w <;> rfl) ?_
    cases w with
    | value => exact ⟨by simpa using hopen, ha⟩
    | bounds => exact ⟨heq, .inl ha⟩
    | domain => exact heq
  · rw [if_neg ha]
    split
    · rename_i htouched
      cases w with
      | value => exact iff_of_false Bool.false_ne_true fun h => ha h.2
      | bounds =>
        refine iff_of_false Bool.false_ne_true ?_
        rintro ⟨-, h | ⟨hrequired, hpossible⟩⟩
        · exact ha h
        · exact htouched.elim (absurd hrequired) (absurd hpossible)
      | domain => exact iff_of_true rfl heq
    · rename_i hsame
      cases w with
      | value => exact iff_of_false Bool.false_ne_true fun h => ha h.2
      | bounds => exact iff_of_true rfl ⟨heq, .inr (by push Not at hsame; exact hsame)⟩
      | domain => exact iff_of_true rfl heq

end SetDomain

/-! ### Stores -/

namespace Store

/-- The subscribers of a level of `x` hear of the change from `s` to `s'`. -/
def Tells (s s' : Store) (x : VarRef) (w : Wake) : Prop :=
  match x with
  | .int i => (s.box.ints i).Loses (s'.box.ints i) w
  | .set i => (s.box.sets i).Tells (s'.box.sets i) w
  | .float _ => False

variable {s s' : Store} {x : VarRef} {i : Nat} {event : Event}

theorem not_tells_self (s : Store) (x : VarRef) (w : Wake) : ¬ s.Tells s x w := by
  cases x with
  | int i => exact IntDomain.not_loses_self _ w
  | set i => exact SetDomain.not_tells_self _ w
  | float i => exact id

theorem triggeredBy_none (s : Store) (x : VarRef) (w : Wake) :
    w.triggeredBy .none = true ↔ s.Tells s x w :=
  iff_of_false (by cases w <;> simp [Wake.triggeredBy]) (not_tells_self s x w)

theorem triggeredBy_of_narrowInt {narrowing : IntDomain → Narrowing IntDomain}
    {condition : IntDomain → Prop} (hs : s.Sound)
    (hn : ∀ d : IntDomain, d.Canonical →
      Narrowed IntDomain.Canonical condition IntDomain.size d (narrowing d))
    (h : s.narrowInt i narrowing = .ok (event, s')) (he : event.isFailed = false) (w : Wake) :
    w.triggeredBy event = true ↔ s.Tells s' (.int i) w := by
  obtain ⟨hi, ⟨rfl | rfl, rfl⟩ | ⟨d, hcase, rfl, rfl⟩⟩ := cases_of_narrowInt h
  · exact triggeredBy_none _ _ w
  · cases he
  · have hnarrowed := hn _ (hs.box.canonical i)
    rw [hcase] at hnarrowed
    obtain ⟨hcanonical, hle, -⟩ := hnarrowed
    simp only [Tells, box_set_int hi, if_pos]
    exact IntDomain.triggeredBy_eventTowards (hs.box.canonical i) hcanonical hle

theorem triggeredBy_of_narrowSet {narrowing : SetDomain → Narrowing SetDomain}
    {condition : SetDomain → Prop} (hs : s.Sound)
    (hn : ∀ d : SetDomain, d.Normal →
      Narrowed SetDomain.Normal condition SetDomain.freedom d (narrowing d))
    (h : s.narrowSet i narrowing = .ok (event, s')) (he : event.isFailed = false) (w : Wake) :
    w.triggeredBy event = true ↔ s.Tells s' (.set i) w := by
  obtain ⟨hi, ⟨rfl | rfl, rfl⟩ | ⟨d, hcase, rfl, rfl⟩⟩ := cases_of_narrowSet h
  · exact triggeredBy_none _ _ w
  · cases he
  · have hnarrowed := hn _ (hs.box.normal i)
    rw [hcase] at hnarrowed
    obtain ⟨hnormal, hle, -⟩ := hnarrowed
    simp only [Tells, box_set_set hi, if_pos]
    exact SetDomain.triggeredBy_eventTowards (hs.box.normal i) hnormal hle

end Store

theorem IntVar.triggeredBy_of_restrict {x : IntVar} {relation : Relation} {v : Int} {s s' : Store}
    {event : Event} (hs : s.Sound) (h : x.restrict relation v s = .ok (event, s'))
    (he : event.isFailed = false) (w : Wake) :
    w.triggeredBy event = true ↔ s.Tells s' x.ref w := by
  obtain ⟨pulled, hpulled, h⟩ := Yields.exists_of_bind h
  have hmeans := ((yields_pull (.inr trivial) relation v : Yields True _ _).of_ok hpulled).1
  cases pulled with
  | never =>
    cases h
    cases he
  | always =>
    cases h
    exact Store.triggeredBy_none s _ w
  | root i relation' u =>
    obtain ⟨rfl, -⟩ := hmeans
    exact Store.triggeredBy_of_narrowInt hs (fun d hd => hd.restrict relation' u) h he w

/-! ### States -/

namespace State

variable {s s' s'' : State} {x : VarRef} {event : Event}

/-- From `s` to `s'`, the change of `x` was told to its subscribers, who are scheduled now, and
nobody else was woken. -/
structure Rouses (s : State) (x : VarRef) (s' : State) : Prop where
  sound : s'.store.Sound
  evolves : s.store.Evolves s'.store
  watches : s'.watches = s.watches
  isScheduled_iff : ∀ n, s'.queue.isScheduled n = true ↔ s.queue.isScheduled n = true ∨
    ∃ sub ∈ s.watches.watchers x, sub.propagator = n ∧ s.store.Tells s'.store x sub.wake

theorem Rouses.refl (hs : s.store.Sound) (x : VarRef) : s.Rouses x s := by
  refine ⟨hs, .refl _, rfl, fun n => (or_iff_left ?_).symm⟩
  rintro ⟨sub, -, -, htells⟩
  exact Store.not_tells_self _ x sub.wake htells

/-- One narrowing whose event says what it does. -/
theorem rouses_of_narrow {operation : Store → Except Fault (Event × Store)}
    (h : s.narrow x operation = .ok (event, s')) (he : event.isFailed = false)
    (hs : s.store.Sound) (hdescends : s.Descends s')
    (ho : ∀ store, operation s.store = .ok (event, store) →
      ∀ w : Wake, w.triggeredBy event = true ↔ s.store.Tells store x w) :
    s.Rouses x s' := by
  rcases cases_of_narrow h with ⟨-, rfl, -⟩ | ⟨-, store, hstore, rfl⟩
  · cases he
  have htells := ho store hstore
  obtain ⟨queue, heq⟩ := notify_eq { s with store } x he
  obtain ⟨hsound, hevolves⟩ := hdescends.declines hs
  refine ⟨hsound, hevolves, ?_, fun n => ?_⟩
  · rw [heq]
  · have hstore' : ({ s with store }.notify x event).store = store := by rw [heq]
    simp only [hstore', ← htells]
    unfold notify
    rw [he, if_neg Bool.false_ne_true]
    cases hm : event.isModified with
    | true =>
      rw [if_pos rfl, (woken { s with store } x event).scheduled]
      simp only [Array.mem_toList_iff]
    | false =>
      rw [if_neg Bool.false_ne_true]
      refine (or_iff_left ?_).symm
      rintro ⟨sub, -, -, ht⟩
      rw [Wake.isModified_of_triggeredBy ht] at hm
      cases hm

/-- Changes of an integer that are told one after the other are told together. -/
theorem Rouses.trans {i : Nat} (h : s.Rouses (.int i) s') (h' : s'.Rouses (.int i) s'')
    (hs : s.store.Sound) (hi : i < s.store.ints.size) : s.Rouses (.int i) s'' := by
  refine ⟨h'.sound, h.evolves.trans h'.evolves, h'.watches.trans h.watches, fun n => ?_⟩
  have htells (w : Wake) : s.store.Tells s''.store (.int i) w ↔
      s.store.Tells s'.store (.int i) w ∨ s'.store.Tells s''.store (.int i) w :=
    IntDomain.loses_trans_iff (hs.box.canonical i) (h.sound.box.canonical i)
      (h'.sound.box.canonical i) (h.evolves.within.ints i hi)
      (h'.evolves.within.ints i (hi.trans_le h.evolves.size_ints))
  rw [h'.isScheduled_iff, h.isScheduled_iff, h.watches, or_assoc]
  simp only [htells, and_or_left, exists_or]

theorem rouses_of_restrict {x : IntVar} {relation : Relation} {v : Int} (hs : s.store.Sound)
    (h : s.restrict x relation v = .ok (event, s')) (he : event.isFailed = false) :
    s.Rouses x.ref s' :=
  rouses_of_narrow h he hs (Step.restrict h).descends fun _ hstore =>
    IntVar.triggeredBy_of_restrict hs hstore he

theorem rouses_of_narrowSet {i : Nat} {narrowing : SetDomain → Narrowing SetDomain}
    {condition : SetDomain → Prop} (hs : s.store.Sound)
    (hn : ∀ d : SetDomain, d.Normal →
      Narrowed SetDomain.Normal condition SetDomain.freedom d (narrowing d))
    (h : s.narrowSet i narrowing = .ok (event, s')) (he : event.isFailed = false) :
    s.Rouses (.set i) s' :=
  rouses_of_narrow h he hs (Step.narrowSet hn h).descends fun _ hstore =>
    Store.triggeredBy_of_narrowSet hs hn hstore he

/-- Values that are removed one after the other, each with an event of its own. -/
theorem rouses_of_removeAll {x : IntVar} (hs : s.store.Sound) (hx : x.index < s.store.ints.size)
    (vs : List Int) {strongest : Event}
    (h : Propagation.removeAll x vs strongest s = .ok (.ok event, s')) : s.Rouses x.ref s' := by
  induction vs generalizing s strongest with
  | nil =>
    cases h
    exact .refl hs _
  | cons v vs ih =>
    unfold Propagation.removeAll at h
    rw [List.foldlM_cons, bind_assoc, Propagation.bind_apply] at h
    obtain ⟨r, hr, h⟩ := Yields.exists_of_bind h
    obtain ⟨⟨removed, s₁⟩, hrestrict, hr⟩ := Yields.exists_of_bind hr
    cases hr
    cases he : removed.isFailed with
    | true =>
      rw [he] at h
      cases h
    | false =>
      rw [he] at h
      have hrouses := rouses_of_restrict hs hrestrict he
      exact hrouses.trans (ih hrouses.sound (hx.trans_le hrouses.evolves.size_ints) h) hs hx

/-! ### Operations -/

/-- The states that spaces go through: those that operations of clients lead to, and those between
the narrowings of which such an operation is made, whatever is scheduled there and whoever has
subscribed to what. -/
inductive Visited : State → Prop
  | reached {s : Space} (h : s.Reachable fun _ _ => True) : Visited s.state
  | narrowed {s s' : State} (h : Visited s) (hstep : s.Step s') : Visited s'
  | arranged {s s' : State} (h : Visited s) (hstore : s'.store = s.store) : Visited s'

theorem Visited.sound (h : s.Visited) : s.store.Sound := by
  induction h with
  | reached h => exact h.in_order.1
  | narrowed _ hstep ih => exact (hstep.descends.declines ih).1
  | arranged _ hstore ih => rwa [hstore]

/-- One operation narrows an integer variable or a set variable, and reports the event. -/
inductive Restricts (s : State) : VarRef → Event → State → Prop
  | restrict {x : IntVar} {relation : Relation} {v : Int} {event : Event} {s' : State}
      (h : s.restrict x relation v = .ok (event, s')) : Restricts s x.ref event s'
  | restrictTo {x : IntVar} {values : List Int} {event : Event} {s' : State}
      (h : Propagation.restrictTo x values s = .ok (.ok event, s')) : Restricts s x.ref event s'
  | includeElement {set : Nat} {v : Int} {event : Event} {s' : State}
      (h : s.narrowSet set (·.including v) = .ok (event, s')) : Restricts s (.set set) event s'
  | excludeElement {set : Nat} {v : Int} {event : Event} {s' : State}
      (h : s.narrowSet set (·.excluding v) = .ok (event, s')) : Restricts s (.set set) event s'
  | boundCardinality {set least greatest : Nat} {event : Event} {s' : State}
      (h : s.narrowSet set (·.withCardinality least greatest) = .ok (event, s')) :
      Restricts s (.set set) event s'

theorem Restricts.rouses (h : s.Restricts x event s') (hs : s.store.Sound)
    (he : event.isFailed = false) : s.Rouses x s' := by
  cases h with
  | restrict h => exact rouses_of_restrict hs h he
  | restrictTo h =>
    obtain ⟨hx, hremove⟩ := Propagation.restrictTo_apply h
    exact rouses_of_removeAll hs hx _ hremove
  | includeElement h => exact rouses_of_narrowSet hs (fun _ hd => hd.including _) h he
  | excludeElement h => exact rouses_of_narrowSet hs (fun _ hd => hd.excluding _) h he
  | boundCardinality h => exact rouses_of_narrowSet hs (fun _ hd => hd.withCardinality _ _) h he

/-- **Who is woken by a change.** An operation on an integer or a set that has not failed leaves
scheduled whoever was, and of the others exactly the subscribers that hear of the change. These are
all whom it concerns, but for the subscribers of the bounds of a set whose elements were touched,
unless the set is closed. -/
theorem Visited.wakes (h : s.Visited) (hr : s.Restricts x event s') (he : event.isFailed = false) :
    (∀ n, s'.queue.isScheduled n = true ↔ s.queue.isScheduled n = true ∨
      ∃ sub ∈ s.watches.watchers x, sub.propagator = n ∧ s.store.Tells s'.store x sub.wake) ∧
    (∀ i, x = .int i → ∀ sub ∈ s.watches.watchers x,
      (s.store.box.ints i).Loses (s'.store.box.ints i) sub.wake →
        s'.queue.isScheduled sub.propagator = true) ∧
    ∀ i, x = .set i → ∀ sub ∈ s.watches.watchers x,
      (s.store.box.sets i).Loses (s'.store.box.sets i) sub.wake →
      (sub.wake = .bounds → (s'.store.box.sets i).isAssigned = true ∨
        (s'.store.box.sets i).required = (s.store.box.sets i).required ∧
        (s'.store.box.sets i).possible = (s.store.box.sets i).possible) →
      s'.queue.isScheduled sub.propagator = true := by
  have hiff := (hr.rouses h.sound he).isScheduled_iff
  refine ⟨hiff, ?_, ?_⟩
  · rintro i rfl sub hsub hloses
    exact (hiff _).2 (.inr ⟨sub, hsub, rfl, hloses⟩)
  · rintro i rfl sub hsub hloses hbounds
    exact (hiff _).2 (.inr ⟨sub, hsub, rfl, hloses.tells hbounds⟩)

end State

namespace Space

variable {s s' : Space} {event : Event}

/-- The integer or the set that an operation of a client narrows. -/
def Operation.restricted? : Operation → Option VarRef
  | restrict x _ _ | restrictBelow x _ | restrictAbove x _ | restrictTo x _ => some x.ref
  | includeElement set _ | excludeElement set _ | boundCardinality set _ _ => some (.set set)
  | _ => none

theorem Operation.Reports.restricts {o : Operation} {x : VarRef} (h : o.Reports s event s')
    (he : event.isFailed = false) (hx : o.restricted? = some x) :
    s.state.Restricts x event s'.state := by
  have hrestrict {y : IntVar} {relation : Relation} {v : Int}
      (h : s.restrict y relation v = .ok (event, s')) :
      s.state.Restricts y.ref event s'.state := by
    obtain ⟨⟨event', state⟩, hstate, h⟩ := Yields.exists_of_bind h
    cases h
    exact .restrict hstate
  cases o with
  | restrict y relation v =>
    cases hx
    exact hrestrict h
  | restrictBelow y v =>
    cases hx
    change s.restrictBelow y v = .ok (event, s') at h
    unfold Space.restrictBelow at h
    split at h
    · exact hrestrict h
    · cases h
      cases he
  | restrictAbove y v =>
    cases hx
    change s.restrictAbove y v = .ok (event, s') at h
    unfold Space.restrictAbove at h
    split at h
    · exact hrestrict h
    · cases h
      cases he
  | restrictTo y values =>
    cases hx
    obtain ⟨⟨outcome, state⟩, hrun, h⟩ := Yields.exists_of_bind h
    cases outcome with
    | ok event' =>
      cases h
      exact .restrictTo hrun
    | error i =>
      cases h
      cases he
  | includeElement set v =>
    cases hx
    obtain ⟨⟨event', state⟩, hstate, h⟩ := Yields.exists_of_bind h
    cases h
    exact .includeElement hstate
  | excludeElement set v =>
    cases hx
    obtain ⟨⟨event', state⟩, hstate, h⟩ := Yields.exists_of_bind h
    cases h
    exact .excludeElement hstate
  | boundCardinality set least greatest =>
    cases hx
    obtain ⟨⟨event', state⟩, hstate, h⟩ := Yields.exists_of_bind h
    cases h
    exact .boundCardinality hstate
  | _ => cases hx

/-- A view with the values -1, -2 and -3 is asked for the last two: the bound of its variable moves,
and the propagator that watches the bounds runs again. -/
theorem wakes_bound_of_view :
    ∃ s s' : Space, s.Reachable (fun _ _ => True) ∧
      s.restrictTo (.affine (.root 0) (-1) 0) [-2, -3] = .ok (.bounds, s') ∧
      (s.store.box.ints 0).min ≠ (s'.store.box.ints 0).min ∧
      s.state.queue.isScheduled 0 = false ∧ s'.state.queue.isScheduled 0 = true := by
  have hrun : ((ofPolicy .costOrdered).performAll? (fun _ _ => true)
      [.newInt 1 3, .newInt 0 5, .post (.lessOrEqual (.root 0) (.root 1) 0), .status]).any (fun s =>
        (s.restrictTo (.affine (.root 0) (-1) 0) [-2, -3]).toOption.any fun r =>
          decide (r.1 = .bounds ∧ (s.store.box.ints 0).min ≠ (r.2.store.box.ints 0).min ∧
            s.state.queue.isScheduled 0 = false ∧
            ⟨0, .bounds⟩ ∈ s.state.watches.watchers (.int 0))) = true := by
    decide +kernel
  obtain ⟨s, hs, hrun⟩ := (Option.any_eq_true ..).1 hrun
  obtain ⟨⟨event, s'⟩, hr, hrun⟩ := (Option.any_eq_true ..).1 hrun
  obtain ⟨rfl, hmin, hidle, hsub⟩ := of_decide_eq_true hrun
  have hreachable : s.Reachable fun _ _ => True :=
    (Reachable.empty .costOrdered).performAll? (fun _ _ _ => trivial) hs
  have hreports : (Operation.restrictTo (.affine (.root 0) (-1) 0) [-2, -3]).Reports s .bounds s' :=
    ok_of_toOption hr
  refine ⟨s, s', hreachable, hreports, hmin, hidle, ?_⟩
  have hwakes := (State.Visited.reached hreachable).wakes (hreports.restricts rfl rfl) rfl
  exact hwakes.2.1 0 rfl _ hsub (.inl hmin.symm)

/-- An element is included in a set, which then has at least one element. The propagator that
watches the bounds of the set does not run again. -/
theorem exists_bound_lost :
    ∃ s s' : Space, s.Reachable (fun _ _ => True) ∧
      s.narrowSet 0 (·.including 1) = .ok (.domain, s') ∧
      (∃ d d', s.store.set 0 = .ok d ∧ s'.store.set 0 = .ok d' ∧ d'.cardMin ≠ d.cardMin) ∧
      ∃ sub ∈ s.state.watches.watchers (.set 0), sub.wake = .bounds ∧
        s'.state.queue.isScheduled sub.propagator = false := by
  have hrun : ((ofPolicy .costOrdered).performAll? (fun _ _ => true)
      [.newSet [] [1, 2, 3] 0 3,
        .post (.scripted (.mk "watcher" .unary [(.ok (.set 0), .bounds)] []) 0), .status]).any
      (fun s => (s.narrowSet 0 (·.including 1)).toOption.any fun r =>
        decide (r.1 = .domain ∧ ((s.store.set 0).toOption.any fun d =>
            (r.2.store.set 0).toOption.any fun d' => d'.cardMin ≠ d.cardMin) ∧
          ⟨0, .bounds⟩ ∈ s.state.watches.watchers (.set 0) ∧
          r.2.state.queue.isScheduled 0 = false)) = true := by
    decide +kernel
  obtain ⟨s, hs, hrun⟩ := (Option.any_eq_true ..).1 hrun
  obtain ⟨⟨event, s'⟩, hr, hrun⟩ := (Option.any_eq_true ..).1 hrun
  obtain ⟨rfl, hcard, hsub, hidle⟩ := of_decide_eq_true hrun
  obtain ⟨d, hd, hcard⟩ := (Option.any_eq_true ..).1 hcard
  obtain ⟨d', hd', hcard⟩ := (Option.any_eq_true ..).1 hcard
  exact ⟨s, s', (Reachable.empty .costOrdered).performAll? (fun _ _ _ => trivial) hs,
    ok_of_toOption hr, ⟨d, d', ok_of_toOption hd, ok_of_toOption hd', of_decide_eq_true hcard⟩,
    _, hsub, rfl, hidle⟩

end Space

end ConstraintSearch
