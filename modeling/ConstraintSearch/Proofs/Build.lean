import ConstraintSearch.Proofs.Space
import ConstraintSearch.Proofs.Posting

/-!
# Building spaces

A space is built by creating variables, narrowing them, posting constraints and adding branchers,
in any order, and it may be propagated in between. The steps are data, so that one model can be
built under several policies.

* `Statement`, `Statement.Runs`: a step of a construction, which does not fail;
* `Built policy statements s`: the space `s` is the result of the statements;
* `build?` evaluates a construction;
* `Built.tracks`: the slots of what was built do the work of the constraints that were posted.
-/

namespace ConstraintSearch

/-- A step in the construction of a space. -/
inductive Statement
  | newInt (lower upper : Int)
  | newIntOfValues (values : List Int)
  | newBool
  | newSet (required possible : List Int) (cardMin cardMax : Nat)
  | restrict (x : IntVar) (relation : Relation) (v : Int)
  | includeElement (set : Nat) (v : Int)
  | excludeElement (set : Nat) (v : Int)
  | boundCardinality (set : Nat) (least greatest : Nat)
  | post (c : Posting)
  | branch (b : Brancher)
  /-- Propagate. -/
  | status

namespace Statement

/-- The step leads from `s` to `s'`. Values of variables are 32-bit integers, variables that are
named exist, and the construction does not go on in a failed space. -/
def Runs (s s' : Space) : Statement → Prop
  | newInt lower upper =>
      Word.Fits lower ∧ Word.Fits upper ∧ ∃ x, s.newInt lower upper = .ok (.ok (x, s'))
  | newIntOfValues values =>
      (∀ v ∈ values, Word.Fits v) ∧ ∃ x, s.newIntOfValues values = .ok (.ok (x, s'))
  | newBool => s' = s.newBool.2
  | newSet required possible cardMin cardMax =>
      ∃ x, s.newSet required possible cardMin cardMax = .ok (.ok (x, s'))
  | restrict x relation v =>
      x.index < s.store.ints.size ∧ s'.isFailed = false ∧
        ∃ event, s.restrict x relation v = .ok (event, s')
  | includeElement set v =>
      set < s.store.sets.size ∧ s'.isFailed = false ∧
        ∃ event, s.narrowSet set (·.including v) = .ok (event, s')
  | excludeElement set v =>
      set < s.store.sets.size ∧ s'.isFailed = false ∧
        ∃ event, s.narrowSet set (·.excluding v) = .ok (event, s')
  | boundCardinality set least greatest =>
      set < s.store.sets.size ∧ s'.isFailed = false ∧
        ∃ event, s.narrowSet set (·.withCardinality least greatest) = .ok (event, s')
  | post c => c.ExistsIn s.store ∧ ∃ n, c.post s = .ok (.ok (n, s'))
  | branch b => s' = (s.branch b).2
  | status => s'.isFailed = false ∧ ∃ status, s.status.Returns (status, s')

/-- The constraint that is posted, if one is. -/
def posting? : Statement → Option Posting
  | post c => some c
  | _ => none

end Statement

/-- The constraints that are posted. -/
def postings (statements : List Statement) : List Posting := statements.filterMap (·.posting?)

/-- The space is the result of the statements. -/
inductive Built (policy : Policy) : List Statement → Space → Prop
  | empty : Built policy [] (Space.ofPolicy policy)
  | step {statements : List Statement} {s s' : Space} {t : Statement} :
      Built policy statements s → t.Runs s s' → Built policy (statements ++ [t]) s'

theorem Built.eq_of_nil {policy : Policy} {s : Space} (h : Built policy [] s) :
    s = Space.ofPolicy policy := by
  generalize hnil : ([] : List Statement) = statements at h
  cases h with
  | empty => rfl
  | step => simp at hnil

theorem Built.exists_of_append {policy : Policy} {statements : List Statement} {t : Statement}
    {s' : Space} (h : Built policy (statements ++ [t]) s') :
    ∃ s, Built policy statements s ∧ t.Runs s s' := by
  generalize hall : statements ++ [t] = all at h
  cases h with
  | empty => simp at hall
  | @step before s _ t' hs ht =>
    obtain ⟨rfl, ht'⟩ := List.append_inj' hall rfl
    cases ht'
    exact ⟨s, hs, ht⟩

/-! ### Evaluation -/

/-- The space that a request answers. -/
def granted? {α : Type} : Request (α × Space) → Option Space
  | .ok (.ok (_, s)) => some s
  | _ => none

/-- The space that a narrowing answers, unless it has failed. -/
def narrowed? : Except Fault (Event × Space) → Option Space
  | .ok (_, s) => if s.isFailed then none else some s
  | .error _ => none

theorem granted?_eq_some {α : Type} {request : Request (α × Space)} {s : Space}
    (h : granted? request = some s) : ∃ a, request = .ok (.ok (a, s)) := by
  rcases request with fault | error | ⟨a, s'⟩
  · cases h
  · cases h
  · cases h
    exact ⟨a, rfl⟩

theorem narrowed?_eq_some {r : Except Fault (Event × Space)} {s : Space}
    (h : narrowed? r = some s) : s.isFailed = false ∧ ∃ event, r = .ok (event, s) := by
  rcases r with fault | ⟨event, s'⟩
  · cases h
  · unfold narrowed? at h
    by_cases hfailed : s'.isFailed = true
    · simp [hfailed] at h
    · simp only [if_neg hfailed, Option.some.injEq] at h
      subst h
      exact ⟨by simpa using hfailed, event, rfl⟩

/-- The space with another set variable. -/
def Space.addSet (s : Space) (d : SetDomain) : Space :=
  { s with state := { s.state with
    store := { s.state.store with sets := s.state.store.sets.push d } } }

/-- The space after a statement, if it runs and names values in increasing order. -/
def Statement.run? (s : Space) : Statement → Option Space
  | newInt lower upper =>
      if Word.Fits lower ∧ Word.Fits upper then granted? (s.newInt lower upper) else none
  | newIntOfValues values =>
      if (∀ v ∈ values, Word.Fits v) ∧ values.Pairwise (· ≤ ·) then
        (IntDomain.ofRanges? (IntDomain.rangesOfSorted values)).map fun d => (s.addInt d).2
      else none
  | newBool => some s.newBool.2
  | newSet required possible cardMin cardMax =>
      if required.Pairwise (· < ·) ∧ possible.Pairwise (· < ·) ∧
          required.all (possible.contains ·) then
        (SetDomain.normalised ⟨required, possible, cardMin, cardMax⟩).map s.addSet
      else none
  | restrict x relation v =>
      if x.index < s.store.ints.size then narrowed? (s.restrict x relation v) else none
  | includeElement set v =>
      if set < s.store.sets.size then narrowed? (s.narrowSet set (·.including v)) else none
  | excludeElement set v =>
      if set < s.store.sets.size then narrowed? (s.narrowSet set (·.excluding v)) else none
  | boundCardinality set least greatest =>
      if set < s.store.sets.size then narrowed? (s.narrowSet set (·.withCardinality least greatest))
      else none
  | post c =>
      if (∀ x ∈ c.vars, x.index < s.store.ints.size) ∧ ∀ i ∈ c.sets, i < s.store.sets.size then
        granted? (c.post s)
      else none
  | branch b => some (s.branch b).2
  | status =>
      match (s.status #[]).1 with
      | .ok (_, s) => if s.isFailed then none else some s
      | .error _ => none

theorem Statement.runs_of_run? {s s' : Space} {t : Statement} (h : t.run? s = some s') :
    t.Runs s s' := by
  cases t with
  | newInt lower upper =>
    obtain ⟨hfits, h⟩ := Option.ite_none_right_eq_some.1 h
    exact ⟨hfits.1, hfits.2, granted?_eq_some h⟩
  | newIntOfValues values =>
    obtain ⟨hfits, h⟩ := Option.ite_none_right_eq_some.1 h
    obtain ⟨d, hd, rfl⟩ := Option.map_eq_some_iff.1 h
    refine ⟨hfits.1, s.store.ints.size, ?_⟩
    unfold Space.newIntOfValues
    rw [IntDomain.ofValues?_of_pairwise hfits.2, hd]
    rfl
  | newBool => exact (Option.some.inj h).symm
  | newSet required possible cardMin cardMax =>
    obtain ⟨hlists, h⟩ := Option.ite_none_right_eq_some.1 h
    obtain ⟨d, hd, rfl⟩ := Option.map_eq_some_iff.1 h
    refine ⟨s.store.sets.size, ?_⟩
    unfold Space.newSet
    rw [SetDomain.of?_of_pairwise hlists.1 hlists.2.1 hlists.2.2, hd]
    rfl
  | restrict x relation v =>
    obtain ⟨hx, h⟩ := Option.ite_none_right_eq_some.1 h
    exact ⟨hx, narrowed?_eq_some h⟩
  | includeElement set v | excludeElement set v | boundCardinality set least greatest =>
    obtain ⟨hset, h⟩ := Option.ite_none_right_eq_some.1 h
    exact ⟨hset, narrowed?_eq_some h⟩
  | post c =>
    obtain ⟨hc, h⟩ := Option.ite_none_right_eq_some.1 h
    exact ⟨⟨hc.1, hc.2⟩, granted?_eq_some h⟩
  | branch b => exact (Option.some.inj h).symm
  | status =>
    unfold run? at h
    cases hs : (s.status #[]).1 with
    | error fault =>
      rw [hs] at h
      cases h
    | ok r =>
      obtain ⟨status, s''⟩ := r
      rw [hs] at h
      by_cases hfailed : s''.isFailed = true
      · simp [hfailed] at h
      · simp only [if_neg hfailed, Option.some.injEq] at h
        subst h
        exact ⟨by simpa using hfailed, status, #[], hs⟩

/-- The result of the statements, if they run. -/
def build? (policy : Policy) (statements : List Statement) : Option Space :=
  statements.foldlM Statement.run? (Space.ofPolicy policy)

theorem built_of_build? {policy : Policy} {statements : List Statement} {s : Space}
    (h : build? policy statements = some s) : Built policy statements s := by
  induction statements using List.reverseRecOn generalizing s with
  | nil =>
    cases h
    exact .empty
  | append_singleton statements t ih =>
    unfold build? at h
    rw [List.foldlM_append, Option.bind_eq_bind, Option.bind_eq_some_iff] at h
    obtain ⟨s', hs', ht⟩ := h
    rw [List.foldlM_cons, Option.bind_eq_bind, Option.bind_eq_some_iff] at ht
    obtain ⟨s'', ht, hs⟩ := ht
    cases hs
    exact .step (ih hs') (Statement.runs_of_run? ht)

/-- Whether the statements run, and lead to a space with a property that can be evaluated. -/
def buildsTo (policy : Policy) (statements : List Statement) (property : Space → Bool) : Bool :=
  ((build? policy statements).map property).getD false

theorem exists_built_of_buildsTo {policy : Policy} {statements : List Statement}
    {property : Space → Bool} (h : buildsTo policy statements property = true) :
    ∃ s, Built policy statements s ∧ property s = true := by
  unfold buildsTo at h
  cases hs : build? policy statements with
  | none =>
    rw [hs] at h
    cases h
  | some s =>
    rw [hs] at h
    exact ⟨s, built_of_build? hs, h⟩

/-! ### New variables -/

variable {δ : Prop} {s s' : Space} {posted : List Propagator} {exempt : Option Nat}

namespace Store

variable {s : Store}

theorem box_push_int (s : Store) (d : IntDomain) (i : Nat) :
    (box { s with ints := s.ints.push d }).ints i =
      if i = s.ints.size then d else s.box.ints i := by
  have hpush : (s.ints.push d).get? i = if i = s.ints.size then some d else s.ints.get? i :=
    Array.getElem?_push
  simp only [box, hpush]
  split <;> rfl

theorem box_push_set (s : Store) (d : SetDomain) (i : Nat) :
    (box { s with sets := s.sets.push d }).sets i =
      if i = s.sets.size then d else s.box.sets i := by
  have hpush : (s.sets.push d).get? i = if i = s.sets.size then some d else s.sets.get? i :=
    Array.getElem?_push
  simp only [box, hpush]
  split <;> rfl

theorem sound_empty : Sound (∅ : Store) := by
  have hint (i : Nat) : (∅ : Store).box.ints i = IntDomain.singleton 0 := rfl
  have hset (i : Nat) : (∅ : Store).box.sets i = SetDomain.exactly [] := rfl
  refine ⟨⟨fun i => ?_, fun i => ?_⟩, fun i v hv => ?_⟩
  · rw [hint]
    exact IntDomain.canonical_singleton 0
  · rw [hset]
    exact SetDomain.normal_exactly List.Pairwise.nil
  · rw [hint, IntDomain.mem_singleton] at hv
    rw [hv]
    decide

/-- From `s` to `s'`, variables were added, and nothing else has changed. -/
structure Extends (s s' : Store) : Prop where
  size_ints : s.ints.size ≤ s'.ints.size
  size_sets : s.sets.size ≤ s'.sets.size
  ints : ∀ i < s.ints.size, s'.box.ints i = s.box.ints i
  sets : ∀ i < s.sets.size, s'.box.sets i = s.box.sets i

theorem Extends.evolves {s' : Store} (h : s.Extends s') : s.Evolves s' := by
  refine ⟨h.size_ints, h.size_sets, fun i hi => ?_, fun i hi => ?_⟩
  · rw [h.ints i hi]
    exact IntDomain.le_refl _
  · rw [h.sets i hi]
    exact SetDomain.le_refl _

theorem Extends.keeps {s' : Store} (h : s.Extends s') {x : VarRef} (hx : s.Has x) (w : Wake) :
    s.Keeps s' x w := by
  cases x with
  | int i =>
    rw [keeps_int, h.ints i hx]
    exact IntDomain.Keeps.refl _ w
  | set i =>
    rw [keeps_set, h.sets i hx]
    exact SetDomain.Keeps.refl _ w
  | float i => trivial

theorem extends_push_int (s : Store) (d : IntDomain) :
    s.Extends { s with ints := s.ints.push d } := by
  refine ⟨by simp, Nat.le_refl _, fun i hi => ?_, fun _ _ => rfl⟩
  rw [box_push_int, if_neg hi.ne]

theorem extends_push_set (s : Store) (d : SetDomain) :
    s.Extends { s with sets := s.sets.push d } := by
  refine ⟨Nat.le_refl _, by simp, fun _ _ => rfl, fun i hi => ?_⟩
  rw [box_push_set, if_neg hi.ne]

theorem sound_push_int (h : s.Sound) {d : IntDomain} (hd : d.Canonical)
    (hfits : ∀ v ∈ d, Word.Fits v) : Sound { s with ints := s.ints.push d } := by
  refine ⟨⟨fun i => ?_, h.box.normal⟩, fun i v hv => ?_⟩
  · rw [box_push_int]
    split
    · exact hd
    · exact h.box.canonical i
  · rw [box_push_int] at hv
    split at hv
    · exact hfits v hv
    · exact h.fits i v hv

theorem sound_push_set (h : s.Sound) {d : SetDomain} (hd : d.Normal) :
    Sound { s with sets := s.sets.push d } := by
  refine ⟨⟨h.box.canonical, fun i => ?_⟩, h.fits⟩
  rw [box_push_set]
  split
  · exact hd
  · exact h.box.normal i

end Store

namespace Space

/-- New variables change nothing of what a slot owes. -/
theorem Accounts.extend {state : State} {n : Nat} {q : Propagator} {slot : Option Propagator}
    (h : Accounts δ exempt state n q slot) (hs : state.store.Sound) {store : Store}
    (hstore : store.Sound) (he : state.store.Extends store) :
    Accounts δ exempt { state with store } n q slot := by
  cases slot with
  | none => exact fun F hF hle => h F hF (he.evolves.within_of_within hle)
  | some p =>
    refine ⟨h.origin, h.wellFormed.of_evolves hs hstore he.evolves, h.watches,
      fun F hF hle => h.agrees F hF (he.evolves.within_of_within hle),
      fun hexempt hn horiented => ?_⟩
    exact Propagator.rests_of_keeps h.wellFormed (h.rests hexempt hn horiented) hs hstore he.evolves
      fun i hi => he.keeps (h.wellFormed.exists_interests i hi) i.2

theorem Tracks.extend (h : s.Tracks δ posted exempt) {store : Store} (hstore : store.Sound)
    (he : s.store.Extends store) :
    Tracks δ posted exempt { s with state := { s.state with store } } where
  ready := ⟨h.ready.alive, hstore⟩
  queue := h.queue
  size := h.size
  scheduled := h.scheduled
  watched := h.watched
  accounts n q hq := (h.accounts n q hq).extend h.ready.sound hstore he

/-- A narrowing that did not fail advances the state. -/
theorem advances_of_narrow (hs : s.state.Ready) {x : VarRef}
    {operation : Store → Except Fault (Event × Store)} {condition : Box → Prop} {event : Event}
    {state : State} (hnarrow : s.state.narrow x operation = .ok (event, state))
    (halive : state.failed = false) (hlaw : s.state.NarrowingLaw x condition event state) :
    s.state.Advances state := by
  have hevent : event.isFailed = false := by
    by_contra hf
    rw [(State.of_narrow hnarrow hs.alive).2 (by simpa using hf)] at halive
    cases halive
  unfold State.NarrowingLaw at hlaw
  rw [hevent] at hlaw
  exact hlaw.1

theorem advances_of_restrict (hs : s.state.Ready) {x : IntVar} (hx : x.index < s.store.ints.size)
    {relation : Relation} {v : Int} {event : Event}
    (hr : s.restrict x relation v = .ok (event, s')) (halive : s'.isFailed = false) :
    ∃ state, s' = { s with state } ∧ s.state.Advances state := by
  obtain ⟨⟨event', state⟩, hstate, hr⟩ := Yields.exists_of_bind hr
  cases hr
  have hlaw : Yields True (s.state.restrict x relation v) _ :=
    State.yields_restrict hs hx (.inr trivial) relation v
  exact ⟨state, rfl, advances_of_narrow hs hstate halive (hlaw.of_ok hstate).1⟩

theorem advances_of_narrowSet (hs : s.state.Ready) {i : Nat} (hi : i < s.store.sets.size)
    {narrowing : SetDomain → Narrowing SetDomain} {condition : SetDomain → Prop}
    (hn : ∀ d : SetDomain, d.Normal →
      Narrowed SetDomain.Normal condition SetDomain.freedom d (narrowing d))
    {event : Event} (hr : s.narrowSet i narrowing = .ok (event, s'))
    (halive : s'.isFailed = false) : ∃ state, s' = { s with state } ∧ s.state.Advances state := by
  obtain ⟨⟨event', state⟩, hstate, hr⟩ := Yields.exists_of_bind hr
  cases hr
  have hlaw : Yields True (s.state.narrowSet i narrowing) _ :=
    State.yields_narrowSet hs hi narrowing condition (hn _ (hs.sound.box.normal i))
  exact ⟨state, rfl, advances_of_narrow hs hstate halive (hlaw.of_ok hstate).1⟩

theorem Tracks.restrict (h : s.Tracks δ posted exempt) {x : IntVar}
    (hx : x.index < s.store.ints.size) {relation : Relation} {v : Int} {event : Event}
    (hr : s.restrict x relation v = .ok (event, s')) (halive : s'.isFailed = false) :
    s'.Tracks δ posted exempt := by
  obtain ⟨state, rfl, hadvances⟩ := advances_of_restrict h.ready hx hr halive
  exact h.advance hadvances

theorem Tracks.narrowSet (h : s.Tracks δ posted exempt) {i : Nat} (hi : i < s.store.sets.size)
    {narrowing : SetDomain → Narrowing SetDomain} {condition : SetDomain → Prop}
    (hn : ∀ d : SetDomain, d.Normal →
      Narrowed SetDomain.Normal condition SetDomain.freedom d (narrowing d))
    {event : Event} (hr : s.narrowSet i narrowing = .ok (event, s'))
    (halive : s'.isFailed = false) : s'.Tracks δ posted exempt := by
  obtain ⟨state, rfl, hadvances⟩ := advances_of_narrowSet h.ready hi hn hr halive
  exact h.advance hadvances

theorem store_of_restrict {s s' : Space} (hs : s.state.failed = false) {x : IntVar}
    {relation : Relation} {v : Int} {event : Event}
    (h : s.restrict x relation v = .ok (event, s')) :
    x.restrict relation v s.store = .ok (event, s'.store) := by
  obtain ⟨⟨event', state⟩, hstate, h⟩ := Yields.exists_of_bind h
  cases h
  exact (State.of_narrow hstate hs).1

theorem store_of_narrowSet {s s' : Space} (hs : s.state.failed = false) {i : Nat}
    {narrowing : SetDomain → Narrowing SetDomain} {event : Event}
    (h : s.narrowSet i narrowing = .ok (event, s')) :
    s.store.narrowSet i narrowing = .ok (event, s'.store) := by
  obtain ⟨⟨event', state⟩, hstate, h⟩ := Yields.exists_of_bind h
  cases h
  exact (State.of_narrow hstate hs).1

theorem eq_of_newInt {lower upper : Int} {x : Nat} (h : s.newInt lower upper = .ok (.ok (x, s'))) :
    ∃ d, IntDomain.ofInterval? lower upper = some d ∧ s' = (s.addInt d).2 := by
  unfold newInt at h
  cases hd : IntDomain.ofInterval? lower upper with
  | none =>
    rw [hd] at h
    cases h
  | some d =>
    rw [hd] at h
    cases h
    exact ⟨d, rfl, rfl⟩

theorem eq_of_newIntOfValues {values : List Int} {x : Nat}
    (h : s.newIntOfValues values = .ok (.ok (x, s'))) :
    ∃ d, IntDomain.ofValues? values = some d ∧ s' = (s.addInt d).2 := by
  unfold newIntOfValues at h
  cases hd : IntDomain.ofValues? values with
  | none =>
    rw [hd] at h
    cases h
  | some d =>
    rw [hd] at h
    cases h
    exact ⟨d, rfl, rfl⟩

theorem eq_of_newSet {required possible : List Int} {cardMin cardMax x : Nat}
    (h : s.newSet required possible cardMin cardMax = .ok (.ok (x, s'))) :
    ∃ d, SetDomain.of? required possible cardMin cardMax = some d ∧
      s' = s.addSet d := by
  unfold newSet at h
  cases hd : SetDomain.of? required possible cardMin cardMax with
  | none =>
    rw [hd] at h
    cases h
  | some d =>
    rw [hd] at h
    cases h
    exact ⟨d, rfl, rfl⟩

theorem eq_of_post (hs : s.state.failed = false) {c : Posting} (hc : c.ExistsIn s.store)
    (hproper : ∀ x ∈ c.vars, x.Proper ∨ δ) {n : Nat} (h : c.post s = .ok (.ok (n, s'))) :
    ∃ q, c.propagator = .ok (.ok q) ∧ q.WellFormed δ s.store ∧ s' = s.posting q := by
  rw [Posting.post_eq_bind] at h
  obtain ⟨q, hq, h⟩ := Request.exists_of_bind h
  have hw := Posting.wellFormed hq hc hproper
  rw [post_eq hs hw] at h
  cases h
  exact ⟨q, hq, hw, rfl⟩

theorem Tracks.addInt (h : s.Tracks δ posted exempt) {d : IntDomain} (hd : d.Canonical)
    (hfits : ∀ v ∈ d, Word.Fits v) : (s.addInt d).2.Tracks δ posted exempt :=
  h.extend (Store.sound_push_int h.ready.sound hd hfits) (Store.extends_push_int _ d)

theorem tracks_ofPolicy (policy : Policy) : (ofPolicy policy).Tracks δ [] none where
  ready := ⟨rfl, Store.sound_empty⟩
  queue := Queue.Valid.ofPolicy policy
  size := rfl
  scheduled n hn := by cases hn
  watched x sub hsub := by
    have hnone : (ofPolicy policy).state.watches.watchers x = #[] := by
      cases x <;> rfl
    rw [hnone] at hsub
    simp at hsub
  accounts n q hq := by cases hq

end Space

/-! ### What is built -/

/-- The propagators are those of the constraints. -/
def Compiles : List Posting → List Propagator → Prop :=
  List.Forall₂ fun c q => c.propagator = .ok (.ok q)

/-- The propagator of a constraint, under the number of the constraint. -/
theorem Compiles.exists_of_mem {cs : List Posting} {posted : List Propagator}
    (h : Compiles cs posted) {c : Posting} (hc : c ∈ cs) :
    ∃ (n : Nat) (q : Propagator), posted[n]? = some q ∧ c.propagator = .ok (.ok q) := by
  induction h with
  | nil => cases hc
  | @cons c' q cs posted hq _ ih =>
    rcases List.mem_cons.1 hc with rfl | hc
    · exact ⟨0, q, rfl, hq⟩
    · obtain ⟨n, q, hn, hq⟩ := ih hc
      exact ⟨n + 1, q, hn, hq⟩

theorem Compiles.exists_posting {cs : List Posting} {posted : List Propagator}
    (h : Compiles cs posted) {q : Propagator} (hq : q ∈ posted) :
    ∃ c ∈ cs, c.propagator = .ok (.ok q) := by
  induction h with
  | nil => cases hq
  | @cons c q' cs posted hc _ ih =>
    rcases List.mem_cons.1 hq with rfl | hq
    · exact ⟨c, by simp, hc⟩
    · obtain ⟨c, hmem, hc⟩ := ih hq
      exact ⟨c, by simp [hmem], hc⟩

theorem Compiles.unique {cs : List Posting} {posted posted' : List Propagator}
    (h : Compiles cs posted) (h' : Compiles cs posted') : posted = posted' :=
  List.right_unique_forall₂' (fun _ _ _ hq hq' => by
    rw [hq] at hq'
    cases hq'
    rfl) h h'

/-- A statement keeps the slots in order, and a posting adds one. -/
theorem Statement.Runs.tracks {t : Statement} (h : s.Tracks δ posted none) (ht : t.Runs s s')
    (hproper : ∀ c ∈ t.posting?, ∀ x ∈ c.vars, x.Proper ∨ δ) :
    ∃ new, Compiles t.posting?.toList new ∧ s'.Tracks δ (posted ++ new) none := by
  -- Only a posting adds a propagator.
  have unposted (hnone : t.posting? = none) (htracks : s'.Tracks δ posted none) :
      ∃ new, Compiles t.posting?.toList new ∧ s'.Tracks δ (posted ++ new) none := by
    rw [hnone]
    exact ⟨[], List.Forall₂.nil, by rwa [List.append_nil]⟩
  cases t with
  | newInt lower upper =>
    obtain ⟨hlower, hupper, x, ht⟩ := ht
    obtain ⟨d, hd, rfl⟩ := Space.eq_of_newInt ht
    obtain ⟨hcanonical, hmem⟩ := IntDomain.canonical_ofInterval? hd
    refine unposted rfl (h.addInt hcanonical fun v hv => ?_)
    have := (hmem v).1 hv
    unfold Word.Fits at *
    omega
  | newIntOfValues values =>
    obtain ⟨hvalues, x, ht⟩ := ht
    obtain ⟨d, hd, rfl⟩ := Space.eq_of_newIntOfValues ht
    obtain ⟨hcanonical, hmem⟩ := IntDomain.canonical_ofValues? hd
    exact unposted rfl (h.addInt hcanonical fun v hv => hvalues v ((hmem v).1 hv))
  | newBool =>
    cases ht
    have hd : IntDomain.ofInterval? 0 1 = some ⟨[⟨0, 1⟩], by simp⟩ := rfl
    obtain ⟨hcanonical, hmem⟩ := IntDomain.canonical_ofInterval? hd
    refine unposted rfl (h.addInt hcanonical fun v hv => ?_)
    have := (hmem v).1 hv
    unfold Word.Fits Word.least Word.greatest
    omega
  | newSet required possible cardMin cardMax =>
    obtain ⟨x, ht⟩ := ht
    obtain ⟨d, hd, rfl⟩ := Space.eq_of_newSet ht
    exact unposted rfl (h.extend
      (Store.sound_push_set h.ready.sound (SetDomain.normal_of? hd)) (Store.extends_push_set _ d))
  | restrict x relation v =>
    obtain ⟨hx, halive, event, ht⟩ := ht
    exact unposted rfl (h.restrict hx ht halive)
  | includeElement set v =>
    obtain ⟨hset, halive, event, ht⟩ := ht
    exact unposted rfl (h.narrowSet hset (fun d hd => hd.including v) ht halive)
  | excludeElement set v =>
    obtain ⟨hset, halive, event, ht⟩ := ht
    exact unposted rfl (h.narrowSet hset (fun d hd => hd.excluding v) ht halive)
  | boundCardinality set least greatest =>
    obtain ⟨hset, halive, event, ht⟩ := ht
    exact unposted rfl
      (h.narrowSet hset (fun d hd => hd.withCardinality least greatest) ht halive)
  | post c =>
    obtain ⟨hc, n, ht⟩ := ht
    obtain ⟨q, hq, hw, rfl⟩ := Space.eq_of_post h.ready.alive hc (hproper c rfl) ht
    exact ⟨[q], List.Forall₂.cons hq List.Forall₂.nil, h.posting hw⟩
  | branch b =>
    cases ht
    exact unposted rfl (h.congr rfl rfl)
  | status =>
    obtain ⟨halive, status, ht⟩ := ht
    refine unposted rfl ?_
    have hlaw := h.of_status ht
    rw [if_neg fun hf => by rw [(Space.isFailed_of_status ht).2 hf] at halive; cases halive] at hlaw
    exact hlaw.1

theorem postings_append (statements : List Statement) (t : Statement) :
    postings (statements ++ [t]) = postings statements ++ t.posting?.toList := by
  unfold postings
  rw [List.filterMap_append]
  cases h : t.posting? <;> simp [h]

/-- In what was built, the slots do the work of the constraints that were posted. -/
theorem Built.tracks {policy : Policy} {statements : List Statement}
    (h : Built policy statements s)
    (hproper : ∀ c ∈ postings statements, ∀ x ∈ c.vars, x.Proper ∨ δ) :
    ∃ posted, Compiles (postings statements) posted ∧ s.Tracks δ posted none := by
  induction h with
  | empty => exact ⟨[], List.Forall₂.nil, Space.tracks_ofPolicy policy⟩
  | @step statements s s' t _ ht ih =>
    rw [postings_append] at hproper ⊢
    obtain ⟨posted, hcompiles, htracks⟩ := ih fun c hc => hproper c (by simp [hc])
    obtain ⟨new, hnew, htracks'⟩ := ht.tracks htracks fun c hc => hproper c (by
      rw [Option.mem_def] at hc
      simp [hc])
    exact ⟨posted ++ new, List.rel_append hcompiles hnew, htracks'⟩

end ConstraintSearch
