import ConstraintSearch.State
import ConstraintSearch.Proofs.Variable
import ConstraintSearch.Proofs.Schedule.Queue
import ConstraintSearch.Proofs.Schedule.Watch

/-!
# The theory of states

Everything that propagators do to a state is made of narrowings, and every narrowing wakes the
subscribers of the change.

* `State.Advances s s'`: what can be said of any number of narrowings on the way from `s` to `s'`.
  Above all, a propagator that is not scheduled in `s'` finds what it watches as it was in `s`
  (`Advances.quiet`);
* `State.yields_restrict`, `State.yields_narrowSet`: the law of one narrowing;
* `Propagation.Law δ C m s post`: on the state `s`, the action `m` advances the state, keeps every
  box with the property `C`, and returns something with the property `post`; it is inconsistent
  only if there is no box with the property `C`.
-/

namespace ConstraintSearch

namespace State

variable {s s' s'' : State} {δ : Prop}

/-- The state has not failed, and its domains are in order. -/
structure Ready (s : State) : Prop where
  alive : s.failed = false
  sound : s.store.Sound

/-- From `s` to `s'`, variables were narrowed and their subscribers woken. -/
structure Advances (s s' : State) : Prop where
  store : s.store.Narrows s'.store
  sound : s.store.Sound → s'.store.Sound
  watches : s'.watches = s.watches
  costs : s'.costs = s.costs
  failed : s'.failed = s.failed
  valid : s.queue.Valid → s'.queue.Valid
  scheduled : ∀ n, s.queue.isScheduled n = true → s'.queue.isScheduled n = true
  watched : ∀ n, s'.queue.isScheduled n = true → s.queue.isScheduled n = true ∨
    ∃ x, ∃ sub ∈ s.watches.watchers x, sub.propagator = n
  quiet : ∀ n, s'.queue.isScheduled n = false → ∀ x, ∀ sub ∈ s.watches.watchers x,
    sub.propagator = n → s.store.Keeps s'.store x sub.wake
  lighter : s' = s ∨ s'.store.weight < s.store.weight

namespace Advances

theorem refl (s : State) : s.Advances s where
  store := Store.Narrows.refl _
  sound := id
  watches := rfl
  costs := rfl
  failed := rfl
  valid := id
  scheduled _ := id
  watched _ h := .inl h
  quiet _ _ x sub _ _ := Store.Keeps.refl _ x sub.wake
  lighter := .inl rfl

theorem trans (h : s.Advances s') (h' : s'.Advances s'') : s.Advances s'' where
  store := h.store.trans h'.store
  sound := h'.sound ∘ h.sound
  watches := h'.watches.trans h.watches
  costs := h'.costs.trans h.costs
  failed := h'.failed.trans h.failed
  valid := h'.valid ∘ h.valid
  scheduled n := h'.scheduled n ∘ h.scheduled n
  watched n hn := by
    rcases h'.watched n hn with hn | hn
    · exact h.watched n hn
    · rw [h.watches] at hn
      exact .inr hn
  quiet n hn x sub hsub heq := by
    have hn' : s'.queue.isScheduled n = false := by
      by_contra hne
      rw [h'.scheduled n (by simpa using hne)] at hn
      cases hn
    exact (h.quiet n hn' x sub hsub heq).trans (h'.quiet n hn x sub (h.watches ▸ hsub) heq)
  lighter := by
    rcases h.lighter with rfl | hlt
    · exact h'.lighter
    · rcases h'.lighter with rfl | hlt'
      · exact .inr hlt
      · exact .inr (hlt'.trans hlt)

theorem ready (h : s.Advances s') (hs : s.Ready) : s'.Ready :=
  ⟨h.failed.trans hs.alive, h.sound hs.sound⟩

end Advances

/-! ### Waking -/

/-- Scheduling a propagator changes nothing but the queue. -/
theorem schedule_queue (s : State) (n : Nat) :
    s.schedule n = { s with
      queue := s.queue.schedule n ((s.costs.get? n).getD .linearLow) } := rfl

/-- Waking changes nothing but the queue, which keeps its entries and gets those of the subscribers
that the event triggers. -/
structure Woken (s : State) (subs : List Subscription) (event : Event) (s' : State) : Prop where
  rest : ∃ queue, s' = { s with queue }
  valid : s.queue.Valid → s'.queue.Valid
  scheduled : ∀ n, s'.queue.isScheduled n = true ↔ s.queue.isScheduled n = true ∨
    ∃ sub ∈ subs, sub.propagator = n ∧ sub.wake.triggeredBy event = true

theorem woken_foldl (s : State) (subs : List Subscription) (event : Event) :
    s.Woken subs event (subs.foldl
      (fun s sub => if sub.wake.triggeredBy event then s.schedule sub.propagator else s) s) := by
  induction subs generalizing s with
  | nil => exact ⟨⟨s.queue, rfl⟩, id, fun n => by simp⟩
  | cons sub subs ih =>
    rw [List.foldl_cons]
    cases ht : sub.wake.triggeredBy event with
    | false =>
      obtain ⟨hrest, hvalid, hscheduled⟩ := ih s
      refine ⟨hrest, hvalid, fun n => ?_⟩
      rw [if_neg (by decide), hscheduled]
      simp only [List.mem_cons, exists_eq_or_imp, ht]
      simp
    | true =>
      obtain ⟨⟨queue, hrest⟩, hvalid, hscheduled⟩ := ih (s.schedule sub.propagator)
      rw [if_pos rfl]
      refine ⟨⟨queue, hrest⟩, fun hq => hvalid (hq.schedule _ _), fun n => ?_⟩
      rw [hscheduled, schedule_queue]
      simp only [Queue.isScheduled_schedule, Bool.or_eq_true, decide_eq_true_iff, List.mem_cons,
        exists_eq_or_imp, ht, and_true]
      tauto

theorem woken (s : State) (x : VarRef) (event : Event) :
    s.Woken (s.watches.watchers x).toList event (s.wake x event) := by
  unfold wake
  rw [← Array.foldl_toList]
  exact woken_foldl s _ event

/-! ### Narrowing -/

/-- The law of a narrowing of `x` on a state. -/
def NarrowingLaw (s : State) (x : VarRef) (condition : Box → Prop) (event : Event)
    (s' : State) : Prop :=
  if event.isFailed then ∀ F : Box, F.Sound → F.Within s.store → ¬condition F
  else s.Advances s' ∧ s.store.NarrowedTo x condition event s'.store ∧
    (event.isModified = false → s' = s)

/-- A narrowing of the store, together with waking the subscribers, advances the state. -/
theorem advances_notify {store : Store} {x : VarRef} {condition : Box → Prop} {event : Event}
    (h : s.store.NarrowedTo x condition event store) (hfailed : event.isFailed = false) :
    s.Advances ({ s with store }.notify x event) ∧
      ({ s with store }.notify x event).store = store ∧
      (event.isModified = false → { s with store }.notify x event = s) := by
  unfold notify
  rw [hfailed, if_neg (by decide)]
  cases hm : event.isModified with
  | false =>
    have hstore := h.unmodified hm
    subst hstore
    rw [if_neg (by decide)]
    exact ⟨Advances.refl s, rfl, fun _ => rfl⟩
  | true =>
    rw [if_pos rfl]
    obtain ⟨⟨queue, hrest⟩, hvalid, hscheduled⟩ := woken { s with store } x event
    rw [hrest] at hvalid hscheduled ⊢
    refine ⟨?_, rfl, fun h => by cases h⟩
    exact
      { store := h.narrows
        sound := fun _ => h.sound
        watches := rfl
        costs := rfl
        failed := rfl
        valid := hvalid
        scheduled := fun n hn => (hscheduled n).2 (.inl hn)
        watched := fun n hn => by
          rcases (hscheduled n).1 hn with hn | ⟨sub, hsub, hn, -⟩
          · exact .inl hn
          · exact .inr ⟨x, sub, Array.mem_toList_iff.1 hsub, hn⟩
        quiet := fun n hn y sub hsub heq => by
          by_cases hy : y = x
          · subst hy
            refine h.keeps sub.wake ?_
            by_contra ht
            have := (hscheduled n).2
              (.inr ⟨sub, Array.mem_toList_iff.2 hsub, heq, by simpa using ht⟩)
            rw [hn] at this
            cases this
          · exact h.keeps_other hy sub.wake
        lighter := .inr (h.lighter hm) }

/-- What a narrowing does to the store, and what becomes of the state if nothing is left. -/
theorem of_narrow {x : VarRef} {operation : Store → Except Fault (Event × Store)} {event : Event}
    (h : s.narrow x operation = .ok (event, s')) (hs : s.failed = false) :
    operation s.store = .ok (event, s'.store) ∧ (event.isFailed = true → s'.failed = true) := by
  unfold narrow at h
  rw [if_neg (by simp [hs])] at h
  cases hop : operation s.store with
  | error fault =>
    rw [hop] at h
    cases h
  | ok r =>
    rw [hop] at h
    cases h
    unfold notify
    cases r.1.isFailed with
    | true => exact ⟨rfl, fun _ => rfl⟩
    | false =>
      refine ⟨?_, fun hf => by cases hf⟩
      rw [if_neg (by decide)]
      split
      · obtain ⟨⟨queue, hrest⟩, -, -⟩ := woken { s with store := r.2 } x r.1
        rw [hrest]
      · rfl

theorem yields_narrow (hs : s.Ready) {x : VarRef} {operation : Store → Except Fault (Event × Store)}
    {condition : Box → Prop} {P : Prop}
    (h : Yields δ (operation s.store) fun r => s.store.NarrowingLaw x condition r.1 r.2 ∧ P) :
    Yields δ (s.narrow x operation) fun r => s.NarrowingLaw x condition r.1 r.2 ∧ P := by
  unfold narrow
  rw [if_neg (by simp [hs.alive])]
  refine h.bind fun r hr => ?_
  obtain ⟨event, store⟩ := r
  obtain ⟨hlaw, hP⟩ := hr
  refine ⟨?_, hP⟩
  unfold Store.NarrowingLaw at hlaw
  unfold NarrowingLaw
  dsimp only at hlaw ⊢
  cases hf : event.isFailed with
  | true =>
    rw [hf] at hlaw
    exact hlaw
  | false =>
    rw [hf] at hlaw
    obtain ⟨hadvances, hstore, hsame⟩ := advances_notify hlaw hf
    rw [if_neg (by decide)]
    refine ⟨hadvances, ?_, hsame⟩
    rw [hstore]
    exact hlaw

theorem yields_restrict (hs : s.Ready) {x : IntVar} (hx : x.index < s.store.ints.size)
    (h : x.Proper ∨ δ) (relation : Relation) (v : Int) :
    Yields δ (s.restrict x relation v) fun r =>
      s.NarrowingLaw x.ref (x.Restricted relation v) r.1 r.2 ∧ x.CanPull relation v :=
  yields_narrow hs (IntVar.yields_restrict hs.sound hx h relation v)

theorem yields_narrowSet (hs : s.Ready) {i : Nat} (hi : i < s.store.sets.size)
    (narrowing : SetDomain → Narrowing SetDomain) (condition : SetDomain → Prop)
    (h : Narrowed SetDomain.Normal condition SetDomain.freedom (s.store.box.sets i)
      (narrowing (s.store.box.sets i))) :
    Yields δ (s.narrowSet i narrowing) fun r =>
      s.NarrowingLaw (.set i) (fun F => condition (F.sets i)) r.1 r.2 ∧ True :=
  yields_narrow hs ((Store.yields_narrowSet hs.sound hi h).mono fun _ hr => ⟨hr, trivial⟩)

end State

/-! ### Actions -/

namespace Propagation

/-- To discard a result is to return nothing in its place. -/
theorem discard_eq_bind {α : Type} (m : Propagation α) :
    Functor.discard m = m >>= fun _ => pure () :=
  (congrFun (congrFun LawfulFunctor.map_const ()) m).trans (bind_pure_comp _ m).symm

/-- From `s` to `s'` the state has advanced, and no box with the property `C` was lost. -/
structure Step (C : Box → Prop) (s s' : State) : Prop where
  advances : s.Advances s'
  kept : ∀ F : Box, F.Sound → C F → F.Within s.store → F.Within s'.store

/-- The law of an action on a state. -/
def Law (δ : Prop) (C : Box → Prop) {α : Type} (m : Propagation α) (s : State)
    (post : α → State → Prop) : Prop :=
  Yields δ (m s) fun
    | (.ok a, s') => Step C s s' ∧ post a s'
    | (.error _, _) => ∀ F : Box, F.Sound → C F → ¬F.Within s.store

variable {δ : Prop} {C : Box → Prop} {α β : Type} {m : Propagation α} {f : α → Propagation β}
  {s s' s'' : State} {P Q : α → State → Prop} {R : β → State → Prop}

theorem Step.refl (C : Box → Prop) (s : State) : Step C s s :=
  ⟨State.Advances.refl s, fun _ _ _ h => h⟩

theorem Step.trans (h : Step C s s') (h' : Step C s' s'') : Step C s s'' :=
  ⟨h.advances.trans h'.advances, fun F hF hC hle => h'.kept F hF hC (h.kept F hF hC hle)⟩

namespace Law

theorem pure {a : α} (h : P a s) : Law δ C (Pure.pure a) s P := ⟨Step.refl C s, h⟩

theorem bind (hm : Law δ C m s P)
    (hf : ∀ a s', Step C s s' → P a s' → Law δ C (f a) s' R) : Law δ C (m >>= f) s R := by
  refine Yields.bind hm fun r hr => ?_
  obtain ⟨outcome, s'⟩ := r
  cases outcome with
  | error i => exact hr
  | ok a =>
    obtain ⟨hstep, hP⟩ := hr
    refine (hf a s' hstep hP).mono fun r hr => ?_
    obtain ⟨outcome, s''⟩ := r
    cases outcome with
    | error i => exact fun F hF hC hle => hr F hF hC (hstep.kept F hF hC hle)
    | ok b => exact ⟨hstep.trans hr.1, hr.2⟩

theorem mono (hm : Law δ C m s P) (h : ∀ a s', Step C s s' → P a s' → Q a s') :
    Law δ C m s Q := by
  refine Yields.mono hm fun r hr => ?_
  obtain ⟨outcome, s'⟩ := r
  cases outcome with
  | error i => exact hr
  | ok a => exact ⟨hr.1, h a s' hr.1 hr.2⟩

theorem lift {r : Except Fault α} {post : α → Prop} (h : Yields δ r post) :
    Law δ C (liftM r : Propagation α) s fun a s' => s' = s ∧ post a := by
  cases r with
  | ok a => exact ⟨Step.refl C s, rfl, h⟩
  | error fault => exact h

theorem reading {f : Store → Except Fault α} {post : α → Prop} (h : Yields δ (f s.store) post) :
    Law δ C (Propagation.reading f) s fun a s' => s' = s ∧ post a := by
  unfold Propagation.reading
  exact lift h

/-- An action that ends in an inconsistency, where no box has the property. -/
theorem throw {i : Inconsistency} (h : ∀ F : Box, F.Sound → C F → ¬F.Within s.store) :
    Law δ C (MonadExcept.throw i : Propagation α) s P := h

theorem narrowing {g : State → Except Fault (Event × State)} {x : VarRef}
    {condition : Box → Prop} {A : Prop}
    (h : Yields δ (g s) fun r => s.NarrowingLaw x condition r.1 r.2 ∧ A)
    (hC : ∀ F : Box, F.Sound → C F → F.Within s.store → condition F) :
    Law δ C (Propagation.narrowing g) s fun event s' =>
      s.store.NarrowedTo x condition event s'.store ∧ (event.isModified = false → s' = s) ∧ A := by
  unfold Propagation.narrowing
  refine Yields.bind h fun r hr => ?_
  obtain ⟨event, s'⟩ := r
  obtain ⟨hlaw, hA⟩ := hr
  unfold State.NarrowingLaw at hlaw
  dsimp only at hlaw ⊢
  cases hf : event.isFailed with
  | true =>
    rw [hf] at hlaw
    exact fun F hF hCF hle => hlaw F hF hle (hC F hF hCF hle)
  | false =>
    rw [hf] at hlaw
    obtain ⟨hadvances, hnarrowed, hsame⟩ := hlaw
    exact ⟨⟨hadvances, fun F hF hCF hle => hnarrowed.greatest F hF hle (hC F hF hCF hle)⟩,
      hnarrowed, hsame, hA⟩

theorem restrict (hs : s.Ready) {x : IntVar} (hx : x.index < s.store.ints.size)
    (h : x.Proper ∨ δ) {relation : Relation} {v : Int}
    (hC : ∀ F : Box, F.Sound → C F → F.Within s.store → x.Restricted relation v F) :
    Law δ C (Propagation.restrict x relation v) s fun event s' =>
      s.store.NarrowedTo x.ref (x.Restricted relation v) event s'.store ∧
        (event.isModified = false → s' = s) ∧ x.CanPull relation v :=
  narrowing (State.yields_restrict hs hx h relation v) hC

theorem setCardinality (hs : s.Ready) {i : Nat} (hi : i < s.store.sets.size)
    {least greatest : Nat}
    (hC : ∀ F : Box, F.Sound → C F → F.Within s.store →
      least ≤ (F.sets i).cardMin ∧ (F.sets i).cardMax ≤ greatest) :
    Law δ C (Propagation.setCardinality i least greatest) s fun event s' =>
      s.store.NarrowedTo (.set i)
        (fun F => least ≤ (F.sets i).cardMin ∧ (F.sets i).cardMax ≤ greatest) event s'.store ∧
        (event.isModified = false → s' = s) ∧ True := by
  have hnarrowed := (hs.sound.box.normal i).withCardinality least greatest
  exact narrowing (State.yields_narrowSet hs hi (·.withCardinality least greatest)
    (fun d => least ≤ d.cardMin ∧ d.cardMax ≤ greatest) hnarrowed) hC

theorem includeElement (hs : s.Ready) {i : Nat} (hi : i < s.store.sets.size) {v : Int}
    (hC : ∀ F : Box, F.Sound → C F → F.Within s.store → v ∈ (F.sets i).required) :
    Law δ C (Propagation.includeElement i v) s fun event s' =>
      s.store.NarrowedTo (.set i) (fun F => v ∈ (F.sets i).required) event s'.store ∧
        (event.isModified = false → s' = s) ∧ True :=
  narrowing (State.yields_narrowSet hs hi (·.including v) (v ∈ ·.required)
    ((hs.sound.box.normal i).including v)) hC

theorem excludeElement (hs : s.Ready) {i : Nat} (hi : i < s.store.sets.size) {v : Int}
    (hC : ∀ F : Box, F.Sound → C F → F.Within s.store → v ∉ (F.sets i).possible) :
    Law δ C (Propagation.excludeElement i v) s fun event s' =>
      s.store.NarrowedTo (.set i) (fun F => v ∉ (F.sets i).possible) event s'.store ∧
        (event.isModified = false → s' = s) ∧ True :=
  narrowing (State.yields_narrowSet hs hi (·.excluding v) (v ∉ ·.possible)
    ((hs.sound.box.normal i).excluding v)) hC

/-- An action whose result does not matter. -/
theorem discard {A : State → Prop} (hm : Law δ C m s P) (h : ∀ a s', P a s' → A s') :
    Law δ C (Functor.discard m) s fun _ s' => A s' := by
  rw [discard_eq_bind]
  exact hm.bind fun a s' _ ha => pure (h a s' ha)

end Law

/-- An action on a state that has a result, as an equation. -/
theorem bind_apply (m : Propagation α) (f : α → Propagation β) (s : State) :
    (m >>= f) s = (m s >>= fun
      | (.ok a, s') => f a s'
      | (.error i, s') => .ok (.error i, s')) := by
  show (m s >>= fun r => (ExceptT.bindCont f r.1) r.2) = _
  congr
  funext r
  obtain ⟨outcome, s'⟩ := r
  cases outcome <;> rfl

/-- An action that was performed and has changed nothing. -/
theorem bind_of_ok {a : α} (hm : m s = .ok (.ok a, s')) : (m >>= f) s = f a s' := by
  rw [bind_apply, hm]
  rfl

theorem reading_of_ok {f : Store → Except Fault α} {a : α} (h : f s.store = .ok a) :
    reading f s = .ok (.ok a, s) := by
  unfold reading
  show (liftM (f s.store) : Propagation α) s = _
  rw [h]
  rfl

/-- A restriction that holds already changes nothing. -/
theorem restrict_of_restricted (hs : s.Ready) {x : IntVar} (hx : x.index < s.store.ints.size)
    {relation : Relation} {v : Int} (h : x.CanPull relation v)
    (hv : x.Restricted relation v s.store.box) :
    Propagation.restrict x relation v s = .ok (.ok .none, s) := by
  have hstore := IntVar.restrict_of_restricted hs.sound hx h hv
  have hstate : s.restrict x relation v = .ok (.none, s) := by
    unfold State.restrict State.narrow
    rw [if_neg (by simp [hs.alive]), hstore]
    rfl
  show (s.restrict x relation v >>= _ : Except Fault _) = _
  rw [hstate]
  rfl

end Propagation

end ConstraintSearch
