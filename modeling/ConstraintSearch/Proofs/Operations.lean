import ConstraintSearch.Proofs.Build
import ConstraintSearch.Proofs.Narrowing

/-!
# What clients do with spaces

A client creates variables, narrows them, posts propagators, adds branchers and an objective, asks
for the status and for choices, commits to alternatives, asks for better solutions and gives up.
Operations are data, so that statements about all that clients do are statements about operations.

* `Space.Operation.Runs s s' o`: the operation `o` has a result, and leads from `s` to `s'`. Failure
  is a result, and so is the refusal to post a propagator;
* `Space.Operation.Runs.exists_store`, `Space.Operation.Runs.exists_state`: what the operations do
  that create variables, and those that narrow them;
* `Space.Reachable allowed s`: allowed operations lead from an empty space to `s`;
* `Space.perform?` evaluates an operation, and `Space.performAll?` one after the other.
-/

namespace ConstraintSearch.Space

/-- A step that a client takes with a space. -/
inductive Operation
  | newInt (lower upper : Int)
  | newIntOfValues (values : List Int)
  | newBool
  | newSet (required possible : List Int) (cardMin cardMax : Nat)
  | newFloat (lower upper : Float)
  | restrict (x : IntVar) (relation : Relation) (v : Int)
  | restrictBelow (x : IntVar) (v : Int)
  | restrictAbove (x : IntVar) (v : Int)
  | restrictTo (x : IntVar) (values : List Int)
  | includeElement (set : Nat) (v : Int)
  | excludeElement (set : Nat) (v : Int)
  | boundCardinality (set : Nat) (least greatest : Nat)
  | setFloatUpper (float : Nat) (v : Float)
  | setFloatLower (float : Nat) (v : Float)
  | post (p : Propagator)
  | branch (b : Brancher)
  /-- Declare what is to be small or large. -/
  | aim (o : Objective)
  | status
  /-- Ask for a choice. -/
  | choose
  /-- Commit to an alternative of a choice, whichever space has made it. -/
  | commit (c : Choice) (alternative : Nat)
  /-- Ask for a better solution than another space. -/
  | constrain (best : Space)
  | fail

namespace Operation

/-- The operation has a result, and leads from `s` to `s'`. Values of new variables are 32-bit
integers. -/
def Runs (s s' : Space) : Operation → Prop
  | newInt lower upper =>
      Word.Fits lower ∧ Word.Fits upper ∧ ∃ x, s.newInt lower upper = .ok (.ok (x, s'))
  | newIntOfValues values =>
      (∀ v ∈ values, Word.Fits v) ∧ ∃ x, s.newIntOfValues values = .ok (.ok (x, s'))
  | newBool => s' = s.newBool.2
  | newSet required possible cardMin cardMax =>
      ∃ x, s.newSet required possible cardMin cardMax = .ok (.ok (x, s'))
  | newFloat lower upper => ∃ x, s.newFloat lower upper = .ok (.ok (x, s'))
  | restrict x relation v => ∃ event, s.restrict x relation v = .ok (event, s')
  | restrictBelow x v => ∃ event, s.restrictBelow x v = .ok (event, s')
  | restrictAbove x v => ∃ event, s.restrictAbove x v = .ok (event, s')
  | restrictTo x values => ∃ event, s.restrictTo x values = .ok (event, s')
  | includeElement set v => ∃ event, s.narrowSet set (·.including v) = .ok (event, s')
  | excludeElement set v => ∃ event, s.narrowSet set (·.excluding v) = .ok (event, s')
  | boundCardinality set least greatest =>
      ∃ event, s.narrowSet set (·.withCardinality least greatest) = .ok (event, s')
  | setFloatUpper float v => ∃ event, s.narrowFloat float (·.withUpper v) = .ok (event, s')
  | setFloatLower float v => ∃ event, s.narrowFloat float (·.withLower v) = .ok (event, s')
  | post p =>
      (∃ n, s.post p = .ok (.ok (n, s'))) ∨ ∃ error, s.post p = .ok (.error error) ∧ s' = s
  | branch b => s' = (s.branch b).2
  | aim o => s' = { s with objective := some o }
  | status => ∃ status, s.status.Returns (status, s')
  | choose => ∃ c, s.choice = .ok (c, s')
  | commit c alternative => s.commit c alternative = .ok s'
  | constrain best => s.constrain best = .ok s'
  | fail => s' = s.fail

/-- The operation creates a variable of integers or sets. -/
def IsCreation : Operation → Prop
  | newInt _ _ | newIntOfValues _ | newBool | newSet _ _ _ _ => True
  | _ => False

/-- The operation narrows variables, or gives up. -/
def IsNarrowing : Operation → Prop
  | restrict _ _ _ | restrictBelow _ _ | restrictAbove _ _ | restrictTo _ _ | includeElement _ _
  | excludeElement _ _ | boundCardinality _ _ _ | setFloatUpper _ _ | setFloatLower _ _
  | constrain _ | fail => True
  | _ => False

variable {s s' : Space} {o : Operation}

/-- A new variable is added behind the others, and its domain is in order. -/
theorem Runs.exists_store (h : o.Runs s s') (ho : o.IsCreation) :
    ∃ store, s' = { s with state := { s.state with store } } ∧ s.store.Extends store ∧
      store.floats = s.store.floats ∧ (s.store.Sound → store.Sound) := by
  have hint {d : IntDomain} (hd : d.Canonical) (hfits : ∀ v ∈ d, Word.Fits v)
      (heq : s' = (s.addInt d).2) : ∃ store, s' = { s with state := { s.state with store } } ∧
        s.store.Extends store ∧ store.floats = s.store.floats ∧
        (s.store.Sound → store.Sound) :=
    ⟨_, heq, Store.extends_push_int _ d, rfl, fun hs => Store.sound_push_int hs hd hfits⟩
  have hinterval {lower upper : Int} {d : IntDomain} (hlower : Word.Fits lower)
      (hupper : Word.Fits upper) (hd : IntDomain.ofInterval? lower upper = some d) :
      ∀ v ∈ d, Word.Fits v := fun v hv => by
    have := ((IntDomain.canonical_ofInterval? hd).2 v).1 hv
    unfold Word.Fits at *
    omega
  cases o with
  | newInt lower upper =>
    obtain ⟨hlower, hupper, x, h⟩ := h
    obtain ⟨d, hd, heq⟩ := eq_of_newInt h
    exact hint (IntDomain.canonical_ofInterval? hd).1 (hinterval hlower hupper hd) heq
  | newIntOfValues values =>
    obtain ⟨hvalues, x, h⟩ := h
    obtain ⟨d, hd, heq⟩ := eq_of_newIntOfValues h
    obtain ⟨hcanonical, hmem⟩ := IntDomain.canonical_ofValues? hd
    exact hint hcanonical (fun v hv => hvalues v ((hmem v).1 hv)) heq
  | newBool =>
    have hd : IntDomain.ofInterval? 0 1 = some ⟨[⟨0, 1⟩], by simp⟩ := rfl
    exact hint (IntDomain.canonical_ofInterval? hd).1 (hinterval (by decide) (by decide) hd) h
  | newSet required possible cardMin cardMax =>
    obtain ⟨x, h⟩ := h
    obtain ⟨d, hd, heq⟩ := eq_of_newSet h
    exact ⟨_, heq, Store.extends_push_set _ d, rfl, fun hs =>
      Store.sound_push_set hs (SetDomain.normal_of? hd)⟩
  | _ => exact ho.elim

theorem leads_of_restrict {x : IntVar} {relation : Relation} {v : Int} {event : Event}
    (h : s.restrict x relation v = .ok (event, s')) :
    ∃ state, s.state.Leads state ∧ s' = { s with state } := by
  obtain ⟨⟨event', state⟩, hstate, h⟩ := Yields.exists_of_bind h
  cases h
  exact ⟨state, (State.Step.restrict hstate).leads, rfl⟩

theorem leads_of_narrowSet {i : Nat} {narrowing : SetDomain → Narrowing SetDomain}
    {condition : SetDomain → Prop}
    (hn : ∀ d : SetDomain, d.Normal →
      Narrowed SetDomain.Normal condition SetDomain.freedom d (narrowing d))
    {event : Event} (h : s.narrowSet i narrowing = .ok (event, s')) :
    ∃ state, s.state.Leads state ∧ s' = { s with state } := by
  obtain ⟨⟨event', state⟩, hstate, h⟩ := Yields.exists_of_bind h
  cases h
  exact ⟨state, (State.Step.narrowSet hn hstate).leads, rfl⟩

theorem leads_of_narrowFloat {i : Nat} {narrowing : FloatDomain → Narrowing FloatDomain}
    {event : Event} (h : s.narrowFloat i narrowing = .ok (event, s')) :
    ∃ state, s.state.Leads state ∧ s' = { s with state } := by
  obtain ⟨⟨event', state⟩, hstate, h⟩ := Yields.exists_of_bind h
  cases h
  exact ⟨state, (State.Step.narrowFloat hstate).leads, rfl⟩

/-- Narrowings lead to the new state, and then the space may be given up. -/
theorem Runs.exists_state (h : o.Runs s s') (ho : o.IsNarrowing) :
    ∃ state, s.state.Leads state ∧
      (s' = { s with state } ∨ s' = { s with state := state.fail }) := by
  have hleads (hl : ∃ state, s.state.Leads state ∧ s' = { s with state }) :
      ∃ state, s.state.Leads state ∧
        (s' = { s with state } ∨ s' = { s with state := state.fail }) := by
    obtain ⟨state, hl, heq⟩ := hl
    exact ⟨state, hl, .inl heq⟩
  have hfail (heq : s' = s.fail) : ∃ state, s.state.Leads state ∧
      (s' = { s with state } ∨ s' = { s with state := state.fail }) :=
    ⟨s.state, .refl _, .inr heq⟩
  cases o with
  | restrict x relation v =>
    obtain ⟨event, h⟩ := h
    exact hleads (leads_of_restrict h)
  | restrictBelow x v =>
    obtain ⟨event, h⟩ := h
    unfold Space.restrictBelow at h
    split at h
    · exact hleads (leads_of_restrict h)
    · cases h
      exact hfail rfl
  | restrictAbove x v =>
    obtain ⟨event, h⟩ := h
    unfold Space.restrictAbove at h
    split at h
    · exact hleads (leads_of_restrict h)
    · cases h
      exact hfail rfl
  | restrictTo x values =>
    obtain ⟨event, h⟩ := h
    obtain ⟨⟨outcome, state⟩, hstate, h⟩ := Yields.exists_of_bind h
    have hl := ((Propagation.Acts.restrictTo x values).narrows s.state _ hstate).leads
    cases outcome <;>
    · cases h
      exact ⟨state, hl, .inl rfl⟩
  | includeElement set v =>
    obtain ⟨event, h⟩ := h
    exact hleads (leads_of_narrowSet (fun d hd => hd.including v) h)
  | excludeElement set v =>
    obtain ⟨event, h⟩ := h
    exact hleads (leads_of_narrowSet (fun d hd => hd.excluding v) h)
  | boundCardinality set least greatest =>
    obtain ⟨event, h⟩ := h
    exact hleads (leads_of_narrowSet (fun d hd => hd.withCardinality least greatest) h)
  | setFloatUpper float v | setFloatLower float v =>
    obtain ⟨event, h⟩ := h
    exact hleads (leads_of_narrowFloat h)
  | constrain best =>
    change s.constrain best = .ok s' at h
    unfold Space.constrain at h
    split at h
    · cases h
      exact ⟨s.state, .refl _, .inl rfl⟩
    all_goals
      obtain ⟨edge, -, h⟩ := Yields.exists_of_bind h
      obtain ⟨bound, -, h⟩ := Yields.exists_of_bind h
      obtain ⟨⟨event, s₁⟩, hr, h⟩ := Yields.exists_of_bind h
      cases h
      exact hleads (leads_of_restrict hr)
  | fail => exact hfail h
  | _ => exact ho.elim

end Operation

/-- What a commitment does: in a failed space nothing; otherwise the brancher of the choice narrows
the state, and the space fails if the brancher does. -/
theorem cases_of_commit {s s' : Space} {c : Choice} {alternative : Nat}
    (h : s.commit c alternative = .ok s') :
    s' = s ∨ ∃ b, s.branchers.get? c.brancher = some b ∧ ∃ outcome state,
      b.commit c.decision alternative s.state = .ok (outcome, state) ∧
      match outcome with
      | .ok b' => s' = { s with state, branchers := s.branchers.set c.brancher b' }
      | .error _ => s' = { s with state := state.fail } := by
  unfold commit at h
  dsimp only at h
  split at h
  · cases h
  split at h
  · cases h
    exact .inl rfl
  obtain ⟨b, hb, h⟩ := Yields.exists_of_bind h
  obtain ⟨⟨outcome, state⟩, hstate, h⟩ := Yields.exists_of_bind h
  refine .inr ⟨b, Table.fetch_eq_ok.1 hb, outcome, state, hstate, ?_⟩
  cases outcome <;>
  · cases h
    rfl

/-- A choice changes nothing but the brancher that makes it. -/
theorem exists_of_choice {s s' : Space} {c : Choice} (h : s.choice = .ok (c, s')) :
    ∃ b b' decision, s.branchers.get? s.active = some b ∧
      b.decide s.state = .ok (decision, b') ∧
      s' = { s with branchers := s.branchers.set s.active b' } := by
  unfold Space.choice at h
  dsimp only at h
  split at h
  · cases h
  obtain ⟨b, hb, h⟩ := Yields.exists_of_bind h
  obtain ⟨⟨decision, b'⟩, hdecide, h⟩ := Yields.exists_of_bind h
  dsimp only at h
  split at h
  · cases h
  cases h
  exact ⟨b, b', decision, Table.fetch_eq_ok.1 hb, hdecide, rfl⟩

/-- Some operation leads from `s` to `s'`. -/
def Becomes (s s' : Space) : Prop := ∃ o : Operation, o.Runs s s'

/-- Allowed operations lead from an empty space to the space. -/
inductive Reachable (allowed : Space → Operation → Prop) : Space → Prop
  | empty (policy : Policy) : Reachable allowed (ofPolicy policy)
  | step {s s' : Space} {o : Operation} (h : Reachable allowed s) (ho : allowed s o)
      (hr : o.Runs s s') : Reachable allowed s'

/-! ### Evaluation -/

/-- The space that a computation returns. -/
def result? {α : Type} : Except Fault (α × Space) → Option Space
  | .ok (_, s) => some s
  | .error _ => none

/-- The space after an operation, if it has a result. Operations with floats are not evaluated. -/
def perform? (s : Space) : Operation → Option Space
  | .newInt lower upper => (Statement.newInt lower upper).run? s
  | .newIntOfValues values => (Statement.newIntOfValues values).run? s
  | .newBool => some s.newBool.2
  | .newSet required possible cardMin cardMax =>
      (Statement.newSet required possible cardMin cardMax).run? s
  | .restrict x relation v => result? (s.restrict x relation v)
  | .restrictBelow x v => result? (s.restrictBelow x v)
  | .restrictAbove x v => result? (s.restrictAbove x v)
  | .restrictTo x values => result? (s.restrictTo x values)
  | .includeElement set v => result? (s.narrowSet set (·.including v))
  | .excludeElement set v => result? (s.narrowSet set (·.excluding v))
  | .boundCardinality set least greatest =>
      result? (s.narrowSet set (·.withCardinality least greatest))
  | .post p =>
      match s.post p with
      | .ok (.ok (_, s)) => some s
      | .ok (.error _) => some s
      | .error _ => none
  | .branch b => some (s.branch b).2
  | .aim o => some { s with objective := some o }
  | .status => result? (s.status #[]).1
  | .choose => result? s.choice
  | .commit c alternative => (s.commit c alternative).toOption
  | .constrain best => (s.constrain best).toOption
  | .fail => some s.fail
  | .newFloat _ _ | .setFloatUpper _ _ | .setFloatLower _ _ => none

theorem eq_of_result? {α : Type} {r : Except Fault (α × Space)} {s : Space}
    (h : result? r = some s) : ∃ a, r = .ok (a, s) := by
  rcases r with fault | ⟨a, s'⟩
  · cases h
  · cases h
    exact ⟨a, rfl⟩

theorem ok_of_toOption {ε α : Type} {r : Except ε α} {a : α} (h : r.toOption = some a) :
    r = .ok a := by
  cases r with
  | error fault => cases h
  | ok a' =>
    cases h
    rfl

/-- The fault in which a computation ends. -/
def fault? {α : Type} : Except Fault α → Option Fault
  | .error fault => some fault
  | .ok _ => none

theorem error_of_fault? {α : Type} {r : Except Fault α} {fault : Fault}
    (h : fault? r = some fault) : r = .error fault := by
  cases r with
  | error fault' =>
    cases h
    rfl
  | ok a => cases h

theorem runs_of_perform? {s s' : Space} {o : Operation} (h : s.perform? o = some s') :
    o.Runs s s' := by
  cases o with
  | newInt lower upper => exact Statement.runs_of_run? (t := .newInt lower upper) h
  | newIntOfValues values => exact Statement.runs_of_run? (t := .newIntOfValues values) h
  | newSet required possible cardMin cardMax =>
    exact Statement.runs_of_run? (t := .newSet required possible cardMin cardMax) h
  | newBool | branch | aim | fail => exact (Option.some.inj h).symm
  | restrict | restrictBelow | restrictAbove | restrictTo | includeElement | excludeElement
  | boundCardinality | choose => exact eq_of_result? h
  | post p =>
    unfold perform? at h
    dsimp only at h
    split at h
    · rename_i hp
      cases h
      exact .inl ⟨_, hp⟩
    · rename_i hp
      cases h
      exact .inr ⟨_, hp, rfl⟩
    · cases h
  | status =>
    obtain ⟨status, hs⟩ := eq_of_result? h
    exact ⟨status, #[], hs⟩
  | commit | constrain => exact ok_of_toOption h
  | newFloat | setFloatUpper | setFloatLower => cases h

/-- The space after several operations, if all of them pass a check and have results. -/
def performAll? (check : Space → Operation → Bool) (s : Space) (os : List Operation) :
    Option Space :=
  os.foldlM (fun s o => if check s o then s.perform? o else none) s

variable {check : Space → Operation → Bool} {s s' : Space} {os : List Operation}

theorem becomes_of_performAll? (h : s.performAll? check os = some s') :
    Relation.ReflTransGen Becomes s s' := by
  induction os generalizing s with
  | nil =>
    cases h
    exact .refl
  | cons o os ih =>
    obtain ⟨s₁, ho, hos⟩ := Option.bind_eq_some_iff.1 h
    exact .head ⟨o, runs_of_perform? (Option.ite_none_right_eq_some.1 ho).2⟩ (ih hos)

theorem Reachable.performAll? {allowed : Space → Operation → Prop} (hs : s.Reachable allowed)
    (hcheck : ∀ s o, check s o = true → allowed s o) (h : s.performAll? check os = some s') :
    s'.Reachable allowed := by
  induction os generalizing s with
  | nil =>
    cases h
    exact hs
  | cons o os ih =>
    obtain ⟨s₁, ho, hos⟩ := Option.bind_eq_some_iff.1 h
    obtain ⟨hpasses, ho⟩ := Option.ite_none_right_eq_some.1 ho
    exact ih (hs.step (hcheck s o hpasses) (runs_of_perform? ho)) hos

end ConstraintSearch.Space
