import Mathlib.Logic.Relation
import ConstraintSearch.Proofs.Locality
import ConstraintSearch.Proofs.State

/-!
# What actions do to a state

Propagators and branchers act on a state by narrowing variables, one after the other, and in no
other way. This holds whatever handles they mention and however they end, and so does everything
that every narrowing keeps.

* `State.Step`: one narrowing of a variable. In a failed state it changes nothing
  (`State.cases_of_narrow`);
* `State.Leads s s'`: narrowings lead from `s` to `s'`;
* `Propagation.Narrows m`: wherever the action `m` ends, narrowings have led there, and none of them
  has failed if the action has a result;
* `Propagation.Acts P m`: besides, the faults of `m` have the property `P`. Propagators that enforce
  a constraint and branchers have local faults only (`Propagator.run_acts`, `Brancher.commit_acts`);
* `Propagation.Gives P m`: whatever the action `m` returns has the property `P`;
* `Propagator.execute_ended` and `Brancher.commit_narrows`: all propagators and all branchers act
  so.
-/

namespace ConstraintSearch

namespace State

variable {s s' s'' : State}

/-- One narrowing of a variable, whatever is reported of it. -/
inductive Step (s : State) : State → Prop
  | restrict {x : IntVar} {relation : Relation} {v : Int} {event : Event} {s' : State}
      (h : s.restrict x relation v = .ok (event, s')) : Step s s'
  | narrowSet {i : Nat} {narrowing : SetDomain → Narrowing SetDomain}
      {condition : SetDomain → Prop} {event : Event} {s' : State}
      (hn : ∀ d : SetDomain, d.Normal →
        Narrowed SetDomain.Normal condition SetDomain.freedom d (narrowing d))
      (h : s.narrowSet i narrowing = .ok (event, s')) : Step s s'
  | narrowFloat {i : Nat} {narrowing : FloatDomain → Narrowing FloatDomain} {event : Event}
      {s' : State} (h : s.narrowFloat i narrowing = .ok (event, s')) : Step s s'

/-- Narrowings lead from one state to the other. -/
def Leads : State → State → Prop := Relation.ReflTransGen Step

theorem Leads.refl (s : State) : s.Leads s := Relation.ReflTransGen.refl

theorem Leads.trans (h : s.Leads s') (h' : s'.Leads s'') : s.Leads s'' :=
  Relation.ReflTransGen.trans h h'

theorem Step.leads (h : s.Step s') : s.Leads s' := Relation.ReflTransGen.single h

/-- A narrowing of a failed state changes nothing. Otherwise the operation is performed on the
store, and its outcome is acted upon. -/
theorem cases_of_narrow {x : VarRef} {operation : Store → Except Fault (Event × Store)}
    {event : Event} (h : s.narrow x operation = .ok (event, s')) :
    s.failed = true ∧ event = .failed ∧ s' = s ∨
      s.failed = false ∧ ∃ store, operation s.store = .ok (event, store) ∧
        s' = { s with store }.notify x event := by
  unfold narrow at h
  cases hf : s.failed with
  | true =>
    rw [hf, if_pos rfl] at h
    cases h
    exact .inl ⟨rfl, rfl, rfl⟩
  | false =>
    rw [hf, if_neg (by decide)] at h
    obtain ⟨⟨event', store⟩, hstore, h⟩ := Yields.exists_of_bind h
    cases h
    exact .inr ⟨rfl, store, hstore, rfl⟩

/-- Unless it fails the state, a notification changes nothing but the queue. -/
theorem notify_eq (s : State) (x : VarRef) {event : Event} (h : event.isFailed = false) :
    ∃ queue, s.notify x event = { s with queue } := by
  unfold notify
  rw [h, if_neg (by decide)]
  split
  · exact (s.woken x event).rest
  · exact ⟨s.queue, rfl⟩

theorem local_narrow (s : State) (x : VarRef) {operation : Store → Except Fault (Event × Store)}
    (h : ∀ s, Local (operation s)) : Local (s.narrow x operation) := by
  unfold narrow
  split
  · exact .pure _
  · exact (h s.store).bind fun _ => .pure _

theorem failed_of_narrow {x : VarRef} {operation : Store → Except Fault (Event × Store)}
    {event : Event} (h : s.narrow x operation = .ok (event, s')) (he : event.isFailed = false) :
    s'.failed = s.failed := by
  rcases cases_of_narrow h with ⟨-, rfl, -⟩ | ⟨-, store, -, rfl⟩
  · cases he
  · obtain ⟨queue, heq⟩ := notify_eq { s with store } x he
    rw [heq]

end State

namespace Propagation

/-- Narrowings have led to the state in which an action has ended, and if the action has a result,
none of them has failed. -/
structure Ended {α : Type} (s : State) (r : Except Inconsistency α × State) : Prop where
  leads : s.Leads r.2
  failed : ∀ a, r.1 = .ok a → r.2.failed = s.failed

theorem Ended.refl {α : Type} (s : State) (outcome : Except Inconsistency α) :
    Ended s (outcome, s) :=
  ⟨State.Leads.refl s, fun _ _ => rfl⟩

theorem Ended.trans {α : Type} {s s' : State} {r : Except Inconsistency α × State}
    (h : s.Leads s') (hfailed : s'.failed = s.failed) (h' : Ended s' r) : Ended s r :=
  ⟨h.trans h'.leads, fun a ha => (h'.failed a ha).trans hfailed⟩

/-- The action does nothing but narrow variables. -/
def Narrows {α : Type} (m : Propagation α) : Prop := ∀ s r, m s = .ok r → Ended s r

/-- The action does nothing but narrow variables, or it ends in a fault with the property `P`. -/
def Acts (P : Fault → Prop) {α : Type} (m : Propagation α) : Prop := ∀ s, Meets P (m s) (Ended s)

namespace Acts

variable {P P' : Fault → Prop} {α β : Type} {m : Propagation α} {f : α → Propagation β}

theorem narrows (h : Acts P m) : m.Narrows := fun s _ hr => (h s).of_ok hr

theorem widen (h : Acts P m) (hP : ∀ fault, P fault → P' fault) : Acts P' m :=
  fun s => (h s).widen hP

theorem pure (a : α) : Acts P (Pure.pure a : Propagation α) := fun s => Ended.refl s _

theorem throw (i : Inconsistency) : Acts P (MonadExcept.throw i : Propagation α) :=
  fun s => Ended.refl s _

theorem fault {fault : Fault} (h : P fault) : Acts P (throwThe Fault fault : Propagation α) :=
  fun _ => h

theorem lift {c : Except Fault α} (h : Meets P c fun _ => True) :
    Acts P (liftM c : Propagation α) := by
  intro s
  cases c with
  | error fault => exact h
  | ok a => exact Ended.refl s _

theorem get : Acts P (MonadState.get : Propagation State) := fun s => Ended.refl s _

theorem bind (hm : Acts P m) (hf : ∀ a, Acts P (f a)) : Acts P (m >>= f) := by
  intro s
  rw [bind_apply]
  refine Meets.bind (hm s) fun r hr => ?_
  obtain ⟨outcome, s'⟩ := r
  cases outcome with
  | error i => exact ⟨hr.leads, fun a ha => by cases ha⟩
  | ok a => exact (hf a s').mono fun _ hr' => .trans hr.leads (hr.failed a rfl) hr'

theorem reading {f : Store → Except Fault α} (h : ∀ s, Meets P (f s) fun _ => True) :
    Acts P (Propagation.reading f) :=
  get.bind fun s => lift (h s.store)

theorem discard (hm : Acts P m) : Acts P (Functor.discard m) := by
  rw [discard_eq_bind]
  exact hm.bind fun _ => pure ()

theorem forM {xs : List α} {g : α → Propagation PUnit} (h : ∀ x, Acts P (g x)) :
    Acts P (xs.forM g) := by
  induction xs with
  | nil => exact pure _
  | cons x xs ih => exact (h x).bind fun _ => ih

theorem foldlM {xs : List α} {g : β → α → Propagation β} (h : ∀ b x, Acts P (g b x)) (b : β) :
    Acts P (xs.foldlM g b) := by
  induction xs generalizing b with
  | nil => exact pure b
  | cons x xs ih => exact (h b x).bind ih

theorem anyM {xs : List α} {g : α → Propagation Bool} (h : ∀ x, Acts P (g x)) :
    Acts P (xs.anyM g) := by
  induction xs with
  | nil => exact pure false
  | cons x xs ih =>
    refine (h x).bind fun b => ?_
    cases b
    · exact ih
    · exact pure true

theorem allM {xs : List α} {g : α → Propagation Bool} (h : ∀ x, Acts P (g x)) :
    Acts P (xs.allM g) := by
  induction xs with
  | nil => exact pure true
  | cons x xs ih =>
    refine (h x).bind fun b => ?_
    cases b
    · exact pure false
    · exact ih

/-! The narrowings are the actions from which all others are composed. -/

theorem narrowing {x : VarRef} {operation : Store → Except Fault (Event × Store)}
    (hoperation : ∀ s, Local (operation s))
    (h : ∀ s event s', s.narrow x operation = .ok (event, s') → State.Step s s') :
    Acts Fault.IsLocal (Propagation.narrowing (·.narrow x operation)) := by
  intro s
  refine Meets.bind (State.local_narrow s x hoperation).self fun r hr => ?_
  obtain ⟨event, s'⟩ := r
  refine ⟨(h s event s' hr.2).leads, fun a ha => State.failed_of_narrow hr.2 ?_⟩
  cases he : event.isFailed with
  | false => rfl
  | true =>
    dsimp only at ha
    rw [he] at ha
    cases ha

theorem restrict (x : IntVar) (relation : Relation) (v : Int) :
    Acts Fault.IsLocal (Propagation.restrict x relation v) :=
  narrowing (x.local_restrict · relation v) fun _ _ _ h => .restrict h

theorem restrictTo (x : IntVar) (values : List Int) :
    Acts Fault.IsLocal (Propagation.restrictTo x values) :=
  (reading x.local_values).bind fun _ =>
    foldlM (fun _ v => (restrict x .notEqual v).bind fun _ => pure _) _

theorem includeElement (set : Nat) (v : Int) :
    Acts Fault.IsLocal (Propagation.includeElement set v) :=
  narrowing (·.local_narrowSet set _) fun _ _ _ h => .narrowSet (fun _ hd => hd.including v) h

theorem excludeElement (set : Nat) (v : Int) :
    Acts Fault.IsLocal (Propagation.excludeElement set v) :=
  narrowing (·.local_narrowSet set _) fun _ _ _ h => .narrowSet (fun _ hd => hd.excluding v) h

theorem setCardinality (set least greatest : Nat) :
    Acts Fault.IsLocal (Propagation.setCardinality set least greatest) :=
  narrowing (·.local_narrowSet set _) fun _ _ _ h =>
    .narrowSet (fun _ hd => hd.withCardinality least greatest) h

theorem setFloatUpper (float : Nat) (v : Float) :
    Acts Fault.IsLocal (Propagation.setFloatUpper float v) :=
  narrowing (·.local_narrowFloat float _) fun _ _ _ h => .narrowFloat h

theorem setFloatLower (float : Nat) (v : Float) :
    Acts Fault.IsLocal (Propagation.setFloatLower float v) :=
  narrowing (·.local_narrowFloat float _) fun _ _ _ h => .narrowFloat h

end Acts

/-! ### Results -/

/-- Whatever the action returns has the property. -/
def Gives {α : Type} (P : α → Prop) (m : Propagation α) : Prop :=
  ∀ s a s', m s = .ok (.ok a, s') → P a

namespace Gives

variable {α β : Type} {m : Propagation α} {f : α → Propagation β} {P : α → Prop} {Q : β → Prop}

theorem pure {a : α} (h : P a) : Gives P (Pure.pure a : Propagation α) := by
  intro s b s' hb
  cases hb
  exact h

theorem throw (i : Inconsistency) : Gives P (MonadExcept.throw i : Propagation α) := by
  intro s b s' h
  cases h

theorem fault (fault : Fault) : Gives P (throwThe Fault fault : Propagation α) := by
  intro s b s' h
  cases h

theorem bind (hm : Gives P m) (hf : ∀ a, P a → Gives Q (f a)) : Gives Q (m >>= f) := by
  intro s b s' h
  rw [bind_apply] at h
  obtain ⟨⟨outcome, s₁⟩, hr, h⟩ := Yields.exists_of_bind h
  cases outcome with
  | error i => cases h
  | ok a => exact hf a (hm s a s₁ hr) s₁ b s' h

theorem mono (h : Gives P m) {R : α → Prop} (hPR : ∀ a, P a → R a) : Gives R m :=
  fun s a s' ha => hPR a (h s a s' ha)

theorem trivial : Gives (fun _ => True) m := fun _ _ _ _ => True.intro

end Gives

end Propagation

open Propagation

/-! ### Propagators -/

theorem NotEquals.run_acts (a b : IntVar) (offset : Int) :
    Acts Fault.IsLocal (NotEquals.run a b offset) := by
  refine (Acts.reading a.local_value?).bind fun v => ?_
  rcases v with _ | v
  · refine (Acts.reading b.local_value?).bind fun v => ?_
    rcases v with _ | v
    · exact .pure _
    · exact (Acts.lift (Word.local_checked _ _)).bind fun _ => (Acts.restrict _ _ _).bind fun _ =>
        .pure _
  · exact (Acts.lift (Word.local_checked _ _)).bind fun _ => (Acts.restrict _ _ _).bind fun _ =>
      .pure _

theorem LessOrEqual.run_acts (a b : IntVar) (offset : Int) :
    Acts Fault.IsLocal (LessOrEqual.run a b offset) :=
  (Acts.reading (b.local_bound · .upper)).bind fun _ =>
    (Acts.lift (Word.local_checked _ _)).bind fun _ => (Acts.restrict _ _ _).bind fun _ =>
    (Acts.reading (a.local_bound · .lower)).bind fun _ =>
    (Acts.lift (Word.local_checked _ _)).bind fun _ => (Acts.restrict _ _ _).bind fun _ =>
    (Acts.reading (a.local_bound · .upper)).bind fun _ =>
    (Acts.lift (Word.local_checked _ _)).bind fun _ =>
    (Acts.reading (b.local_bound · .lower)).bind fun _ => .pure _

theorem FloatAtMost.run_acts (a b : Nat) : Acts Fault.IsLocal (FloatAtMost.run a b) :=
  (Acts.reading (·.floats.local_fetch b)).bind fun _ => (Acts.setFloatUpper _ _).bind fun _ =>
    (Acts.reading (·.floats.local_fetch a)).bind fun _ => (Acts.setFloatLower _ _).bind fun _ =>
    (Acts.reading (·.floats.local_fetch a)).bind fun _ =>
    (Acts.reading (·.floats.local_fetch b)).bind fun _ => .pure _

namespace Linear

theorem cutUpper_acts (slack : Int) (x : IntVar) : Acts Fault.IsLocal (cutUpper slack x) :=
  (Acts.reading (x.local_bound · .lower)).bind fun _ => (Acts.restrict _ _ _).discard

theorem runAtMost_acts (terms : List IntVar) (bound : Int) :
    Acts Fault.IsLocal (runAtMost terms bound) := by
  refine (Acts.reading (local_sum .lower · terms)).bind fun lowers => ?_
  have hrest : Acts Fault.IsLocal (do
      terms.forM (cutUpper (bound - lowers))
      let uppers ← Propagation.reading (sum .upper · terms)
      return if uppers ≤ bound then Verdict.subsumed (α := Propagator) else .fix) :=
    (Acts.forM fun x => cutUpper_acts _ x).bind fun _ =>
      (Acts.reading (local_sum .upper · terms)).bind fun _ => .pure _
  dsimp only
  split
  · exact (Acts.throw _).bind fun _ => hrest
  · exact hrest

theorem tightenTerm_acts (total lowers uppers : Int) (x : IntVar) :
    Acts Fault.IsLocal (tightenTerm total lowers uppers x) :=
  (Acts.reading (x.local_bound · .lower)).bind fun _ =>
    (Acts.reading (x.local_bound · .upper)).bind fun _ => (Acts.restrict _ _ _).bind fun _ =>
    (Acts.restrict _ _ _).bind fun _ => .pure _

theorem tighten_acts (terms : List IntVar) (total : Int) :
    Acts Fault.IsLocal (tighten terms total) := by
  refine (Acts.reading (local_sums · terms)).bind fun r => ?_
  obtain ⟨lowers, uppers⟩ := r
  have hrest : Acts Fault.IsLocal (terms.foldlM
      (fun changed x => return changed || (← tightenTerm total lowers uppers x)) false) :=
    Acts.foldlM (fun _ x => (tightenTerm_acts _ _ _ x).bind fun _ => .pure _) _
  dsimp only
  split
  · exact (Acts.throw _).bind fun _ => hrest
  · exact hrest

theorem tightenAll_acts (terms : List IntVar) (total : Int) (passes : Nat) :
    Acts Fault.IsLocal (tightenAll terms total passes) := by
  induction passes with
  | zero => exact Acts.fault True.intro
  | succ passes ih =>
    refine (tighten_acts terms total).bind fun changed => ?_
    cases changed
    · exact .pure _
    · exact ih

theorem runEqual_acts (terms : List IntVar) (total : Int) :
    Acts Fault.IsLocal (runEqual terms total) :=
  Acts.get.bind fun _ => (tightenAll_acts _ _ _).bind fun _ =>
    (Acts.allM fun x => .reading x.local_isFixed).bind fun _ => .pure _

end Linear

namespace AllDifferent

theorem removeFromOthers_acts (position : Nat) (v : Int) (vars : List (IntVar × Bool)) :
    Acts Fault.IsLocal (removeFromOthers position v vars) := by
  refine Acts.forM fun x => ?_
  dsimp only
  split
  · exact (Acts.restrict _ _ _).discard
  · exact .pure _

theorem process_acts (steps : Nat) (vars : List (IntVar × Bool)) :
    Acts Fault.IsLocal (process steps vars) := by
  induction steps generalizing vars with
  | zero => exact Acts.fault True.intro
  | succ steps ih =>
    refine (Acts.reading (local_firstFixed? · vars 0)).bind fun fixed => ?_
    rcases fixed with _ | ⟨position, v⟩
    · exact .pure _
    · exact (removeFromOthers_acts _ _ _).bind fun _ => ih _

theorem run_acts (vars : List (IntVar × Bool)) : Acts Fault.IsLocal (AllDifferent.run vars) := by
  refine (process_acts _ _).bind fun vars =>
    (Acts.reading fun s => local_firstOpen s _ 3).bind fun left => ?_
  split <;> exact .pure _

end AllDifferent

theorem Clause.run_acts (literals : List IntVar) : Acts Fault.IsLocal (Clause.run literals) := by
  refine (Acts.anyM fun x => (Acts.reading x.local_value?).bind fun _ => .pure _).bind
    fun satisfied => ?_
  cases satisfied with
  | true => exact .pure _
  | false =>
    refine (Acts.reading (local_firstOpen · literals 2)).bind fun left => ?_
    split
    · exact .throw _
    · exact (Acts.restrict _ _ _).bind fun _ => .pure _
    · exact .pure _

namespace SetCardinality

theorem exchange_acts (set : Nat) (cardinality : IntVar) :
    Acts Fault.IsLocal (exchange set cardinality) :=
  (Acts.reading (cardinality.local_bound · .lower)).bind fun _ =>
    (Acts.reading (cardinality.local_bound · .upper)).bind fun _ =>
    (Acts.setCardinality _ _ _).bind fun _ => (Acts.reading (·.sets.local_fetch set)).bind fun _ =>
    (Acts.restrict _ _ _).bind fun _ => (Acts.restrict _ _ _).bind fun _ => .pure _

theorem exchangeAll_acts (set : Nat) (cardinality : IntVar) (passes : Nat) :
    Acts Fault.IsLocal (exchangeAll set cardinality passes) := by
  induction passes with
  | zero => exact Acts.fault True.intro
  | succ passes ih =>
    refine (exchange_acts _ _).bind fun changed => ?_
    cases changed
    · exact .pure _
    · exact ih

theorem run_acts (set : Nat) (cardinality : IntVar) :
    Acts Fault.IsLocal (SetCardinality.run set cardinality) :=
  Acts.get.bind fun _ => (exchangeAll_acts _ _ _).bind fun _ =>
    (Acts.reading (·.sets.local_fetch set)).bind fun _ => .pure _

end SetCardinality

theorem Literal.exclude_acts (l : Literal) : Acts Fault.IsLocal l.exclude := by
  cases l with
  | comparison x relation v =>
    cases relation with
    | equal | notEqual => exact (Acts.restrict _ _ _).discard
    | atMost | atLeast =>
      unfold exclude
      dsimp only
      split
      · exact (Acts.restrict _ _ _).discard
      · exact .throw _
  | membership i v included =>
    cases included
    · exact (Acts.includeElement _ _).discard
    · exact (Acts.excludeElement _ _).discard

namespace NoGoods

theorem excludeAll_acts (literals : List Literal) : Acts Fault.IsLocal (excludeAll literals) := by
  induction literals with
  | nil => exact .pure _
  | cons literal literals ih =>
    refine (Acts.reading literal.local_truth?).bind fun truth => ?_
    rcases truth with _ | _ | _
    · exact (Literal.exclude_acts _).bind fun _ => ih
    · exact ih
    · exact .throw _

theorem settle_acts (levels : List NoGoodLevel) (start : Nat) :
    Acts Fault.IsLocal (NoGoods.settle levels start) := by
  induction levels generalizing start with
  | nil => exact .pure _
  | cons level levels ih =>
    refine (excludeAll_acts _).bind fun _ => ?_
    cases level.taken with
    | none => exact .pure _
    | some taken =>
      refine (Acts.reading taken.local_truth?).bind fun truth => ?_
      rcases truth with _ | _ | _
      · exact .pure _
      · exact .pure _
      · exact ih _

theorem run_acts (levels : List NoGoodLevel) (start : Nat) :
    Acts Fault.IsLocal (NoGoods.run levels start) :=
  (settle_acts _ _).bind fun _ => .pure _

end NoGoods

/-- The run of a propagator does nothing but narrow variables, whatever handles it is given. -/
theorem Propagator.run_acts (p : Propagator) : Acts Fault.IsLocal p.run := by
  cases p with
  | notEquals a b offset => exact (NotEquals.run_acts a b offset).bind fun _ => .pure _
  | lessOrEqual a b offset => exact (LessOrEqual.run_acts a b offset).bind fun _ => .pure _
  | linearAtMost terms bound => exact (Linear.runAtMost_acts terms bound).bind fun _ => .pure _
  | linearEqual terms total => exact (Linear.runEqual_acts terms total).bind fun _ => .pure _
  | allDifferent vars => exact AllDifferent.run_acts vars
  | clause literals => exact (Clause.run_acts literals).bind fun _ => .pure _
  | setCardinality set x => exact (SetCardinality.run_acts set x).bind fun _ => .pure _
  | floatAtMost a b => exact (FloatAtMost.run_acts a b).bind fun _ => .pure _
  | noGoods levels start => exact NoGoods.run_acts levels start
  | scripted script executions => exact .pure _

/-- A view that cannot be built may be mentioned, so that a move may end in any fault. -/
theorem Move.perform_narrows (move : Move) : move.perform.Narrows := by
  have hlift (x : Mention IntVar) : Acts (fun _ => True) (liftM x : Propagation IntVar) := by
    cases x <;> exact Acts.lift True.intro
  cases move with
  | restrict x relation v =>
    exact ((hlift x).bind fun x => (Acts.restrict x relation v).widen fun _ _ => True.intro).narrows
  | restrictTo x values =>
    exact ((hlift x).bind fun x => (Acts.restrictTo x values).widen fun _ _ => True.intro).narrows
  | includeElement set v => exact (Acts.includeElement set v).narrows
  | excludeElement set v => exact (Acts.excludeElement set v).narrows
  | setCardinality set least greatest => exact (Acts.setCardinality set least greatest).narrows
  | setFloatUpper float v => exact (Acts.setFloatUpper float v).narrows
  | setFloatLower float v => exact (Acts.setFloatLower float v).narrows

namespace Script

theorem playMoves_ended (moves : List Move) (s : State) :
    (playMoves moves s).Ensures (Ended s) := by
  induction moves generalizing s with
  | nil => exact Journaled.Ensures.pure (Ended.refl s _)
  | cons move moves ih =>
    refine (Journaled.Ensures.lift (P := Ended s) fun r hr =>
      Move.perform_narrows move s r hr).bind fun r hr => ?_
    obtain ⟨outcome, s₁⟩ := r
    cases outcome with
    | error i =>
      exact Journaled.Ensures.trivial.bind fun _ _ =>
        Journaled.Ensures.pure ⟨hr.leads, fun a ha => by cases ha⟩
    | ok event =>
      exact Journaled.Ensures.trivial.bind fun _ _ =>
        (ih s₁).mono fun _ h => .trans hr.leads (hr.failed event rfl) h

theorem play_ended (script : Script) (number : Nat) (s : State) :
    (script.play number s).Ensures (Ended s) := by
  refine Journaled.Ensures.trivial.bind fun _ _ => ?_
  cases script.runs[number - 1]? with
  | none => exact Journaled.Ensures.pure (Ended.refl s _)
  | some run =>
    obtain ⟨moves, reply⟩ := run
    refine (playMoves_ended moves s).bind fun r hr => ?_
    obtain ⟨outcome, s₁⟩ := r
    dsimp only
    split
    · exact Journaled.Ensures.pure ⟨hr.leads, fun a ha => by cases ha⟩
    · exact Journaled.Ensures.pure ⟨hr.leads, fun a ha => by cases ha⟩
    · exact Journaled.Ensures.pure ⟨hr.leads, fun _ _ => hr.failed () rfl⟩

end Script

/-- The execution of a propagator does nothing but narrow variables. -/
theorem Propagator.execute_ended (p : Propagator) (s : State) :
    (p.execute s).Ensures (Ended s) := by
  cases p with
  | scripted script executions =>
    refine (Script.play_ended script _ s).bind fun r hr => Journaled.Ensures.pure ?_
    obtain ⟨outcome, s₁⟩ := r
    cases outcome with
    | error i => exact ⟨hr.leads, fun a ha => by cases ha⟩
    | ok reply => exact ⟨hr.leads, fun _ _ => hr.failed reply rfl⟩
  | notEquals | lessOrEqual | linearAtMost | linearEqual | allDifferent | clause | setCardinality
  | floatAtMost | noGoods =>
    exact Journaled.Ensures.lift fun r hr => (Propagator.run_acts _).narrows s r hr

/-! ### Branchers -/

theorem IntBrancher.commitEqual_acts (b : IntBrancher) (position : Nat) (x : IntVar) (v : Int)
    (alternative : Nat) : Acts Fault.IsLocal (b.commitEqual position x v alternative) := by
  unfold commitEqual
  split
  · exact (Acts.restrict _ _ _).bind fun _ => .pure _
  · refine (Acts.restrict _ _ _).bind fun _ => (Acts.forM fun image => ?_).bind fun _ => .pure _
    exact (Acts.lift (b.vars.local_fetch image.1)).bind fun _ => (Acts.restrict _ _ _).discard

theorem IntBrancher.commit_acts (b : IntBrancher) (position : Nat) (x : IntVar) (split : Split)
    (alternative : Nat) : Acts Fault.IsLocal (b.commit position x split alternative) := by
  cases split with
  | equal v => exact b.commitEqual_acts position x v alternative
  | atMost v | atLeast v =>
    unfold commit
    dsimp only
    split
    · exact (Acts.restrict _ _ _).discard.bind fun _ => .pure _
    · exact (Acts.lift (Word.local_checked _ _)).bind fun _ =>
        (Acts.restrict _ _ _).discard.bind fun _ => .pure _
  | values vs =>
    exact (Acts.lift (Table.local_fetch _ _)).bind fun _ => (Acts.restrict _ _ _).bind fun _ =>
      .pure _

theorem Brancher.commit_acts (b : Brancher) (decision : Decision) (alternative : Nat) :
    Acts Fault.IsLocal (b.commit decision alternative) := by
  unfold commit
  split
  · exact (IntBrancher.commit_acts _ _ _ _ _).bind fun _ => .pure _
  · split
    · exact (Acts.includeElement _ _).discard.bind fun _ => .pure _
    · exact (Acts.excludeElement _ _).discard.bind fun _ => .pure _
  · split
    · exact (Acts.setFloatUpper _ _).discard.bind fun _ => .pure _
    · exact (Acts.setFloatLower _ _).discard.bind fun _ => .pure _
  · exact .throw _

/-- The commitment to an alternative does nothing but narrow variables. -/
theorem Brancher.commit_narrows (b : Brancher) (decision : Decision) (alternative : Nat) :
    (b.commit decision alternative).Narrows :=
  (b.commit_acts decision alternative).narrows

end ConstraintSearch
