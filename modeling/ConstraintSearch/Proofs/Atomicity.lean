import ConstraintSearch.Proofs.Branching.Brancher
import ConstraintSearch.Proofs.Permanence
import ConstraintSearch.Proofs.Propagator.Rest
import ConstraintSearch.Proofs.Restriction

/-!
# What a failing operation leaves behind

An operation that narrows a variable finds out whether a value is left before it stores anything. If
it reports `Event.failed`, the space has failed and every domain is as it was.

There is one exception. `Space.restrictTo` is made of several narrowings: it removes the values that
are not listed one after the other, and it fails at the last one, when the others are gone.

* `Space.eq_fail_of_restrict`, `Space.eq_fail_of_narrowSet`, …: one narrowing that fails;
* `Propagation.cases_of_removeAll`: how far the removal of several values gets;
* `Space.restrictTo_failed`: what is left where no value is listed is the greatest value of the
  store variable;
* `Space.Reachable.store_of_failed`: the statement about all operations of a client.
-/

namespace ConstraintSearch

/-! ### One narrowing -/

theorem FloatDomain.isFailed_eventTowards (d narrowed : FloatDomain) :
    (d.eventTowards narrowed).isFailed = false := by
  unfold eventTowards
  split
  · rfl
  split <;> rfl

namespace Store

variable {s s' : Store} {i : Nat} {event : Event}

theorem eq_of_narrowInt {narrowing : IntDomain → Narrowing IntDomain}
    (h : s.narrowInt i narrowing = .ok (event, s')) (he : event.isFailed = true) : s' = s := by
  obtain ⟨-, ⟨-, rfl⟩ | ⟨d, -, rfl, -⟩⟩ := cases_of_narrowInt h
  · rfl
  · rw [IntDomain.isFailed_eventTowards] at he
    cases he

theorem eq_of_narrowSet {narrowing : SetDomain → Narrowing SetDomain}
    (h : s.narrowSet i narrowing = .ok (event, s')) (he : event.isFailed = true) : s' = s := by
  obtain ⟨-, ⟨-, rfl⟩ | ⟨d, -, rfl, -⟩⟩ := cases_of_narrowSet h
  · rfl
  · rw [SetDomain.isFailed_eventTowards] at he
    cases he

theorem eq_of_narrowFloat {narrowing : FloatDomain → Narrowing FloatDomain}
    (h : s.narrowFloat i narrowing = .ok (event, s')) (he : event.isFailed = true) : s' = s := by
  obtain ⟨d, -, h⟩ := Yields.exists_of_bind h
  split at h <;> cases h
  · rfl
  · rfl
  · rw [FloatDomain.isFailed_eventTowards] at he
    cases he

end Store

theorem IntVar.eq_of_restrict {x : IntVar} {relation : Relation} {v : Int} {s s' : Store}
    {event : Event} (h : x.restrict relation v s = .ok (event, s')) (he : event.isFailed = true) :
    s' = s := by
  obtain ⟨pulled, -, h⟩ := Yields.exists_of_bind h
  cases pulled with
  | root i relation' w => exact Store.eq_of_narrowInt h he
  | never | always =>
    cases h
    rfl

/-- If an operation on the store leaves it alone where it fails, narrowing by it fails the state and
does nothing else. -/
theorem State.eq_fail_of_narrow {s s' : State} {x : VarRef}
    {operation : Store → Except Fault (Event × Store)} {event : Event}
    (h : s.narrow x operation = .ok (event, s')) (he : event.isFailed = true)
    (halive : s.failed = false)
    (hsame : ∀ store, operation s.store = .ok (event, store) → store = s.store) :
    s' = s.fail := by
  rcases State.cases_of_narrow h with ⟨hfailed, -, -⟩ | ⟨-, store, hstore, rfl⟩
  · rw [halive] at hfailed
    cases hfailed
  · obtain rfl := hsame store hstore
    exact if_pos he

namespace Space

variable {s s' : Space} {event : Event}

theorem eq_fail_of_restrict {x : IntVar} {relation : Relation} {v : Int}
    (h : s.restrict x relation v = .ok (event, s')) (he : event.isFailed = true)
    (halive : s.isFailed = false) : s' = s.fail := by
  obtain ⟨⟨event', state⟩, hstate, h⟩ := Yields.exists_of_bind h
  cases h
  rw [State.eq_fail_of_narrow hstate he halive fun _ hstore => IntVar.eq_of_restrict hstore he]
  rfl

theorem eq_fail_of_narrowSet {i : Nat} {narrowing : SetDomain → Narrowing SetDomain}
    (h : s.narrowSet i narrowing = .ok (event, s')) (he : event.isFailed = true)
    (halive : s.isFailed = false) : s' = s.fail := by
  obtain ⟨⟨event', state⟩, hstate, h⟩ := Yields.exists_of_bind h
  cases h
  rw [State.eq_fail_of_narrow hstate he halive fun _ hstore => Store.eq_of_narrowSet hstore he]
  rfl

theorem eq_fail_of_narrowFloat {i : Nat} {narrowing : FloatDomain → Narrowing FloatDomain}
    (h : s.narrowFloat i narrowing = .ok (event, s')) (he : event.isFailed = true)
    (halive : s.isFailed = false) : s' = s.fail := by
  obtain ⟨⟨event', state⟩, hstate, h⟩ := Yields.exists_of_bind h
  cases h
  rw [State.eq_fail_of_narrow hstate he halive fun _ hstore => Store.eq_of_narrowFloat hstore he]
  rfl

end Space

/-! ### Several removals -/

/-- A value can only be removed through views that tell values apart. -/
theorem IntVar.proper_of_pull {x : IntVar} {u : Int} {p : Pulled}
    (h : x.pull .notEqual (x.eval u) = .ok p) : x.Proper := by
  induction x generalizing p with
  | root i => trivial
  | bool inner ih => exact ih h
  | affine inner scale offset ih =>
    obtain ⟨r, hr, h⟩ := Yields.exists_of_bind h
    obtain ⟨w, hw, hr⟩ := Yields.exists_of_bind hr
    cases hr
    have hscale : scale ≠ 0 := by
      obtain ⟨difference, -, hw⟩ := Yields.exists_of_bind hw
      obtain ⟨remainder, hremainder, -⟩ := Yields.exists_of_bind hw
      rintro rfl
      cases hremainder
    have hpreimage := (yields_preimage (.inl hscale) offset _ : Yields False _ _).of_ok hw
    cases w with
    | none => exact absurd rfl (hpreimage (inner.eval u))
    | some w =>
      obtain rfl := (hpreimage (inner.eval u)).2 rfl
      exact ⟨hscale, ih h⟩

namespace Propagation

variable {s s' : State} {x : IntVar}

/-- Remove several values of `x`, and tell the strongest event of all. -/
def removeAll (x : IntVar) (vs : List Int) (event : Event) : Propagation Event :=
  vs.foldlM (fun strongest v => return strongest.strongest (← remove x v)) event

/-- The domain `d` is what is left of the variable after the removal of `vs`. -/
structure Removed (s : State) (x : IntVar) (vs : List Int) (d : IntDomain) : Prop where
  canonical : d.Canonical
  mem : ∀ u, u ∈ d ↔ u ∈ s.store.box.ints x.index ∧ x.eval u ∉ vs

/-- Some removal was the first to fail. The values before it are gone, and it was to remove the
only value that was left. -/
structure Exhausted (s : State) (x : IntVar) (vs : List Int) (s' : State) : Prop where
  failed : s'.failed = true
  split : ∃ us v rest d, vs = us ++ v :: rest ∧ Removed s x us d ∧ (∀ u ∈ d, x.eval u = v) ∧
    s'.store = s.store.withInt x.index d ∧ ∃ p, x.pull .notEqual v = .ok p

theorem strongest_of_alive {e other : Event} (he : e.isFailed = false)
    (hother : other.isFailed = false) : (e.strongest other).isFailed = false := by
  unfold Event.strongest
  split <;> assumption

/-- After the removal of a value, others were removed. -/
theorem Removed.cons {v : Int} {vs : List Int} {d e : IntDomain} (hx : x.index < s.store.ints.size)
    (hd : ∀ u, u ∈ d ↔ u ∈ s.store.box.ints x.index ∧ x.eval u ≠ v)
    (hstore : s'.store = s.store.withInt x.index d) (h : Removed s' x vs e) :
    Removed s x (v :: vs) e where
  canonical := h.canonical
  mem u := by
    rw [h.mem, hstore, Store.box_withInt hx, hd, List.mem_cons, not_or, and_assoc]

/-- Removals that have a result do not report a failure; the others have failed at some value. -/
theorem cases_of_removeAll (hs : s.Ready) (hx : x.index < s.store.ints.size) (vs : List Int)
    {event : Event} (he : event.isFailed = false) {outcome : Except Inconsistency Event}
    (h : removeAll x vs event s = .ok (outcome, s')) :
    (∃ event', outcome = .ok event' ∧ event'.isFailed = false) ∨ Exhausted s x vs s' := by
  induction vs generalizing s event with
  | nil =>
    cases h
    exact .inl ⟨event, rfl, he⟩
  | cons v vs ih =>
    unfold removeAll at h
    rw [List.foldlM_cons, bind_assoc, bind_apply] at h
    obtain ⟨r, hr, h⟩ := Yields.exists_of_bind h
    obtain ⟨⟨event', s₁⟩, hrestrict, hr⟩ := Yields.exists_of_bind hr
    cases hr
    rcases State.cases_of_restrict hs hx hrestrict with
      ⟨rfl, rfl, hnone⟩ | ⟨he', halive, d, hcanonical, hd, hstore⟩
    · -- The first removal fails.
      cases h
      refine .inr ⟨rfl, [], v, vs, s.store.box.ints x.index, rfl, ?_, ?_, ?_, ?_⟩
      · exact ⟨hs.sound.box.canonical _, fun u => by simp⟩
      · exact fun u hu => not_not.1 (hnone u hu)
      · exact (Store.withInt_box hx).symm
      · exact (State.exists_restrict_iff hs.alive hx).1 ⟨_, hrestrict⟩
    · rw [he'] at h
      have hready : s₁.Ready := by
        refine ⟨halive, ?_⟩
        rw [hstore]
        exact hs.sound.withInt hx hcanonical fun u hu => ((hd u).1 hu).1
      have hx₁ : x.index < s₁.store.ints.size := by rwa [hstore, Store.size_withInt]
      refine (ih hready hx₁ (strongest_of_alive he he') h).imp_right fun hrest => ?_
      obtain ⟨hfailed, us, w, rest, e, rfl, hremoved, hw, heq, hp⟩ := hrest
      refine ⟨hfailed, v :: us, w, rest, e, rfl, hremoved.cons hx hd hstore, hw, ?_, hp⟩
      rw [heq, hstore, Store.withInt_withInt]

/-- If all values but those of a list are removed one after the other, and at one of them nothing
else is left, then no value is listed, and the one that is left is the greatest. -/
theorem Removed.eq_singleton {values us rest : List Int} {v : Int} {e : IntDomain}
    (hc : (s.store.box.ints x.index).Canonical) (hx : Function.Injective x.eval)
    (hsplit : ((s.store.box.ints x.index).values.map x.eval).filter (!values.contains ·) =
      us ++ v :: rest)
    (h : Removed s x us e) (hv : ∀ u ∈ e, x.eval u = v) :
    (∀ u ∈ s.store.box.ints x.index, x.eval u ∉ values) ∧
      e = .singleton (s.store.box.ints x.index).max := by
  have hmem := h.mem
  generalize s.store.box.ints x.index = d at *
  rw [List.filter_map] at hsplit
  obtain ⟨before, behind, hfilter, rfl, hbehind⟩ := List.map_eq_append_iff.1 hsplit
  obtain ⟨b, after, rfl, rfl, -⟩ := List.map_eq_cons_iff.1 hbehind
  -- Every value comes before `b` in the list of those that are to be removed, or is `b`.
  have hcases {u : Int} (hu : u ∈ d) : u ∈ before ∨ u = b := by
    by_cases hmap : x.eval u ∈ before.map x.eval
    · obtain ⟨w, hw, heq⟩ := List.mem_map.1 hmap
      exact .inl (hx heq ▸ hw)
    · exact .inr (hx (hv u ((hmem u).2 ⟨hu, hmap⟩)))
  have hremoved {u : Int} (hu : u ∈ before ++ b :: after) : u ∈ d ∧ x.eval u ∉ values := by
    rw [← hfilter, List.mem_filter, IntDomain.mem_values] at hu
    exact ⟨hu.1, by simpa using hu.2⟩
  have hb : b ∈ d := (hremoved (by simp)).1
  have hlt {u : Int} (hu : u ∈ before) : u < b := by
    have hsorted := hc.pairwise_values.filter ((!values.contains ·) ∘ x.eval)
    change List.Pairwise (· < ·) (d.values.filter _) at hsorted
    rw [hfilter, List.pairwise_append] at hsorted
    exact hsorted.2.2 u hu b (by simp)
  refine ⟨fun u hu => (hremoved ?_).2, ?_⟩
  · rcases hcases hu with hu | rfl
    · exact List.mem_append_left _ hu
    · simp
  have hmax : d.max = b := by
    refine le_antisymm ?_ (hc.le_max hb)
    rcases hcases hc.max_mem with hu | hu
    · exact (hlt hu).le
    · exact hu.le
  refine h.canonical.ext (IntDomain.canonical_singleton _) fun u => ?_
  rw [hmem, IntDomain.mem_singleton, hmax, List.mem_map_of_injective hx]
  constructor
  · exact fun hu => (hcases hu.1).resolve_left hu.2
  · rintro rfl
    exact ⟨hb, fun hu => lt_irrefl _ (hlt hu)⟩

/-- To keep listed values of `x` is to remove the others. -/
theorem restrictTo_apply {values : List Int} {r : Except Inconsistency Event × State}
    (h : restrictTo x values s = .ok r) :
    x.index < s.store.ints.size ∧ removeAll x
      (((s.store.box.ints x.index).values.map x.eval).filter (!values.contains ·)) .none s =
        .ok r := by
  change (reading x.values >>= fun vs =>
    removeAll x (vs.filter (!values.contains ·)) .none) s = .ok r at h
  rw [bind_apply] at h
  obtain ⟨q, hq, h⟩ := Yields.exists_of_bind h
  cases hvs : x.values s.store with
  | error fault =>
    have hfault : reading x.values s = .error fault := by
      show (liftM (x.values s.store) : Propagation _) s = _
      rw [hvs]
      rfl
    rw [hfault] at hq
    cases hq
  | ok vs =>
    rw [reading_of_ok hvs] at hq
    cases hq
    obtain ⟨d, hd, -⟩ := Yields.exists_of_bind hvs
    have hx : x.index < s.store.ints.size := Table.lt_of_fetch hd
    obtain rfl := (IntVar.yields_values (δ := True) hx).of_ok hvs
    exact ⟨hx, h⟩

end Propagation

/-! ### Operations -/

namespace Space

variable {s s' : Space} {x : IntVar} {values : List Int}

/-- What is left where no listed value is a value of `x`: the space has failed, and of the values of
the store variable the greatest is left. -/
theorem restrictTo_failed (hs : s.state.Ready) (h : s.restrictTo x values = .ok (.failed, s')) :
    s'.isFailed = true ∧ ∃ d, s.store.int x.index = .ok d ∧ (∀ u ∈ d, x.eval u ∉ values) ∧
      s'.store = s.store.withInt x.index (.singleton d.max) := by
  obtain ⟨⟨outcome, state⟩, hrun, h⟩ := Yields.exists_of_bind h
  obtain ⟨hx, hremove⟩ := Propagation.restrictTo_apply hrun
  have hcases := Propagation.cases_of_removeAll hs hx _ rfl hremove
  obtain ⟨hfailed, us, v, rest, e, hsplit, hremoved, hv, hstore, p, hp⟩ :
      Propagation.Exhausted s.state x _ state := by
    refine hcases.resolve_left ?_
    rintro ⟨event, rfl, he⟩
    cases h
    cases he
  have heq : s' = { s with state } := by
    cases outcome <;> cases h <;> rfl
  subst heq
  have hinjective : Function.Injective x.eval := by
    obtain ⟨u, -, rfl⟩ : ∃ u ∈ (s.store.box.ints x.index).values, x.eval u = v := by
      have hmem : v ∈ us ++ v :: rest := by simp
      rw [← hsplit] at hmem
      exact List.mem_map.1 (List.mem_filter.1 hmem).1
    exact (IntVar.proper_of_pull hp).injective
  obtain ⟨hnone, rfl⟩ :=
    hremoved.eq_singleton (hs.sound.box.canonical _) hinjective hsplit hv
  exact ⟨hfailed, _, Store.int_of_lt hx, hnone, hstore⟩

/-- The operation narrows a variable of `s`, reports the event, and leads to `s'`. -/
def Operation.Reports (s : Space) (event : Event) (s' : Space) : Operation → Prop
  | restrict x relation v => s.restrict x relation v = .ok (event, s')
  | restrictBelow x v => s.restrictBelow x v = .ok (event, s')
  | restrictAbove x v => s.restrictAbove x v = .ok (event, s')
  | restrictTo x values => s.restrictTo x values = .ok (event, s')
  | includeElement set v => s.narrowSet set (·.including v) = .ok (event, s')
  | excludeElement set v => s.narrowSet set (·.excluding v) = .ok (event, s')
  | boundCardinality set least greatest =>
      s.narrowSet set (·.withCardinality least greatest) = .ok (event, s')
  | setFloatUpper float v => s.narrowFloat float (·.withUpper v) = .ok (event, s')
  | setFloatLower float v => s.narrowFloat float (·.withLower v) = .ok (event, s')
  | _ => False

/-- An operation that is one narrowing does nothing where it fails but fail the space. -/
theorem Operation.Reports.eq_fail {o : Operation} (h : o.Reports s .failed s')
    (halive : s.isFailed = false) (ho : ∀ x values, o ≠ .restrictTo x values) : s' = s.fail := by
  cases o with
  | restrict x relation v => exact eq_fail_of_restrict h rfl halive
  | restrictBelow x v =>
    change s.restrictBelow x v = .ok (.failed, s') at h
    unfold Space.restrictBelow at h
    split at h
    · exact eq_fail_of_restrict h rfl halive
    · cases h
      rfl
  | restrictAbove x v =>
    change s.restrictAbove x v = .ok (.failed, s') at h
    unfold Space.restrictAbove at h
    split at h
    · exact eq_fail_of_restrict h rfl halive
    · cases h
      rfl
  | restrictTo x values => exact absurd rfl (ho x values)
  | includeElement | excludeElement | boundCardinality =>
    exact eq_fail_of_narrowSet h rfl halive
  | setFloatUpper | setFloatLower => exact eq_fail_of_narrowFloat h rfl halive
  | _ => exact h.elim

/-- **What failing operations leave behind.** If an operation that narrows a variable of a space
reports a failure, the space has failed and its domains are as they were. To keep listed values of a
variable is different: it fails if none of them is left, and then of the domain of the store
variable the greatest value is left, so that this domain is as it was if it held nothing else. -/
theorem Reachable.store_of_failed {allowed : Space → Operation → Prop} (h : s.Reachable allowed)
    (halive : s.isFailed = false) {o : Operation} (ho : o.Reports s .failed s') :
    s'.isFailed = true ∧ ((∀ x values, o ≠ .restrictTo x values) → s'.store = s.store) ∧
      ∀ x values, o = .restrictTo x values → ∃ d, s.store.int x.index = .ok d ∧
        (∀ u ∈ d, x.eval u ∉ values) ∧ s'.store = s.store.withInt x.index (.singleton d.max) ∧
        (s'.store = s.store ↔ d.isAssigned = true) := by
  have hs : s.state.Ready := ⟨halive, h.in_order.1⟩
  by_cases hto : ∃ x values, o = .restrictTo x values
  · obtain ⟨x, values, rfl⟩ := hto
    obtain ⟨hfailed, d, hd, hnone, hstore⟩ := restrictTo_failed hs ho
    refine ⟨hfailed, fun hne => absurd rfl (hne x values), ?_⟩
    rintro x values ⟨⟩
    refine ⟨d, hd, hnone, hstore, ?_⟩
    rw [hstore]
    exact Store.withInt_max_eq_iff hs.sound hd
  · push Not at hto
    obtain rfl := ho.eq_fail halive hto
    exact ⟨rfl, fun _ => rfl, fun x values heq => absurd heq (hto x values)⟩

/-- A view with the values -5, -3 and -1 is asked for 0 or 2: it fails, and the greatest of the
three values of the store variable is left. -/
theorem Reachable.store_of_failed_unlisted :
    ∃ s s' : Space, s.Reachable (fun _ _ => True) ∧ s.isFailed = false ∧
      s.restrictTo (.affine (.root 0) (-2) 1) [0, 2] = .ok (.failed, s') ∧
      s'.isFailed = true ∧ ∃ d, s.store.int 0 = .ok d ∧
        s'.store = s.store.withInt 0 (.singleton d.max) ∧ s'.store ≠ s.store := by
  have hrun : ((ofPolicy .costOrdered).performAll? (fun _ _ => true) [.newInt 1 3]).any (fun s =>
      (s.restrictTo (.affine (.root 0) (-2) 1) [0, 2]).toOption.any fun r =>
        decide (s.isFailed = false ∧ r.1 = .failed ∧
          (s.store.int 0).toOption.any (·.isAssigned) = false)) = true := by
    decide +kernel
  obtain ⟨s, hs, hrun⟩ := (Option.any_eq_true ..).1 hrun
  obtain ⟨⟨event, s'⟩, hr, hrun⟩ := (Option.any_eq_true ..).1 hrun
  obtain ⟨halive, rfl, hopen⟩ := of_decide_eq_true hrun
  have hreachable : s.Reachable fun _ _ => True :=
    (Reachable.empty .costOrdered).performAll? (fun _ _ _ => trivial) hs
  have hreports : (Operation.restrictTo (.affine (.root 0) (-2) 1) [0, 2]).Reports s .failed s' :=
    ok_of_toOption hr
  obtain ⟨hfailed, -, hto⟩ := hreachable.store_of_failed halive hreports
  obtain ⟨d, hd, -, hstore, hiff⟩ := hto _ _ rfl
  change s.store.int 0 = .ok d at hd
  have hopen : d.isAssigned = false := by
    rw [hd] at hopen
    exact hopen
  refine ⟨s, s', hreachable, halive, hreports, hfailed, d, hd, hstore, fun heq => ?_⟩
  rw [hiff.1 heq] at hopen
  cases hopen

/-- A variable with the values 1, 2 and 3 that is asked for none of any values loses two of them. -/
theorem exists_domain_lost_in_failure :
    ∃ s s' : Space, s.Reachable (fun _ _ => True) ∧ s.isFailed = false ∧
      s.restrictTo (.root 0) [] = .ok (.failed, s') ∧
      (s.store.int 0).toOption = IntDomain.ofInterval? 1 3 ∧
      (s'.store.int 0).toOption = IntDomain.ofInterval? 3 3 := by
  have hrun : ((ofPolicy .costOrdered).performAll? (fun _ _ => true) [.newInt 1 3]).any (fun s =>
      (s.restrictTo (.root 0) []).toOption.any fun r =>
        decide (s.isFailed = false ∧ r.1 = .failed ∧
          (s.store.int 0).toOption = IntDomain.ofInterval? 1 3 ∧
          (r.2.store.int 0).toOption = IntDomain.ofInterval? 3 3)) = true := by
    decide +kernel
  obtain ⟨s, hs, hrun⟩ := (Option.any_eq_true ..).1 hrun
  obtain ⟨⟨event, s'⟩, hr, hrun⟩ := (Option.any_eq_true ..).1 hrun
  obtain ⟨halive, rfl, hbefore, hafter⟩ := of_decide_eq_true hrun
  exact ⟨s, s', (Reachable.empty .costOrdered).performAll? (fun _ _ _ => trivial) hs, halive,
    ok_of_toOption hr, hbefore, hafter⟩

end Space

end ConstraintSearch
