import ConstraintSearch.Proofs.Narrowing

/-!
# What one restriction does

A restriction of a variable has a result if it can be carried back to the store variable. It fails
where no value stands in the relation, and otherwise replaces one domain by the values that do.

* `Store.withInt`: the store with another domain for one variable;
* `IntVar.cases_of_restrict`, `State.cases_of_restrict`: the two outcomes of a restriction;
* `State.exists_restrict_iff`: whether there is an outcome.
-/

namespace ConstraintSearch

theorem IntDomain.isFailed_eventTowards (d narrowed : IntDomain) :
    (d.eventTowards narrowed).isFailed = false := by
  unfold eventTowards
  split
  · rfl
  split
  · rfl
  split <;> rfl

/-- A domain that is narrowed to the values with a property. -/
theorem IntDomain.mem_of_narrowed {d : IntDomain} {P : Int → Prop} :
    ∀ {n : Narrowing IntDomain}, Narrowed Canonical (fun e => ∀ w ∈ e, P w) size d n →
      match n with
      | .unchanged => ∀ w ∈ d, P w
      | .empty => ∀ w ∈ d, ¬P w
      | .changed e => e.Canonical ∧ ∀ w, w ∈ e ↔ w ∈ d ∧ P w := by
  have hle {w : Int} (hw : w ∈ d) : singleton w ≤ d := fun u hu => mem_singleton.1 hu ▸ hw
  have hall {w : Int} (hw : P w) : ∀ u ∈ singleton w, P u := fun u hu => mem_singleton.1 hu ▸ hw
  rintro (_ | _ | e) h
  · exact h
  · exact fun w hw hP => h _ (canonical_singleton w) (hle hw) (hall hP)
  · obtain ⟨hcanonical, hsub, he, -, hgreatest⟩ := h
    refine ⟨hcanonical, fun w => ⟨fun hw => ⟨hsub w hw, he w hw⟩, fun ⟨hw, hP⟩ => ?_⟩⟩
    exact hgreatest _ (canonical_singleton w) (hle hw) (hall hP) w (mem_singleton.2 rfl)

theorem Table.set_set {α : Type} (t : Table α) (i : Nat) (a b : α) :
    (t.set i a).set i b = t.set i b := by
  simp only [Table.set, Array.setIfInBounds_setIfInBounds]

namespace Store

/-- The store with another domain for an integer variable. -/
def withInt (s : Store) (i : Nat) (d : IntDomain) : Store := { s with ints := s.ints.set i d }

variable {s : Store} {i : Nat}

theorem withInt_self {d : IntDomain} (hd : s.int i = .ok d) : s.withInt i d = s := by
  unfold withInt
  rw [Table.set_of_get? (Table.fetch_eq_ok.1 hd)]

theorem withInt_box (hi : i < s.ints.size) : s.withInt i (s.box.ints i) = s :=
  withInt_self (int_of_lt hi)

@[simp]
theorem withInt_withInt (d e : IntDomain) : (s.withInt i d).withInt i e = s.withInt i e := by
  unfold withInt
  rw [Table.set_set]

@[simp]
theorem size_withInt (d : IntDomain) : (s.withInt i d).ints.size = s.ints.size :=
  Table.size_set ..

theorem box_withInt (hi : i < s.ints.size) (d : IntDomain) : (s.withInt i d).box.ints i = d := by
  rw [withInt, box_set_int hi, if_pos rfl]

theorem Sound.withInt (hs : s.Sound) (hi : i < s.ints.size) {d : IntDomain} (hd : d.Canonical)
    (hle : d ≤ s.box.ints i) : (s.withInt i d).Sound := by
  refine ⟨⟨fun j => ?_, hs.box.normal⟩, fun j v hv => ?_⟩
  · rw [Store.withInt, box_set_int hi]
    split
    · exact hd
    · exact hs.box.canonical j
  · rw [Store.withInt, box_set_int hi] at hv
    split at hv
    · exact hs.fits i v (hle v hv)
    · exact hs.fits j v hv

/-- A domain that is replaced by its greatest value is as it was if it held nothing else. -/
theorem withInt_max_eq_iff (hs : s.Sound) {d : IntDomain} (hd : s.int i = .ok d) :
    s.withInt i (.singleton d.max) = s ↔ d.isAssigned = true := by
  have hi : i < s.ints.size := Table.lt_of_fetch hd
  obtain rfl := Except.ok.inj ((int_of_lt hi).symm.trans hd)
  have hc := hs.box.canonical i
  constructor
  · intro heq
    have hbox := box_withInt hi (.singleton (s.box.ints i).max)
    rw [heq] at hbox
    rw [hbox]
    exact (IntDomain.canonical_singleton _).isAssigned_iff.2 rfl
  · intro ha
    rw [← hc.isAssigned_iff.1 ha, ← hc.eq_singleton ha]
    exact withInt_box hi

end Store

/-- A restriction of `x` fails where no value stands in the relation. Otherwise it replaces the
domain by the values that do, and changes nothing else. -/
theorem IntVar.cases_of_restrict {x : IntVar} {relation : Relation} {v : Int} {s s' : Store}
    {event : Event} (hs : s.Sound) (hx : x.index < s.ints.size)
    (h : x.restrict relation v s = .ok (event, s')) :
    event = .failed ∧ s' = s ∧ (∀ u ∈ s.box.ints x.index, ¬relation.Holds (x.eval u) v) ∨
      event.isFailed = false ∧ ∃ d : IntDomain, d.Canonical ∧
        (∀ u, u ∈ d ↔ u ∈ s.box.ints x.index ∧ relation.Holds (x.eval u) v) ∧
        s' = s.withInt x.index d := by
  have hc := hs.box.canonical x.index
  have hunchanged (hall : ∀ u ∈ s.box.ints x.index, relation.Holds (x.eval u) v) :
      ∃ d : IntDomain, d.Canonical ∧
        (∀ u, u ∈ d ↔ u ∈ s.box.ints x.index ∧ relation.Holds (x.eval u) v) ∧
        s = s.withInt x.index d :=
    ⟨_, hc, fun u => ⟨fun hu => ⟨hu, hall u hu⟩, And.left⟩, (Store.withInt_box hx).symm⟩
  obtain ⟨pulled, hpulled, h⟩ := Yields.exists_of_bind h
  have hmeans := ((yields_pull (.inr trivial) relation v : Yields True _ _).of_ok hpulled).1
  cases pulled with
  | root i relation' w =>
    obtain ⟨rfl, hiff⟩ := hmeans
    have hnarrowed := IntDomain.mem_of_narrowed (hc.restrict relation' w)
    simp only [hiff] at hnarrowed
    obtain ⟨d, hd, h⟩ := Yields.exists_of_bind h
    obtain rfl := Except.ok.inj ((Store.int_of_lt hx).symm.trans hd)
    dsimp only at h
    cases hcase : (s.box.ints x.index).restrict relation' w with
    | unchanged =>
      rw [hcase] at h hnarrowed
      cases h
      exact .inr ⟨rfl, hunchanged hnarrowed⟩
    | empty =>
      rw [hcase] at h hnarrowed
      cases h
      exact .inl ⟨rfl, rfl, hnarrowed⟩
    | changed d =>
      rw [hcase] at h hnarrowed
      cases h
      exact .inr ⟨IntDomain.isFailed_eventTowards _ _, d, hnarrowed.1, hnarrowed.2, rfl⟩
  | never =>
    cases h
    exact .inl ⟨rfl, rfl, fun u _ => hmeans u⟩
  | always =>
    cases h
    exact .inr ⟨rfl, hunchanged fun u _ => hmeans u⟩

/-- The same of a state that has not failed. -/
theorem State.cases_of_restrict {s s' : State} {x : IntVar} {relation : Relation} {v : Int}
    {event : Event} (hs : s.Ready) (hx : x.index < s.store.ints.size)
    (h : s.restrict x relation v = .ok (event, s')) :
    event = .failed ∧ s' = s.fail ∧
        (∀ u ∈ s.store.box.ints x.index, ¬relation.Holds (x.eval u) v) ∨
      event.isFailed = false ∧ s'.failed = false ∧ ∃ d : IntDomain, d.Canonical ∧
        (∀ u, u ∈ d ↔ u ∈ s.store.box.ints x.index ∧ relation.Holds (x.eval u) v) ∧
        s'.store = s.store.withInt x.index d := by
  rcases cases_of_narrow h with ⟨hfailed, -, -⟩ | ⟨-, store, hstore, rfl⟩
  · rw [hs.alive] at hfailed
    cases hfailed
  · rcases IntVar.cases_of_restrict hs.sound hx hstore with ⟨rfl, rfl, hnone⟩ | ⟨he, d, hd⟩
    · exact .inl ⟨rfl, rfl, hnone⟩
    · obtain ⟨queue, heq⟩ := notify_eq { s with store } x.ref he
      rw [heq]
      exact .inr ⟨he, hs.alive, d, hd⟩

/-- A restriction has a result if and only if it can be carried back to the store. -/
theorem State.exists_restrict_iff {s : State} {x : IntVar} {relation : Relation} {v : Int}
    (halive : s.failed = false) (hx : x.index < s.store.ints.size) :
    (∃ r, s.restrict x relation v = .ok r) ↔ ∃ p, x.pull relation v = .ok p := by
  constructor
  · rintro ⟨r, h⟩
    obtain ⟨-, store, hstore, -⟩ := (cases_of_narrow h).resolve_left fun hf => by
      rw [halive] at hf
      cases hf.1
    obtain ⟨p, hp, -⟩ := Yields.exists_of_bind hstore
    exact ⟨p, hp⟩
  · rintro ⟨p, hp⟩
    have hmeans := ((IntVar.yields_pull (.inr trivial) relation v : Yields True _ _).of_ok hp).1
    obtain ⟨r, hr⟩ : ∃ r, x.restrict relation v s.store = .ok r := by
      unfold IntVar.restrict
      rw [hp]
      cases p with
      | root i relation' w =>
        obtain ⟨rfl, -⟩ := hmeans
        show ∃ r, s.store.narrowInt x.index _ = .ok r
        unfold Store.narrowInt
        rw [Store.int_of_lt hx]
        simp only [bind, Except.bind]
        split <;> exact ⟨_, rfl⟩
      | never | always => exact ⟨_, rfl⟩
    unfold restrict narrow
    rw [if_neg (by simp [halive]), hr]
    exact ⟨_, rfl⟩

end ConstraintSearch
