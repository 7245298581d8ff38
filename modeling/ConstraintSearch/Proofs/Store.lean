import Mathlib.Data.List.Basic
import ConstraintSearch.Store
import ConstraintSearch.Proofs.Faults
import ConstraintSearch.Proofs.Domain.SetDomain

/-!
# Boxes and stores

A box assigns a domain to every variable. It is what a store says about its variables, without the
tables: statements about the domains to which propagation may lead are statements about boxes.

* `Store.box` is the box of a store, `Box.Within` says that a box lies below the domains of a store;
* `Store.Sound`: the domains of a store are canonical, and their values are words;
* `Store.Narrows s s'`: from `s` to `s'` domains have only become smaller;
* `Store.cases_of_narrowInt` and `Store.cases_of_narrowSet` say what one narrowing comes to;
* `Store.NarrowedTo` is the law of one narrowing: the new store is the greatest below the old one
  that satisfies the condition. `yields_narrowInt` and `yields_narrowSet` prove it.
-/

namespace ConstraintSearch

/-- A domain for every variable. -/
structure Box where
  ints : Nat → IntDomain
  sets : Nat → SetDomain

/-- The domains are canonical. -/
structure Box.Sound (F : Box) : Prop where
  canonical : ∀ i, (F.ints i).Canonical
  normal : ∀ i, (F.sets i).Normal

namespace Store

/-- The domains of a store; a variable that does not exist has an arbitrary one. -/
def box (s : Store) : Box where
  ints i := (s.ints.get? i).getD default
  sets i := (s.sets.get? i).getD default

/-- The domains are canonical, and the values of integer variables are words. -/
structure Sound (s : Store) : Prop where
  box : s.box.Sound
  fits : ∀ i, ∀ v ∈ s.box.ints i, Word.Fits v

end Store

/-- The domains of the box lie within those of the store. -/
structure Box.Within (F : Box) (s : Store) : Prop where
  ints : ∀ i < s.ints.size, F.ints i ≤ s.box.ints i
  sets : ∀ i < s.sets.size, F.sets i ≤ s.box.sets i

namespace Store

variable {s s' s'' : Store}

theorem box_within (s : Store) : s.box.Within s :=
  ⟨fun _ _ => IntDomain.le_refl _, fun _ _ => SetDomain.le_refl _⟩

theorem int_of_lt {i : Nat} (h : i < s.ints.size) : s.int i = .ok (s.box.ints i) := by
  have hget : s.ints.get? i = some s.ints.rows[i] := Array.getElem?_eq_getElem h
  refine Table.fetch_eq_ok.2 ?_
  simp only [box, hget, Option.getD_some]

theorem set_of_lt {i : Nat} (h : i < s.sets.size) : s.set i = .ok (s.box.sets i) := by
  have hget : s.sets.get? i = some s.sets.rows[i] := Array.getElem?_eq_getElem h
  refine Table.fetch_eq_ok.2 ?_
  simp only [box, hget, Option.getD_some]

theorem yields_int {δ : Prop} {i : Nat} (h : i < s.ints.size) :
    Yields δ (s.int i) fun d => d = s.box.ints i := by
  rw [int_of_lt h]
  exact rfl

theorem yields_set {δ : Prop} {i : Nat} (h : i < s.sets.size) :
    Yields δ (s.set i) fun d => d = s.box.sets i := by
  rw [set_of_lt h]
  exact rfl

/-- What a narrowing of an integer variable comes to; the variable exists. -/
theorem cases_of_narrowInt {i : Nat} {narrowing : IntDomain → Narrowing IntDomain} {event : Event}
    (h : s.narrowInt i narrowing = .ok (event, s')) : i < s.ints.size ∧
      ((event = .none ∨ event = .failed) ∧ s' = s ∨
        ∃ d, narrowing (s.box.ints i) = .changed d ∧
          event = (s.box.ints i).eventTowards d ∧ s' = { s with ints := s.ints.set i d }) := by
  obtain ⟨d, hd, h⟩ := Yields.exists_of_bind h
  have hi : i < s.ints.size := Table.lt_of_fetch hd
  obtain rfl : s.box.ints i = d := Except.ok.inj ((int_of_lt hi).symm.trans hd)
  refine ⟨hi, ?_⟩
  cases hcase : narrowing (s.box.ints i) with
  | unchanged =>
    rw [hcase] at h
    cases h
    exact .inl ⟨.inl rfl, rfl⟩
  | empty =>
    rw [hcase] at h
    cases h
    exact .inl ⟨.inr rfl, rfl⟩
  | changed e =>
    rw [hcase] at h
    cases h
    exact .inr ⟨e, rfl, rfl, rfl⟩

/-- What a narrowing of a set variable comes to; the variable exists. -/
theorem cases_of_narrowSet {i : Nat} {narrowing : SetDomain → Narrowing SetDomain} {event : Event}
    (h : s.narrowSet i narrowing = .ok (event, s')) : i < s.sets.size ∧
      ((event = .none ∨ event = .failed) ∧ s' = s ∨
        ∃ d, narrowing (s.box.sets i) = .changed d ∧
          event = (s.box.sets i).eventTowards d ∧ s' = { s with sets := s.sets.set i d }) := by
  obtain ⟨d, hd, h⟩ := Yields.exists_of_bind h
  have hi : i < s.sets.size := Table.lt_of_fetch hd
  obtain rfl : s.box.sets i = d := Except.ok.inj ((set_of_lt hi).symm.trans hd)
  refine ⟨hi, ?_⟩
  cases hcase : narrowing (s.box.sets i) with
  | unchanged =>
    rw [hcase] at h
    cases h
    exact .inl ⟨.inl rfl, rfl⟩
  | empty =>
    rw [hcase] at h
    cases h
    exact .inl ⟨.inr rfl, rfl⟩
  | changed e =>
    rw [hcase] at h
    cases h
    exact .inr ⟨e, rfl, rfl, rfl⟩

/-! ### Smaller stores -/

/-- From `s` to `s'`, variables were narrowed, and others were added. -/
structure Evolves (s s' : Store) : Prop where
  size_ints : s.ints.size ≤ s'.ints.size
  size_sets : s.sets.size ≤ s'.sets.size
  within : s'.box.Within s

/-- A box within a later store lies within the store. -/
theorem Evolves.within_of_within (h : s.Evolves s') {F : Box} (hF : F.Within s') : F.Within s where
  ints i hi := IntDomain.le_trans (hF.ints i (hi.trans_le h.size_ints)) (h.within.ints i hi)
  sets i hi := SetDomain.le_trans (hF.sets i (hi.trans_le h.size_sets)) (h.within.sets i hi)

/-- From `s` to `s'` the domains of integers and sets have only become smaller. -/
structure Narrows (s s' : Store) : Prop where
  size_ints : s'.ints.size = s.ints.size
  size_sets : s'.sets.size = s.sets.size
  floats : s'.floats = s.floats
  within : s'.box.Within s

theorem Narrows.refl (s : Store) : s.Narrows s := ⟨rfl, rfl, rfl, s.box_within⟩

theorem Narrows.evolves (h : s.Narrows s') : s.Evolves s' :=
  ⟨h.size_ints.ge, h.size_sets.ge, h.within⟩

theorem Narrows.within_of_within (h : s.Narrows s') {F : Box} (hF : F.Within s') : F.Within s :=
  h.evolves.within_of_within hF

theorem Narrows.trans (h : s.Narrows s') (h' : s'.Narrows s'') : s.Narrows s'' where
  size_ints := h'.size_ints.trans h.size_ints
  size_sets := h'.size_sets.trans h.size_sets
  floats := h'.floats.trans h.floats
  within := h.within_of_within h'.within

/-- The variable exists. The variables of floats are not considered. -/
def Has (s : Store) : VarRef → Prop
  | .int i => i < s.ints.size
  | .set i => i < s.sets.size
  | .float _ => True

/-- What stays as it is for the subscribers of a level of `x`. -/
def Keeps (s s' : Store) : VarRef → Wake → Prop
  | .int i, w => IntDomain.Keeps (s.box.ints i) (s'.box.ints i) w
  | .set i, w => SetDomain.Keeps (s.box.sets i) (s'.box.sets i) w
  | .float _, _ => True

@[simp]
theorem keeps_int {i : Nat} {w : Wake} :
    s.Keeps s' (.int i) w ↔ IntDomain.Keeps (s.box.ints i) (s'.box.ints i) w := Iff.rfl

@[simp]
theorem keeps_set {i : Nat} {w : Wake} :
    s.Keeps s' (.set i) w ↔ SetDomain.Keeps (s.box.sets i) (s'.box.sets i) w := Iff.rfl

theorem Keeps.refl (s : Store) (x : VarRef) (w : Wake) : s.Keeps s x w := by
  cases x with
  | int i => exact IntDomain.Keeps.refl _ w
  | set i => exact SetDomain.Keeps.refl _ w
  | float i => trivial

theorem Keeps.trans {x : VarRef} {w : Wake} (h : s.Keeps s' x w) (h' : s'.Keeps s'' x w) :
    s.Keeps s'' x w := by
  cases x with
  | int i => exact IntDomain.Keeps.trans h h'
  | set i => exact SetDomain.Keeps.trans h h'
  | float i => trivial

/-! ### Narrowing -/

/-- From `s` to `s'`, the variable `x` was narrowed to what satisfies the condition, with the given
event. -/
structure NarrowedTo (s : Store) (x : VarRef) (condition : Box → Prop) (event : Event)
    (s' : Store) : Prop where
  narrows : s.Narrows s'
  sound : s'.Sound
  holds : condition s'.box
  greatest : ∀ F : Box, F.Sound → F.Within s → condition F → F.Within s'
  other_ints : ∀ i, VarRef.int i ≠ x → s'.box.ints i = s.box.ints i
  other_sets : ∀ i, VarRef.set i ≠ x → s'.box.sets i = s.box.sets i
  unmodified : event.isModified = false → s' = s
  lighter : event.isModified = true → s'.weight < s.weight
  smaller_int : event.isModified = true → ∀ i, x = .int i →
    (s'.box.ints i).size < (s.box.ints i).size
  smaller_set : event.isModified = true → ∀ i, x = .set i →
    (s'.box.sets i).freedom < (s.box.sets i).freedom
  keeps : ∀ w : Wake, w.triggeredBy event = false → s.Keeps s' x w

/-- The law of a narrowing: it fails if no box within the store satisfies the condition. -/
def NarrowingLaw (s : Store) (x : VarRef) (condition : Box → Prop) (event : Event)
    (s' : Store) : Prop :=
  if event.isFailed then ∀ F : Box, F.Sound → F.Within s → ¬condition F
  else s.NarrowedTo x condition event s'

/-- The other variables keep everything. -/
theorem NarrowedTo.keeps_other {x y : VarRef} {condition : Box → Prop} {event : Event}
    (h : s.NarrowedTo x condition event s') (hy : y ≠ x) (w : Wake) : s.Keeps s' y w := by
  cases y with
  | int i =>
    rw [keeps_int, h.other_ints i hy]
    exact IntDomain.Keeps.refl _ w
  | set i =>
    rw [keeps_set, h.other_sets i hy]
    exact SetDomain.Keeps.refl _ w
  | float i => trivial

theorem NarrowedTo.law {x : VarRef} {condition : Box → Prop} {event : Event}
    (h : s.NarrowedTo x condition event s') (hm : event.isModified = true) :
    s.NarrowingLaw x condition event s' := by
  have hfailed : event.isFailed = false := by
    cases event <;> first | rfl | cases hm
  unfold NarrowingLaw
  rw [hfailed]
  exact h

theorem narrowingLaw_unchanged (hs : s.Sound) {x : VarRef} {condition : Box → Prop}
    (h : condition s.box) : s.NarrowingLaw x condition .none s :=
  { narrows := Narrows.refl s
    sound := hs
    holds := h
    greatest := fun _ _ hF _ => hF
    other_ints := fun _ _ => rfl
    other_sets := fun _ _ => rfl
    unmodified := fun _ => rfl
    lighter := fun hm => by cases hm
    smaller_int := fun hm => by cases hm
    smaller_set := fun hm => by cases hm
    keeps := fun w _ => Keeps.refl s x w }

theorem box_set_int {i : Nat} (h : i < s.ints.size) (d : IntDomain) (j : Nat) :
    (box { s with ints := s.ints.set i d }).ints j = if i = j then d else s.box.ints j := by
  simp only [box, Table.get?_set, h, if_true]
  split <;> rfl

theorem box_set_set {i : Nat} (h : i < s.sets.size) (d : SetDomain) (j : Nat) :
    (box { s with sets := s.sets.set i d }).sets j = if i = j then d else s.box.sets j := by
  simp only [box, Table.get?_set, h, if_true]
  split <;> rfl

/-- A change of an integer domain to a smaller one that is the greatest with the condition. -/
theorem narrowedTo_int (hs : s.Sound) {i : Nat} (hi : i < s.ints.size)
    {condition : IntDomain → Prop} {d : IntDomain} (hcanonical : d.Canonical)
    (hle : d ≤ s.box.ints i) (hd : condition d) (hsize : d.size < (s.box.ints i).size)
    (hgreatest : ∀ e : IntDomain, e.Canonical → e ≤ s.box.ints i → condition e → e ≤ d) :
    s.NarrowedTo (.int i) (fun F => condition (F.ints i)) ((s.box.ints i).eventTowards d)
      { s with ints := s.ints.set i d } := by
  have hbox := box_set_int hi d
  have hself : (box { s with ints := s.ints.set i d }).ints i = d := by rw [hbox, if_pos rfl]
  refine
    { narrows := ⟨by simp, rfl, rfl, ?_, fun j _ => SetDomain.le_refl _⟩
      sound := ⟨⟨fun j => ?_, hs.box.normal⟩, fun j v hv => ?_⟩
      holds := by rwa [hself]
      greatest := fun F hF hle hc => ⟨fun j hj => ?_, hle.sets⟩
      other_ints := fun j hj => by rw [hbox, if_neg fun hij => hj (by rw [hij])]
      other_sets := fun _ _ => rfl
      unmodified := fun h => ?_
      lighter := fun _ => ?_
      smaller_int := fun _ j hj => by cases hj; rwa [hself]
      smaller_set := fun _ j hj => by cases hj
      keeps := fun w hw => ?_ }
  · intro j _
    rw [hbox]
    split
    · rename_i hij
      exact hij ▸ hle
    · exact IntDomain.le_refl _
  · rw [hbox]
    split
    · exact hcanonical
    · exact hs.box.canonical j
  · rw [hbox] at hv
    split at hv
    · exact hs.fits i v (hle v hv)
    · exact hs.fits j v hv
  · rw [hbox]
    split
    · rename_i hij
      subst hij
      exact hgreatest _ (hF.canonical i) (hle.ints i hi) hc
    · exact hle.ints j (by simpa using hj)
  · rw [IntDomain.isModified_eventTowards hsize] at h
    cases h
  · have hrow : s.ints.toList[i]? = some (s.box.ints i) := by
      simp only [Table.size] at hi
      simp [box, Table.toList, Table.get?, hi]
    have := total_set IntDomain.size d hrow
    simp only [weight, Table.toList, Table.set, Array.toList_setIfInBounds] at this ⊢
    omega
  · rw [keeps_int, hself]
    exact IntDomain.keeps_of_not_triggered hsize hw

theorem yields_narrowInt {δ : Prop} (hs : s.Sound) {i : Nat} (hi : i < s.ints.size)
    {narrowing : IntDomain → Narrowing IntDomain} {condition : IntDomain → Prop}
    (h : Narrowed IntDomain.Canonical condition IntDomain.size (s.box.ints i)
      (narrowing (s.box.ints i))) :
    Yields δ (s.narrowInt i narrowing) fun r =>
      s.NarrowingLaw (.int i) (fun F => condition (F.ints i)) r.1 r.2 := by
  unfold narrowInt
  refine (yields_int hi).bind fun d hd => ?_
  subst hd
  cases hn : narrowing (s.box.ints i) with
  | unchanged =>
    rw [hn] at h
    exact narrowingLaw_unchanged hs h
  | empty =>
    rw [hn] at h
    exact fun F hF hle => h _ (hF.canonical i) (hle.ints i hi)
  | changed d =>
    rw [hn] at h
    obtain ⟨hcanonical, hle, hd, hsize, hgreatest⟩ := h
    have hlaw := narrowedTo_int hs hi hcanonical hle hd hsize hgreatest
    exact hlaw.law (IntDomain.isModified_eventTowards hsize)

/-- A change of a set domain to a smaller one that is the greatest with the condition. -/
theorem narrowedTo_set (hs : s.Sound) {i : Nat} (hi : i < s.sets.size)
    {condition : SetDomain → Prop} {d : SetDomain} (hnormal : d.Normal)
    (hle : d ≤ s.box.sets i) (hd : condition d) (hsize : d.freedom < (s.box.sets i).freedom)
    (hgreatest : ∀ e : SetDomain, e.Normal → e ≤ s.box.sets i → condition e → e ≤ d) :
    s.NarrowedTo (.set i) (fun F => condition (F.sets i)) ((s.box.sets i).eventTowards d)
      { s with sets := s.sets.set i d } := by
  have hbox := box_set_set hi d
  have hself : (box { s with sets := s.sets.set i d }).sets i = d := by rw [hbox, if_pos rfl]
  refine
    { narrows := ⟨rfl, by simp, rfl, fun j _ => IntDomain.le_refl _, ?_⟩
      sound := ⟨⟨hs.box.canonical, fun j => ?_⟩, hs.fits⟩
      holds := by rwa [hself]
      greatest := fun F hF hle hc => ⟨hle.ints, fun j hj => ?_⟩
      other_ints := fun _ _ => rfl
      other_sets := fun j hj => by rw [hbox, if_neg fun hij => hj (by rw [hij])]
      unmodified := fun h => ?_
      lighter := fun _ => ?_
      smaller_int := fun _ j hj => by cases hj
      smaller_set := fun _ j hj => by cases hj; rwa [hself]
      keeps := fun w hw => ?_ }
  · intro j _
    rw [hbox]
    split
    · rename_i hij
      exact hij ▸ hle
    · exact SetDomain.le_refl _
  · rw [hbox]
    split
    · exact hnormal
    · exact hs.box.normal j
  · rw [hbox]
    split
    · rename_i hij
      subst hij
      exact hgreatest _ (hF.normal i) (hle.sets i hi) hc
    · exact hle.sets j (by simpa using hj)
  · rw [SetDomain.isModified_eventTowards hsize] at h
    cases h
  · have hrow : s.sets.toList[i]? = some (s.box.sets i) := by
      simp only [Table.size] at hi
      simp [box, Table.toList, Table.get?, hi]
    have := total_set SetDomain.freedom d hrow
    simp only [weight, Table.toList, Table.set, Array.toList_setIfInBounds] at this ⊢
    omega
  · rw [keeps_set, hself]
    exact SetDomain.keeps_of_not_triggered hsize hw

theorem yields_narrowSet {δ : Prop} (hs : s.Sound) {i : Nat} (hi : i < s.sets.size)
    {narrowing : SetDomain → Narrowing SetDomain} {condition : SetDomain → Prop}
    (h : Narrowed SetDomain.Normal condition SetDomain.freedom (s.box.sets i)
      (narrowing (s.box.sets i))) :
    Yields δ (s.narrowSet i narrowing) fun r =>
      s.NarrowingLaw (.set i) (fun F => condition (F.sets i)) r.1 r.2 := by
  unfold narrowSet
  refine (yields_set hi).bind fun d hd => ?_
  subst hd
  cases hn : narrowing (s.box.sets i) with
  | unchanged =>
    rw [hn] at h
    exact narrowingLaw_unchanged hs h
  | empty =>
    rw [hn] at h
    exact fun F hF hle => h _ (hF.normal i) (hle.sets i hi)
  | changed d =>
    rw [hn] at h
    obtain ⟨hnormal, hle, hd, hsize, hgreatest⟩ := h
    have hlaw := narrowedTo_set hs hi hnormal hle hd hsize hgreatest
    exact hlaw.law (SetDomain.isModified_eventTowards hsize)

end Store

end ConstraintSearch
