import Mathlib.Data.Finset.Card
import ConstraintSearch.Proofs.Domain.Intervals

/-!
# The theory of integer domains

Every domain of a space is canonical: its intervals are separated. For canonical domains the
queries and operations are those of the set of values.

* `Canonical.min_le`, `Canonical.le_max`: the bounds are values and bound the others;
* `Canonical.size_lt`: a proper subset has fewer values;
* `Canonical.ext`: a domain is determined by its values;
* `Narrowed` says what a narrowing does in the order of domains by inclusion, and
  `Canonical.restrict` that a restriction keeps exactly the values in the relation;
* `Keeps` says what has not changed for the subscribers of a level, and
  `keeps_of_not_triggered` that an event which wakes none of them leaves it alone.
-/

namespace ConstraintSearch

/-- What a narrowing operation answers for `d` that keeps what satisfies a condition: `d` if it
satisfies the condition already, nothing if no smaller domain does, and otherwise the greatest
smaller domain that does. -/
def Narrowed {α : Type} [LE α] (wellFormed condition : α → Prop) (size : α → Nat) (d : α) :
    Narrowing α → Prop
  | .unchanged => condition d
  | .empty => ∀ e, wellFormed e → e ≤ d → ¬condition e
  | .changed d' =>
      wellFormed d' ∧ d' ≤ d ∧ condition d' ∧ size d' < size d ∧
        ∀ e, wellFormed e → e ≤ d → condition e → e ≤ d'

namespace IntDomain

instance : Inhabited IntDomain := ⟨⟨[⟨0, 0⟩], by simp⟩⟩

/-- The order by inclusion. -/
instance : LE IntDomain := ⟨fun e d => ∀ v ∈ e, v ∈ d⟩

theorem le_refl (d : IntDomain) : d ≤ d := fun _ hv => hv

theorem le_trans {a b c : IntDomain} (hab : a ≤ b) (hbc : b ≤ c) : a ≤ c :=
  fun v hv => hbc v (hab v hv)

/-- The intervals are separated. -/
def Canonical (d : IntDomain) : Prop := Separated d.ranges

theorem mem_iff_covers {d : IntDomain} {v : Int} : v ∈ d ↔ Covers d.ranges v := by
  simp [mem_iff, contains, Covers]

theorem contains_iff_mem {d : IntDomain} {v : Int} : d.contains v = true ↔ v ∈ d := Iff.rfl

theorem length_values (d : IntDomain) : d.values.length = d.size :=
  length_flatMap_values d.ranges

/-- The last interval of separated ones ends last. -/
theorem le_getLast_hi {rs : List Interval} (h : Separated rs) (hne : rs ≠ []) :
    ∀ r ∈ rs, r.hi ≤ (rs.getLast hne).hi := by
  induction rs with
  | nil => simp
  | cons r rs ih =>
    intro s hs
    obtain ⟨-, hlt, hsep⟩ := Separated.cons_iff.1 h
    by_cases hrs : rs = []
    · simp [hrs] at hs ⊢
      simp [hs]
    · rw [List.getLast_cons hrs]
      rcases List.mem_cons.1 hs with rfl | hs
      · have hlast := List.getLast_mem hrs
        have := hlt _ hlast
        have := hsep.proper _ hlast
        omega
      · exact ih hsep hrs s hs

namespace Canonical

variable {d e : IntDomain}

theorem min_mem (h : d.Canonical) : d.min ∈ d := by
  have hd := List.head_mem d.ranges_ne_nil
  exact mem_iff_covers.2 ⟨_, hd, Interval.contains_iff.2 ⟨le_rfl, h.proper _ hd⟩⟩

theorem max_mem (h : d.Canonical) : d.max ∈ d := by
  have hd := List.getLast_mem d.ranges_ne_nil
  exact mem_iff_covers.2 ⟨_, hd, Interval.contains_iff.2 ⟨h.proper _ hd, le_rfl⟩⟩

theorem min_le (h : d.Canonical) {v : Int} (hv : v ∈ d) : d.min ≤ v := by
  obtain ⟨_ | ⟨r, rs⟩, hne⟩ := d
  · exact absurd rfl hne
  · rcases covers_cons.1 (mem_iff_covers.1 hv) with hv | hv
    · exact hv.1
    · have := Separated.lt_of_covers_tail h hv
      have := (Separated.cons_iff.1 h).1
      simp only [min, List.head_cons]
      omega

theorem le_max (h : d.Canonical) {v : Int} (hv : v ∈ d) : v ≤ d.max := by
  obtain ⟨r, hr, hv⟩ := mem_iff_covers.1 hv
  have := le_getLast_hi h d.ranges_ne_nil r hr
  rw [Interval.contains_iff] at hv
  unfold max
  omega

theorem min_le_max (h : d.Canonical) : d.min ≤ d.max := h.le_max h.min_mem

theorem nodup_values (h : d.Canonical) : d.values.Nodup :=
  h.pairwise_values.imp fun hlt => Int.ne_of_lt hlt

theorem card_values (h : d.Canonical) : d.values.toFinset.card = d.size := by
  rw [List.toFinset_card_of_nodup h.nodup_values, length_values]

theorem size_le (hd : d.Canonical) (he : e.Canonical) (hsub : e ≤ d) :
    e.size ≤ d.size := by
  rw [← hd.card_values, ← he.card_values]
  refine Finset.card_le_card fun v hv => ?_
  rw [List.mem_toFinset, mem_values] at hv ⊢
  exact hsub v hv

theorem size_lt (hd : d.Canonical) (he : e.Canonical) (hsub : e ≤ d) {w : Int}
    (hw : w ∈ d) (hne : w ∉ e) : e.size < d.size := by
  rw [← hd.card_values, ← he.card_values]
  have hle : e.values.toFinset ⊆ d.values.toFinset := fun v hv => by
    rw [List.mem_toFinset, mem_values] at hv ⊢
    exact hsub v hv
  refine Finset.card_lt_card ((Finset.ssubset_iff_of_subset hle).2 ⟨w, ?_, ?_⟩)
  · rwa [List.mem_toFinset, mem_values]
  · rwa [List.mem_toFinset, mem_values]

/-- A canonical domain is determined by its values. -/
theorem ext (hd : d.Canonical) (he : e.Canonical) (h : ∀ v, v ∈ d ↔ v ∈ e) : d = e := by
  have hranges : d.ranges = e.ranges :=
    hd.eq_of_covers_iff he fun v => by rw [← mem_iff_covers, ← mem_iff_covers, h v]
  cases d; cases e; simp_all

theorem size_pos (h : d.Canonical) : 0 < d.size := by
  have := h.min_mem
  rw [← mem_values] at this
  rw [← length_values]
  exact List.length_pos_of_mem this

/-- A single value is left if and only if the bounds are equal. -/
theorem isAssigned_iff (h : d.Canonical) : d.isAssigned = true ↔ d.min = d.max := by
  unfold isAssigned
  rw [decide_eq_true_iff, ← h.card_values, Finset.card_eq_one]
  constructor
  · rintro ⟨v, hv⟩
    have mem {w : Int} (hw : w ∈ d) : w = v := by
      rw [← mem_values, ← List.mem_toFinset, hv] at hw
      exact Finset.mem_singleton.1 hw
    rw [mem h.min_mem, mem h.max_mem]
  · intro heq
    refine ⟨d.min, Finset.ext fun v => ?_⟩
    rw [List.mem_toFinset, mem_values, Finset.mem_singleton]
    constructor
    · intro hv
      have := h.min_le hv
      have := h.le_max hv
      omega
    · rintro rfl
      exact h.min_mem

theorem eq_min_of_isAssigned (h : d.Canonical) (hd : d.isAssigned = true) {v : Int}
    (hv : v ∈ d) : v = d.min := by
  have := h.isAssigned_iff.1 hd
  have := h.min_le hv
  have := h.le_max hv
  omega

/-! ### Restrictions -/

theorem satisfies_iff (h : d.Canonical) {relation : Relation} {v : Int} :
    d.satisfies relation v = true ↔ ∀ w ∈ d, relation.Holds w v := by
  cases relation <;> simp only [satisfies, Relation.Holds, decide_eq_true_iff]
  · rw [contains_iff_mem]
    constructor
    · rintro ⟨hv, ha⟩ w hw
      rw [h.eq_min_of_isAssigned ha hw, h.eq_min_of_isAssigned ha hv]
    · intro hall
      have hmin := hall _ h.min_mem
      exact ⟨hmin ▸ h.min_mem, h.isAssigned_iff.2 (hmin.trans (hall _ h.max_mem).symm)⟩
  · rw [contains_iff_mem]
    exact ⟨fun hv w hw heq => hv (heq ▸ hw), fun hall hv => hall v hv rfl⟩
  · exact ⟨fun hmax w hw => (h.le_max hw).trans hmax, fun hall => hall _ h.max_mem⟩
  · exact ⟨fun hmin w hw => hmin.trans (h.min_le hw), fun hall => hall _ h.min_mem⟩

/-- The intervals that are left by a restriction have the values that stand in the relation. -/
theorem mem_restricted {relation : Relation} {v w : Int}
    (he : e.ranges = d.ranges.flatMap (·.restrict relation v)) :
    w ∈ e ↔ w ∈ d ∧ relation.Holds w v := by
  rw [mem_iff_covers, mem_iff_covers, he, covers_restrict]

/-- A restriction keeps exactly the values that stand in the relation. -/
theorem restrict (h : d.Canonical) (relation : Relation) (v : Int) :
    Narrowed Canonical (fun e => ∀ w ∈ e, relation.Holds w v) size d (d.restrict relation v) := by
  unfold IntDomain.restrict ofRanges?
  by_cases hs : d.satisfies relation v = true
  · rw [if_pos hs]
    exact h.satisfies_iff.1 hs
  rw [if_neg hs]
  by_cases hne : d.ranges.flatMap (·.restrict relation v) ≠ []
  · rw [dif_pos hne]
    have hmem (w : Int) := mem_restricted (d := d) (e := ⟨_, hne⟩) (v := v) (w := w) rfl
    have hc : Canonical ⟨_, hne⟩ := Separated.restrict h relation v
    refine ⟨hc, fun w hw => ((hmem w).1 hw).1, fun w hw => ((hmem w).1 hw).2, ?_,
      fun e _ hle hall w hw => (hmem w).2 ⟨hle w hw, hall w hw⟩⟩
    rw [h.satisfies_iff] at hs
    push Not at hs
    obtain ⟨w, hw, hnot⟩ := hs
    exact h.size_lt hc (fun u hu => ((hmem u).1 hu).1) hw fun hu => hnot ((hmem w).1 hu).2
  · rw [dif_neg hne]
    intro e he hle hall
    have := covers_restrict.2 ⟨mem_iff_covers.1 (hle _ he.min_mem), hall _ he.min_mem⟩
    rw [not_not.1 hne] at this
    exact not_covers_nil _ this

end Canonical

/-! ### Events -/

/-- What stays as it is for the subscribers of a level, on the way from `d` to `narrowed`. -/
def Keeps (d narrowed : IntDomain) : Wake → Prop
  | .value => narrowed.isAssigned = true → narrowed = d
  | .bounds => narrowed.min = d.min ∧ narrowed.max = d.max
  | .domain => narrowed = d

theorem Keeps.refl (d : IntDomain) (w : Wake) : Keeps d d w := by
  cases w <;> simp [Keeps]

theorem Keeps.trans {a b c : IntDomain} {w : Wake} (hab : Keeps a b w) (hbc : Keeps b c w) :
    Keeps a c w := by
  cases w with
  | value =>
    intro hc
    have hbc := hbc hc
    subst hbc
    exact hab hc
  | bounds => exact ⟨hbc.1.trans hab.1, hbc.2.trans hab.2⟩
  | domain => exact Eq.trans hbc hab

/-- An event that does not wake the subscribers of a level keeps what they watch. -/
theorem keeps_of_not_triggered {d narrowed : IntDomain} (hsize : narrowed.size < d.size)
    {w : Wake} (hw : w.triggeredBy (d.eventTowards narrowed) = false) : Keeps d narrowed w := by
  unfold eventTowards at hw
  rw [if_neg (by omega)] at hw
  by_cases ha : narrowed.isAssigned = true
  · rw [if_pos ha] at hw
    cases w <;> simp [Wake.triggeredBy] at hw
  · rw [if_neg ha] at hw
    cases w with
    | value => exact fun h => absurd h ha
    | bounds =>
      split at hw
      · simp [Wake.triggeredBy] at hw
      · rename_i hb
        push Not at hb
        exact hb
    | domain => split at hw <;> simp [Wake.triggeredBy] at hw

/-- A narrowing that changes a domain reports a modification. -/
theorem isModified_eventTowards {d narrowed : IntDomain} (h : narrowed.size < d.size) :
    (d.eventTowards narrowed).isModified = true := by
  unfold eventTowards
  rw [if_neg (by omega)]
  split
  · rfl
  · split <;> rfl

/-! ### New domains -/

theorem le_antisymm {d e : IntDomain} (hd : d.Canonical) (he : e.Canonical) (hde : d ≤ e)
    (hed : e ≤ d) : d = e :=
  hd.ext he fun v => ⟨hde v, hed v⟩

/-- The domain of one value. -/
def singleton (v : Int) : IntDomain := ⟨[⟨v, v⟩], by simp⟩

theorem canonical_singleton (v : Int) : (singleton v).Canonical :=
  Separated.cons_iff.2 ⟨le_rfl, by simp, Separated.nil⟩

theorem mem_singleton {v w : Int} : w ∈ singleton v ↔ w = v := by
  simp only [mem_iff_covers, singleton, Covers, List.mem_singleton, exists_eq_left,
    Interval.contains_iff]
  omega

/-- A domain with one value is the domain of that value. -/
theorem Canonical.eq_singleton {d : IntDomain} (h : d.Canonical) (hd : d.isAssigned = true) :
    d = singleton d.min := by
  refine h.ext (canonical_singleton _) fun v => ?_
  rw [mem_singleton]
  constructor
  · exact h.eq_min_of_isAssigned hd
  · rintro rfl
    exact h.min_mem

theorem canonical_ofInterval? {lower upper : Int} {d : IntDomain}
    (h : ofInterval? lower upper = some d) :
    d.Canonical ∧ ∀ v, v ∈ d ↔ lower ≤ v ∧ v ≤ upper := by
  unfold ofInterval? ofRanges? at h
  split at h
  · rename_i hle
    split at h <;> cases h
    exact ⟨Separated.cons_iff.2 ⟨hle, by simp, Separated.nil⟩, fun v => by simp [mem_iff_covers]⟩
  · cases h

theorem canonical_ofValues? {values : List Int} {d : IntDomain} (h : ofValues? values = some d) :
    d.Canonical ∧ ∀ v, v ∈ d ↔ v ∈ values := by
  unfold ofValues? ofRanges? at h
  split at h <;> cases h
  have hspec := rangesOfSorted_spec (pairwise_le_mergeSort values)
  refine ⟨hspec.1, fun v => ?_⟩
  rw [mem_iff_covers]
  exact (hspec.2 v).trans List.mem_mergeSort

theorem ofValues?_of_pairwise {values : List Int} (h : values.Pairwise (· ≤ ·)) :
    ofValues? values = ofRanges? (rangesOfSorted values) := by
  unfold ofValues?
  rw [mergeSort_of_pairwise_le h]

theorem covers_of_nthOf? {rs : List Interval} {i : Nat} {v : Int} (h : Separated rs)
    (hv : nthOf? rs i = some v) : Covers rs v := by
  induction rs generalizing i with
  | nil => cases hv
  | cons r rs ih =>
    unfold nthOf? at hv
    by_cases hi : i < r.size
    · rw [if_pos hi] at hv
      cases hv
      unfold Interval.size at hi
      exact covers_cons.2 (.inl ⟨by omega, by omega⟩)
    · rw [if_neg hi] at hv
      exact covers_cons.2 (.inr (ih (Separated.cons_iff.1 h).2.2 hv))

theorem Canonical.mem_of_nth? {d : IntDomain} (h : d.Canonical) {i : Nat} {v : Int}
    (hv : d.nth? i = some v) : v ∈ d :=
  mem_iff_covers.2 (covers_of_nthOf? h hv)

end IntDomain

end ConstraintSearch
