import Mathlib.Order.Interval.Set.Basic
import ConstraintSearch.Word
import ConstraintSearch.Proofs.Domain.Meaning

/-!
# Integer domains are canonical sets

An integer domain denotes the set of the values in its intervals. The domains that arise from an
interval or from a list of values by restrictions are canonical, so that each set has one domain,
and all that is asked of a domain is answered about its set.

* `IntDomain.carrier` is the set; `IntDomain.meaning` says that canonical domains and their sets
  correspond;
* `Separated.binSearchAux_iff`: intervals that are separated can be searched by halving;
* `Canonical.isSubsetOf_iff`, `Canonical.length_ranges`: the intervals of a canonical domain are the
  greatest ones within the set;
* `Canonical.describes_eventTowards`: the event between two domains tells what the set has lost;
* `IntDomain.Arises`, `IntDomain.Faithful`, `IntDomain.Compares`: the domains that arise, and what
  is said about each and about two of them;
* `IntDomain.canonical_sets` puts all of it together.
-/

namespace ConstraintSearch

/-! ### The order of separated intervals -/

namespace Separated

/-- Of two different intervals one lies before the other, with a gap between them. -/
theorem trichotomy {rs : List Interval} {r s : Interval} (h : Separated rs) (hr : r ∈ rs)
    (hs : s ∈ rs) : r.hi + 1 < s.lo ∨ r = s ∨ s.hi + 1 < r.lo := by
  obtain ⟨i, hi, rfl⟩ := List.getElem_of_mem hr
  obtain ⟨j, hj, rfl⟩ := List.getElem_of_mem hs
  have hlt := List.pairwise_iff_getElem.1 h.apart
  rcases Nat.lt_trichotomy i j with hij | rfl | hij
  · exact .inl (hlt i j hi hj hij)
  · exact .inr (.inl rfl)
  · exact .inr (.inr (hlt j i hj hi hij))

variable {as : Array Interval} {v : Int} {i j : Nat}

/-- The ends grow with the position. -/
theorem ends_mono (h : Separated as.toList) (hj : j < as.size) (hij : i ≤ j) :
    as[i].lo ≤ as[j].lo ∧ as[i].hi ≤ as[j].hi := by
  rcases Nat.lt_or_eq_of_le hij with hij | rfl
  · have hlt : as[i].hi + 1 < as[j].lo :=
      List.pairwise_iff_getElem.1 h.apart i j (by simpa using hij.trans hj) (by simpa using hj) hij
    have hlo := h.proper as[i] (by simp)
    have hhi := h.proper as[j] (by simp)
    omega
  · exact ⟨le_rfl, le_rfl⟩

/-- A search by halving, from one position to another, finds an interval with the value if there is
one between the positions. -/
theorem binSearchAux_iff (h : Separated as.toList) (lo : Fin (as.size + 1)) (hi : Fin as.size)
    (hle : lo.1 ≤ hi.1) :
    Array.binSearchAux (fun r s : Interval => decide (r.hi < s.lo)) Option.isSome as ⟨v, v⟩ lo hi
      hle = true ↔
        ∃ i, ∃ hi' : i < as.size, lo.1 ≤ i ∧ i ≤ hi.1 ∧ as[i].lo ≤ v ∧ v ≤ as[i].hi := by
  fun_induction Array.binSearchAux with
  | case1 lo hi hle m a hend hnext _ ih =>
    have hend : as[m].hi < v := of_decide_eq_true hend
    rw [ih]
    refine exists_congr fun i => exists_congr fun hi' => and_congr_left fun hv => ?_
    refine ⟨fun (hmi : m + 1 ≤ i) => by omega, fun _ => Nat.succ_le_of_lt ?_⟩
    refine lt_of_not_ge fun him => ?_
    have := (h.ends_mono (by omega) him).2
    omega
  | case2 lo hi hle m a hend hstop _ =>
    have hend : as[m].hi < v := of_decide_eq_true hend
    refine iff_of_false nofun fun ⟨i, hi', hlo, hhi, hv⟩ => ?_
    have := (h.ends_mono (by omega) (show i ≤ m by omega)).2
    omega
  | case3 lo hi hle m a _ hstart hstop _ =>
    have hstart : v < as[m].lo := of_decide_eq_true hstart
    refine iff_of_false nofun fun ⟨i, hi', hlo, hhi, hv⟩ => ?_
    have := (h.ends_mono hi' (show m ≤ i by omega)).1
    omega
  | case4 lo hi hle m a _ hstart hstop _ ih =>
    have hstart : v < as[m].lo := of_decide_eq_true hstart
    rw [ih]
    refine exists_congr fun i => exists_congr fun hi' => and_congr_right fun _ =>
      and_congr_left fun hv => ?_
    refine ⟨fun (him : i ≤ m - 1) => by omega, fun _ => Nat.le_sub_one_of_lt ?_⟩
    refine lt_of_not_ge fun hmi => ?_
    have := (h.ends_mono hi' hmi).1
    omega
  | case5 lo hi hle m a hend hstart _ =>
    rw [decide_eq_true_iff] at hend hstart
    exact iff_of_true rfl ⟨m, by omega, by omega, by omega, not_lt.1 hstart, not_lt.1 hend⟩

end Separated

namespace IntDomain

/-! ### The set of a domain -/

/-- The values that lie in one of the intervals. -/
def carrier (d : IntDomain) : Set Int := {v | ∃ r ∈ d.ranges, r.lo ≤ v ∧ v ≤ r.hi}

variable {d e : IntDomain} {v : Int}

theorem mem_carrier : v ∈ d.carrier ↔ v ∈ d := by
  simp only [carrier, Set.mem_ofPred_eq, mem_iff_covers, Covers, Interval.contains_iff]

theorem carrier_eq_toFinset (d : IntDomain) : d.carrier = (d.values.toFinset : Set Int) := by
  ext v
  rw [mem_carrier, List.coe_toFinset, Set.mem_ofPred_eq, mem_values]

theorem carrier_subset_iff : e.carrier ⊆ d.carrier ↔ e ≤ d :=
  forall_congr' fun _ => imp_congr mem_carrier mem_carrier

theorem carrier_singleton (v : Int) : (singleton v).carrier = {v} := by
  ext w
  rw [mem_carrier, mem_singleton, Set.mem_singleton_iff]

/-- Canonical domains and their sets correspond. -/
theorem meaning : Meaning Canonical carrier where
  nonempty d hd := ⟨d.min, mem_carrier.2 hd.min_mem⟩
  le_iff _ _ _ _ := carrier_subset_iff.symm
  antisymm _ _ := le_antisymm
  exists_only _ _ v _ := ⟨singleton v, canonical_singleton v, carrier_singleton v⟩

theorem denotes_ofInterval? (lower upper : Int) :
    Denotes carrier (Set.Icc lower upper) (ofInterval? lower upper) where
  eq_none_iff := by
    rw [Set.Icc_eq_empty_iff]
    by_cases h : lower ≤ upper <;> simp [ofInterval?, ofRanges?, h]
  denotes_some d hd := by
    ext v
    rw [mem_carrier, (canonical_ofInterval? hd).2, Set.mem_Icc]

theorem denotes_ofValues? (values : List Int) :
    Denotes carrier {v | v ∈ values} (ofValues? values) where
  eq_none_iff := by
    rw [Set.eq_empty_iff_forall_notMem]
    cases h : ofValues? values with
    | none =>
      refine iff_of_true rfl fun v (hv : v ∈ values) => ?_
      have hcovers := ((rangesOfSorted_spec (pairwise_le_mergeSort values)).2 v).2
        (List.mem_mergeSort.2 hv)
      have hnil : rangesOfSorted (values.mergeSort (· ≤ ·)) = [] := by
        simpa [ofValues?, ofRanges?] using h
      rw [hnil] at hcovers
      exact not_covers_nil v hcovers
    | some d =>
      obtain ⟨hd, hmem⟩ := canonical_ofValues? h
      exact iff_of_false (Option.some_ne_none d) fun hnone =>
        hnone d.min ((hmem d.min).1 hd.min_mem)
  denotes_some d hd := by
    ext v
    rw [mem_carrier, (canonical_ofValues? hd).2]
    rfl

/-! ### Queries -/

/-- The intervals are listed in increasing order. -/
theorem nthOf?_eq_getElem? (rs : List Interval) (i : Nat) :
    nthOf? rs i = (rs.flatMap Interval.values)[i]? := by
  induction rs generalizing i with
  | nil => rfl
  | cons r rs ih =>
    rw [nthOf?, List.flatMap_cons, List.getElem?_append, r.length_values]
    by_cases hi : i < r.size
    · rw [if_pos hi, if_pos hi, Interval.values, Interval.firstValues, List.getElem?_map,
        Nat.min_self, List.getElem?_range hi]
      rfl
    · rw [if_neg hi, if_neg hi, ih]

theorem nth_eq_getElem {i : Nat} (hi : i < d.values.length) : d.nth i = d.values[i] := by
  rw [nth, nth?, nthOf?_eq_getElem?]
  show d.values[i]?.getD d.max = _
  rw [List.getElem?_eq_getElem hi, Option.getD_some]

/-- Beyond the last position there is the greatest value. -/
theorem nth_of_size_le {i : Nat} (hi : d.size ≤ i) : d.nth i = d.max := by
  rw [nth, nth?, nthOf?_eq_getElem?]
  show d.values[i]?.getD d.max = _
  rw [List.getElem?_eq_none (d.length_values.trans_le hi), Option.getD_none]

namespace Canonical

theorem ncard_carrier (h : d.Canonical) : d.carrier.ncard = d.size := by
  rw [carrier_eq_toFinset, Set.ncard_coe_finset, h.card_values]

theorem isLeast_min (h : d.Canonical) : IsLeast d.carrier d.min :=
  ⟨mem_carrier.2 h.min_mem, fun _ hv => h.min_le (mem_carrier.1 hv)⟩

theorem isGreatest_max (h : d.Canonical) : IsGreatest d.carrier d.max :=
  ⟨mem_carrier.2 h.max_mem, fun _ hv => h.le_max (mem_carrier.1 hv)⟩

theorem isNth_nth (h : d.Canonical) {i : Nat} (hi : i < d.size) : IsNth d.carrier i (d.nth i) := by
  have hi : i < d.values.length := d.length_values.symm ▸ hi
  rw [nth_eq_getElem hi, carrier_eq_toFinset, List.coe_toFinset]
  exact isNth_getElem h.pairwise_values hi

/-- A search by halving finds what the scan of the intervals finds. -/
theorem binSearchContains (h : d.Canonical) (v : Int) :
    d.ranges.toArray.binSearchContains ⟨v, v⟩ (fun r s => decide (r.hi < s.lo)) = d.contains v := by
  have hpos : 0 < d.ranges.toArray.size := by
    simpa using List.length_pos_of_ne_nil d.ranges_ne_nil
  rw [Bool.eq_iff_iff, Array.binSearchContains]
  simp only [hpos, dif_pos, if_pos (Nat.sub_lt hpos Nat.one_pos), Nat.zero_le]
  have hsep : Separated d.ranges.toArray.toList := h
  refine (hsep.binSearchAux_iff _ _ _).trans ?_
  rw [contains_iff_mem, mem_iff_covers, Covers]
  constructor
  · rintro ⟨i, hi, -, -, hv⟩
    exact ⟨_, by simp, Interval.contains_iff.2 hv⟩
  · rintro ⟨r, hr, hv⟩
    obtain ⟨i, hi, rfl⟩ := List.getElem_of_mem hr
    have hi' : i < d.ranges.toArray.size := by simpa using hi
    exact ⟨i, hi', Nat.zero_le i, Nat.le_sub_one_of_lt hi', Interval.contains_iff.1 hv⟩

/-- The intervals begin where the set begins after a gap. -/
theorem setOf_starts (h : d.Canonical) :
    {v ∈ d.carrier | v - 1 ∉ d.carrier} = ((d.ranges.map Interval.lo).toFinset : Set Int) := by
  ext v
  simp only [carrier, Set.mem_ofPred_eq, List.coe_toFinset, List.mem_map]
  constructor
  · rintro ⟨⟨r, hr, hlo, hhi⟩, hbefore⟩
    exact ⟨r, hr, by_contra fun hne => hbefore ⟨r, hr, by omega, by omega⟩⟩
  · rintro ⟨r, hr, rfl⟩
    have hproper := h.proper r hr
    refine ⟨⟨r, hr, le_rfl, hproper⟩, ?_⟩
    rintro ⟨s, hs, hlo, hhi⟩
    rcases h.trichotomy hr hs with hlt | rfl | hlt
    · omega
    · omega
    · omega

/-- There are as many intervals as gaps before a value. -/
theorem length_ranges (h : d.Canonical) :
    d.ranges.length = {v ∈ d.carrier | v - 1 ∉ d.carrier}.ncard := by
  have hnodup : (d.ranges.map Interval.lo).Nodup := by
    rw [List.Nodup, List.pairwise_map]
    refine h.apart.imp_of_mem fun {r s} hr _ hlt => ?_
    have := h.proper r hr
    omega
  rw [h.setOf_starts, Set.ncard_coe_finset, List.toFinset_card_of_nodup hnodup, List.length_map]

/-- An interval of a smaller domain lies within one interval, as there is no gap in it. -/
theorem isSubsetOf_iff (hd : d.Canonical) (he : e.Canonical) :
    d.isSubsetOf e = true ↔ d.carrier ⊆ e.carrier := by
  simp only [isSubsetOf, List.all_eq_true, List.any_eq_true, decide_eq_true_iff]
  constructor
  · rintro hall v ⟨r, hr, hlo, hhi⟩
    obtain ⟨s, hs, hsr⟩ := hall r hr
    exact ⟨s, hs, by omega, by omega⟩
  · intro hsub r hr
    have hproper := hd.proper r hr
    obtain ⟨s, hs, hlo, hhi⟩ := hsub ⟨r, hr, le_rfl, hproper⟩
    refine ⟨s, hs, hlo, not_lt.1 fun hlt => ?_⟩
    -- The value behind the end of `s` would lie in an interval that touches `s`.
    obtain ⟨t, ht, hlo', hhi'⟩ := hsub (show s.hi + 1 ∈ d.carrier from ⟨r, hr, by omega, by omega⟩)
    rcases he.trichotomy hs ht with hgap | rfl | hgap
    · omega
    · omega
    · omega

theorem isAssigned_iff_carrier (h : d.Canonical) :
    d.isAssigned = true ↔ ∃ v, d.carrier = {v} := by
  rw [isAssigned, decide_eq_true_iff, ← h.ncard_carrier, Set.ncard_eq_one]

/-- The event tells what the set has lost. -/
theorem describes_eventTowards (hd : d.Canonical) (he : e.Canonical)
    (hsub : e.carrier ⊆ d.carrier) : (d.eventTowards e).Describes d.carrier e.carrier := by
  have hfinite : d.carrier.Finite := d.carrier_eq_toFinset ▸ Finset.finite_toSet _
  have hne : e.carrier ≠ ∅ := (meaning.nonempty e he).ne_empty
  have hsize : e.size = d.size ↔ e.carrier = d.carrier := by
    rw [← he.ncard_carrier, ← hd.ncard_carrier]
    exact ⟨fun h => Set.eq_of_subset_of_ncard_le hsub h.ge hfinite, fun h => h ▸ rfl⟩
  have hends := sameEnds_iff hd.isLeast_min hd.isGreatest_max he.isLeast_min he.isGreatest_max
  unfold eventTowards
  by_cases hsame : e.size = d.size
  · rw [if_pos hsame]
    exact ⟨hne, hsize.1 hsame⟩
  rw [if_neg hsame]
  rw [hsize] at hsame
  by_cases hassigned : e.isAssigned = true
  · rw [if_pos hassigned]
    exact ⟨hsame, he.isAssigned_iff_carrier.1 hassigned⟩
  rw [if_neg hassigned]
  rw [he.isAssigned_iff_carrier] at hassigned
  by_cases hmoved : e.min ≠ d.min ∨ e.max ≠ d.max
  · rw [if_pos hmoved]
    exact ⟨hne, hsame, hassigned, fun h => not_and_or.2 hmoved (hends.1 h)⟩
  · rw [if_neg hmoved]
    exact ⟨hne, hsame, hassigned, hends.2 (not_or.1 hmoved |>.imp not_not.1 not_not.1)⟩

/-- A restriction keeps exactly the values in the relation. -/
theorem keeps_restrict (h : d.Canonical) (relation : Relation) (v : Int) :
    (d.restrict relation v).Keeps carrier d (relation.Holds · v) :=
  meaning.keeps h (fun _ _ => forall_congr' fun _ => imp_congr_left mem_carrier.symm)
    (h.restrict relation v)

end Canonical

/-- What a restriction leaves is canonical, and smaller. -/
theorem Canonical.of_changed (h : d.Canonical) {relation : Relation} {v : Int}
    (hr : d.restrict relation v = .changed e) : e.Canonical ∧ e ≤ d := by
  have hn := h.restrict relation v
  rw [hr] at hn
  exact ⟨hn.1, hn.2.1⟩

/-! ### The domains that arise -/

/-- The domains that are made of words, as an interval or from a list, and by restrictions. -/
inductive Arises : IntDomain → Prop
  | ofInterval {lower upper : Int} {d : IntDomain} (hlower : Word.Fits lower)
      (hupper : Word.Fits upper) (h : ofInterval? lower upper = some d) : Arises d
  | ofValues {values : List Int} {d : IntDomain} (hvalues : ∀ v ∈ values, Word.Fits v)
      (h : ofValues? values = some d) : Arises d
  | restrict {d e : IntDomain} {relation : Relation} {v : Int} (hd : Arises d)
      (h : d.restrict relation v = .changed e) : Arises e

theorem Arises.canonical (h : d.Arises) : d.Canonical := by
  induction h with
  | ofInterval _ _ h => exact (canonical_ofInterval? h).1
  | ofValues _ h => exact (canonical_ofValues? h).1
  | restrict _ h ih => exact (ih.of_changed h).1

theorem Arises.fits (h : d.Arises) {v : Int} (hv : v ∈ d) : Word.Fits v := by
  induction h with
  | ofInterval hlower hupper h =>
    have hv := ((canonical_ofInterval? h).2 v).1 hv
    exact ⟨hlower.1.trans hv.1, hv.2.trans hupper.2⟩
  | ofValues hvalues h => exact hvalues v (((canonical_ofValues? h).2 v).1 hv)
  | restrict hd h ih => exact ih ((hd.canonical.of_changed h).2 v hv)

/-- The intervals are canonical and their ends are words, and all that is asked of the domain is
answered about its set. -/
structure Faithful (d : IntDomain) : Prop where
  separated : Separated d.ranges
  fits : ∀ r ∈ d.ranges, Word.Fits r.lo ∧ Word.Fits r.hi
  size_eq : d.size = d.carrier.ncard
  contains_iff : ∀ v, d.contains v = true ↔ v ∈ d.carrier
  search_eq : ∀ v, d.ranges.toArray.binSearchContains ⟨v, v⟩ (fun r s => decide (r.hi < s.lo)) =
    d.contains v
  isLeast_min : IsLeast d.carrier d.min
  isGreatest_max : IsGreatest d.carrier d.max
  values_increasing : d.values.Pairwise (· < ·)
  mem_values_iff : ∀ v, v ∈ d.values ↔ v ∈ d.carrier
  nth : ∀ i < d.size, IsNth d.carrier i (d.nth i)
  nth_beyond : ∀ i, d.size ≤ i → d.nth i = d.max
  median : IsNth d.carrier ((d.carrier.ncard - 1) / 2) d.median
  length_ranges : d.ranges.length = {v ∈ d.carrier | v - 1 ∉ d.carrier}.ncard

/-- Two domains compare as their sets do. -/
structure Compares (d e : IntDomain) : Prop where
  isSubsetOf_iff : d.isSubsetOf e = true ↔ d.carrier ⊆ e.carrier
  eq_iff : d = e ↔ d.carrier = e.carrier
  event : e.carrier ⊆ d.carrier → (d.eventTowards e).Describes d.carrier e.carrier

theorem Arises.faithful (h : d.Arises) : d.Faithful where
  separated := h.canonical
  fits r hr := by
    have hproper := h.canonical.proper r hr
    exact ⟨h.fits (mem_carrier.1 ⟨r, hr, le_rfl, hproper⟩),
      h.fits (mem_carrier.1 ⟨r, hr, hproper, le_rfl⟩)⟩
  size_eq := h.canonical.ncard_carrier.symm
  contains_iff _ := mem_carrier.symm
  search_eq := h.canonical.binSearchContains
  isLeast_min := h.canonical.isLeast_min
  isGreatest_max := h.canonical.isGreatest_max
  values_increasing := h.canonical.pairwise_values
  mem_values_iff _ := mem_values.trans mem_carrier.symm
  nth _ := h.canonical.isNth_nth
  nth_beyond _ := nth_of_size_le
  median := by
    rw [h.canonical.ncard_carrier]
    have := h.canonical.size_pos
    exact h.canonical.isNth_nth (by omega)
  length_ranges := h.canonical.length_ranges

theorem Arises.compares (hd : d.Arises) (he : e.Arises) : d.Compares e where
  isSubsetOf_iff := hd.canonical.isSubsetOf_iff he.canonical
  eq_iff := meaning.eq_iff hd.canonical he.canonical
  event := hd.canonical.describes_eventTowards he.canonical

/-- **Integer domains are canonical sets.** An interval and a list of values give the domain of
their values, if there are any. Whatever restrictions follow, the intervals stay canonical, all
queries and comparisons are those of sets, and a restriction keeps exactly the values in the
relation. -/
theorem canonical_sets :
    (∀ lower upper, Denotes carrier (Set.Icc lower upper) (ofInterval? lower upper)) ∧
    (∀ values, Denotes carrier {v | v ∈ values} (ofValues? values)) ∧
    ∀ d : IntDomain, d.Arises → d.Faithful ∧
      (∀ relation v, (d.restrict relation v).Keeps carrier d (relation.Holds · v)) ∧
      ∀ e : IntDomain, e.Arises → d.Compares e :=
  ⟨denotes_ofInterval?, denotes_ofValues?, fun _ hd =>
    ⟨hd.faithful, hd.canonical.keeps_restrict, fun _ he => hd.compares he⟩⟩

/-- A domain that reaches from the least word to the greatest, and what is left of it when a value
in the middle of an interval is removed. -/
theorem canonical_sets_split :
    ∃ d e : IntDomain, ofValues? [Word.least, 3, 3, 4, 5, Word.greatest] = some d ∧
      d.restrict .notEqual 4 = .changed e ∧
      e.ranges = [⟨Word.least, Word.least⟩, ⟨3, 3⟩, ⟨5, 5⟩, ⟨Word.greatest, Word.greatest⟩] ∧
      d.eventTowards e = .domain ∧ d.Arises ∧ e.Arises ∧ e.Faithful ∧
      (d.restrict .notEqual 4).Keeps carrier d (· ≠ 4) ∧ d.Compares e := by
  let d : IntDomain :=
    ⟨[⟨Word.least, Word.least⟩, ⟨3, 5⟩, ⟨Word.greatest, Word.greatest⟩], by decide⟩
  let e : IntDomain :=
    ⟨[⟨Word.least, Word.least⟩, ⟨3, 3⟩, ⟨5, 5⟩, ⟨Word.greatest, Word.greatest⟩], by decide⟩
  have hbuilt : ofValues? [Word.least, 3, 3, 4, 5, Word.greatest] = some d := by
    rw [ofValues?_of_pairwise (by decide)]
    rfl
  have hsplit : d.restrict .notEqual 4 = .changed e := by decide
  have hd : d.Arises := .ofValues (by decide) hbuilt
  have he : e.Arises := .restrict hd hsplit
  have hlaws := canonical_sets.2.2
  exact ⟨d, e, hbuilt, hsplit, rfl, by decide, hd, he, (hlaws e he).1,
    (hlaws d hd).2.1 .notEqual 4, (hlaws d hd).2.2 e he⟩

end IntDomain

end ConstraintSearch
