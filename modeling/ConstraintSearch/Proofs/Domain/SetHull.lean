import Mathlib.Data.Finset.Sort
import ConstraintSearch.Proofs.Domain.Meaning
import ConstraintSearch.Proofs.Domain.SetDomain

/-!
# Set domains are exact hulls

A set domain denotes the sets between its two lists that have an admissible number of elements. The
normal form is tight: its four parts can be read off from these sets.

* `SetDomain.setsBetween`, `SetDomain.sets`: the sets that lists and cardinality bounds leave;
* `SetDomain.meaning`: normal forms and the families of their sets correspond;
* `SetDomain.denotes_normalised`: one pass of normalisation keeps all sets, and finds out if there
  are none;
* `SetDomain.Hull`: what the parts of a domain say about its sets, with `Normal.hull`;
* `SetDomain.Arises`: the domains that are built and narrowed by the operations;
* `SetDomain.exact_hulls` puts all of it together.
-/

namespace ConstraintSearch.SetDomain

/-- The sets between two lists of elements with a bounded number of elements. -/
def setsBetween (required possible : List Int) (cardMin cardMax : Nat) : Set (Finset Int) :=
  {s | (∀ v ∈ required, v ∈ s) ∧ (∀ v ∈ s, v ∈ possible) ∧ cardMin ≤ s.card ∧ s.card ≤ cardMax}

/-- The sets of a domain. -/
def sets (d : SetDomain) : Set (Finset Int) :=
  setsBetween d.required d.possible d.cardMin d.cardMax

variable {d e : SetDomain} {s : Finset Int} {v : Int}

/-! ### Sets and sorted lists -/

theorem sort_mem_iff : s.sort ∈ d ↔ s ∈ d.sets := by
  have hmem {v : Int} : v ∈ s.sort ↔ v ∈ s := Finset.mem_sort _
  have hlength : s.sort.length = s.card := Finset.length_sort _
  constructor
  · rintro ⟨-, hrequired, hpossible, hmin, hmax⟩
    exact ⟨fun v hv => hmem.1 (hrequired hv), fun v hv => hpossible (hmem.2 hv),
      hmin.trans_eq hlength, hlength.symm.trans_le hmax⟩
  · rintro ⟨hrequired, hpossible, hmin, hmax⟩
    exact ⟨s.sortedLT_sort.pairwise, fun v hv => hmem.2 (hrequired v hv),
      fun v hv => hpossible v (hmem.1 hv), hmin.trans_eq hlength.symm, hlength.trans_le hmax⟩

theorem toFinset_mem_sets {l : List Int} (h : l ∈ d) : l.toFinset ∈ d.sets := by
  obtain ⟨hlt, hrequired, hpossible, hmin, hmax⟩ := h
  have hcard := List.toFinset_card_of_nodup (nodup_of_pairwise_lt hlt)
  exact ⟨fun v hv => List.mem_toFinset.2 (hrequired hv),
    fun v hv => hpossible (List.mem_toFinset.1 hv), hmin.trans_eq hcard.symm, hcard.trans_le hmax⟩

/-- The domain of one set. -/
theorem sets_exactly (s : Finset Int) : (exactly s.sort).sets = {s} := by
  ext t
  have hlength : s.sort.length = s.card := Finset.length_sort _
  simp only [sets, setsBetween, exactly, Finset.mem_sort, hlength, Set.mem_ofPred_eq,
    Set.mem_singleton_iff]
  constructor
  · rintro ⟨hst, hts, -, -⟩
    exact Finset.Subset.antisymm hts hst
  · rintro rfl
    exact ⟨fun _ => id, fun _ => id, le_rfl, le_rfl⟩

/-! ### Hulls -/

/-- One list has the elements of all sets and the other those of any set, the cardinality bounds are
attained, and the domain is assigned when there is one set. -/
structure Hull (d : SetDomain) : Prop where
  required_increasing : d.required.Pairwise (· < ·)
  possible_increasing : d.possible.Pairwise (· < ·)
  mem_required : ∀ v, v ∈ d.required ↔ ∀ s ∈ d.sets, v ∈ s
  mem_possible : ∀ v, v ∈ d.possible ↔ ∃ s ∈ d.sets, v ∈ s
  isLeast_cardMin : IsLeast (Finset.card '' d.sets) d.cardMin
  isGreatest_cardMax : IsGreatest (Finset.card '' d.sets) d.cardMax
  isAssigned_iff : d.isAssigned = true ↔ ∃! s, s ∈ d.sets

namespace Normal

theorem nonempty_sets (h : d.Normal) : d.sets.Nonempty :=
  h.exists_mem.imp' List.toFinset fun _ => toFinset_mem_sets

/-- An element that is not decided is in some sets and not in others. -/
theorem exists_mem_sets_iff (h : d.Normal) (hv : v ∈ d.possible) (hv' : v ∉ d.required) (b : Bool) :
    ∃ s ∈ d.sets, (v ∈ s ↔ b = true) := by
  obtain ⟨l, hl, hiff⟩ := h.exists_mem_iff hv hv' b
  exact ⟨l.toFinset, toFinset_mem_sets hl, List.mem_toFinset.trans hiff⟩

/-- Each admissible number of elements is attained. -/
theorem exists_card_eq (h : d.Normal) {n : Nat} (hmin : d.cardMin ≤ n) (hmax : n ≤ d.cardMax) :
    ∃ s ∈ d.sets, s.card = n := by
  have hcardRequired := List.toFinset_card_of_nodup (nodup_of_pairwise_lt h.pairwise_required)
  have hcardPossible := List.toFinset_card_of_nodup (nodup_of_pairwise_lt h.pairwise_possible)
  have hrequired := h.required_le
  have hpossible := h.le_possible
  have hsub : d.required.toFinset ⊆ d.possible.toFinset := fun v hv =>
    List.mem_toFinset.2 (h.required_subset (List.mem_toFinset.1 hv))
  obtain ⟨s, hrs, hsp, hcard⟩ :=
    Finset.exists_subsuperset_card_eq (n := n) hsub (by omega) (by omega)
  refine ⟨s, ⟨fun v hv => hrs (List.mem_toFinset.2 hv), fun v hv => List.mem_toFinset.1 (hsp hv),
    ?_, ?_⟩, hcard⟩
  · omega
  · omega

theorem mem_required_iff (h : d.Normal) : v ∈ d.required ↔ ∀ s ∈ d.sets, v ∈ s := by
  refine ⟨fun hv s hs => hs.1 v hv, fun hall => by_contra fun hv => ?_⟩
  obtain ⟨s, hs⟩ := h.nonempty_sets
  obtain ⟨t, ht, hiff⟩ := h.exists_mem_sets_iff (hs.2.1 v (hall s hs)) hv false
  exact Bool.false_ne_true (hiff.1 (hall t ht))

theorem mem_possible_iff (h : d.Normal) : v ∈ d.possible ↔ ∃ s ∈ d.sets, v ∈ s := by
  refine ⟨fun hv => ?_, fun ⟨s, hs, hv⟩ => hs.2.1 v hv⟩
  by_cases hv' : v ∈ d.required
  · obtain ⟨s, hs⟩ := h.nonempty_sets
    exact ⟨s, hs, hs.1 v hv'⟩
  · obtain ⟨s, hs, hiff⟩ := h.exists_mem_sets_iff hv hv' true
    exact ⟨s, hs, hiff.2 rfl⟩

theorem isLeast_cardMin (h : d.Normal) : IsLeast (Finset.card '' d.sets) d.cardMin := by
  refine ⟨h.exists_card_eq le_rfl h.card_le, ?_⟩
  rintro _ ⟨s, hs, rfl⟩
  exact hs.2.2.1

theorem isGreatest_cardMax (h : d.Normal) : IsGreatest (Finset.card '' d.sets) d.cardMax := by
  refine ⟨h.exists_card_eq h.card_le le_rfl, ?_⟩
  rintro _ ⟨s, hs, rfl⟩
  exact hs.2.2.2

theorem isAssigned_iff_sets (h : d.Normal) : d.isAssigned = true ↔ ∃! s, s ∈ d.sets := by
  constructor
  · intro ha
    obtain ⟨s, hs⟩ := h.nonempty_sets
    have hmem {t : Finset Int} (ht : t ∈ d.sets) (v : Int) : v ∈ t ↔ v ∈ d.required :=
      ⟨fun hv => h.isAssigned_iff.1 ha ▸ ht.2.1 v hv, ht.1 v⟩
    exact ⟨s, hs, fun t ht => Finset.ext fun v => (hmem ht v).trans (hmem hs v).symm⟩
  · rintro ⟨s, -, hunique⟩
    by_contra ha
    obtain ⟨v, -, hv, hv'⟩ := h.exists_unknown (Bool.eq_false_iff.2 ha)
    obtain ⟨t, ht, htv⟩ := h.exists_mem_sets_iff hv hv' true
    obtain ⟨u, hu, huv⟩ := h.exists_mem_sets_iff hv hv' false
    rw [hunique t ht] at htv
    rw [hunique u hu] at huv
    exact Bool.false_ne_true (huv.1 (htv.2 rfl))

theorem hull (h : d.Normal) : d.Hull where
  required_increasing := h.pairwise_required
  possible_increasing := h.pairwise_possible
  mem_required _ := h.mem_required_iff
  mem_possible _ := h.mem_possible_iff
  isLeast_cardMin := h.isLeast_cardMin
  isGreatest_cardMax := h.isGreatest_cardMax
  isAssigned_iff := h.isAssigned_iff_sets

end Normal

/-! ### The order of the domains -/

theorem sets_subset_of_le (h : e ≤ d) : e.sets ⊆ d.sets := fun _ hs =>
  ⟨fun v hv => hs.1 v (h.1 hv), fun v hv => h.2.1 (hs.2.1 v hv), h.2.2.1.trans hs.2.2.1,
    hs.2.2.2.trans h.2.2.2⟩

/-- A normal form lies below a domain that has all of its sets. -/
theorem Normal.le_of_sets_subset (he : e.Normal) {required possible : List Int}
    {cardMin cardMax : Nat} (h : e.sets ⊆ setsBetween required possible cardMin cardMax) :
    e ≤ ⟨required, possible, cardMin, cardMax⟩ := by
  refine ⟨fun v hv => ?_, fun v hv => ?_, ?_, ?_⟩
  · exact he.mem_required_iff.2 fun s hs => (h hs).1 v hv
  · obtain ⟨s, hs, hv⟩ := he.mem_possible_iff.1 hv
    exact (h hs).2.1 v hv
  · obtain ⟨s, hs, hcard⟩ := he.isLeast_cardMin.1
    exact (h hs).2.2.1.trans_eq hcard
  · obtain ⟨s, hs, hcard⟩ := he.isGreatest_cardMax.1
    exact hcard.symm.trans_le (h hs).2.2.2

/-- Normal forms and the families of their sets correspond. -/
theorem meaning : Meaning Normal sets where
  nonempty _ hd := hd.nonempty_sets
  le_iff _ _ _ he := ⟨sets_subset_of_le, he.le_of_sets_subset⟩
  antisymm _ _ := le_antisymm
  exists_only _ _ s _ :=
    ⟨exactly s.sort, normal_exactly s.sortedLT_sort.pairwise, sets_exactly s⟩

/-! ### Normalisation -/

/-- One pass of normalisation keeps all sets, and finds out if there are none. -/
theorem denotes_normalised (h : d.Ordered) : Denotes sets d.sets d.normalised := by
  -- A set of `d` is a normal form below `d`.
  have below {s : Finset Int} (hs : s ∈ d.sets) : exactly s.sort ≤ d := (sort_mem_iff.2 hs).2
  have normal (s : Finset Int) : (exactly s.sort).Normal :=
    normal_exactly s.sortedLT_sort.pairwise
  cases hn : d.normalised with
  | none =>
    refine ⟨iff_of_true rfl (Set.eq_empty_iff_forall_notMem.2 fun s hs => ?_), nofun⟩
    exact not_le_of_normalised_eq_none h hn (normal s) (below hs)
  | some d' =>
    obtain ⟨hd', hle, -, hgreatest⟩ := normal_of_normalised h hn
    have hsub := sets_subset_of_le hle
    refine ⟨iff_of_false nofun (hd'.nonempty_sets.mono hsub).ne_empty, ?_⟩
    rintro _ ⟨⟩
    refine hsub.antisymm fun s hs => ?_
    exact sort_mem_iff.1 ⟨s.sortedLT_sort.pairwise, hgreatest _ (normal s) (below hs)⟩

theorem mem_sorted {values : List Int} : v ∈ sorted values ↔ v ∈ values :=
  ((distinctSorted_spec (pairwise_le_mergeSort values)).2 v).trans List.mem_mergeSort

theorem denotes_of? (required possible : List Int) (cardMin cardMax : Nat) :
    Denotes sets (setsBetween required possible cardMin cardMax)
      (of? required possible cardMin cardMax) := by
  have hsets : setsBetween required possible cardMin cardMax =
      sets ⟨sorted required, sorted possible, cardMin, cardMax⟩ := by
    simp only [sets, setsBetween, mem_sorted]
  rw [hsets]
  unfold of?
  dsimp only
  by_cases hall : (sorted required).all ((sorted possible).contains ·) = true
  · rw [if_pos hall]
    exact denotes_normalised ⟨pairwise_sorted _, pairwise_sorted _, fun v hv => by
      simpa using List.all_eq_true.1 hall v hv⟩
  · rw [if_neg hall]
    refine ⟨iff_of_true rfl (Set.eq_empty_iff_forall_notMem.2 fun s hs => hall ?_), nofun⟩
    exact List.all_eq_true.2 fun v hv => List.contains_iff_mem.2 (hs.2.1 v (hs.1 v hv))

/-! ### Operations -/

namespace Normal

theorem keeps_including (h : d.Normal) (v : Int) : (d.including v).Keeps sets d (v ∈ ·) :=
  meaning.keeps h (fun _ he => he.mem_required_iff) (h.including v)

theorem keeps_excluding (h : d.Normal) (v : Int) : (d.excluding v).Keeps sets d (v ∉ ·) := by
  refine meaning.keeps h (fun e he => ?_) (h.excluding v)
  rw [he.mem_possible_iff]
  push Not
  exact Iff.rfl

theorem keeps_withCardinality (h : d.Normal) (least greatest : Nat) :
    (d.withCardinality least greatest).Keeps sets d
      fun s => least ≤ s.card ∧ s.card ≤ greatest := by
  refine meaning.keeps h (fun e he => ?_) (h.withCardinality least greatest)
  have hmin := he.isLeast_cardMin
  have hmax := he.isGreatest_cardMax
  constructor
  · rintro ⟨hleast, hgreatest⟩ s hs
    exact ⟨hleast.trans hs.2.2.1, hs.2.2.2.trans hgreatest⟩
  · intro hall
    obtain ⟨⟨s, hs, hcard⟩, -⟩ := hmin
    obtain ⟨⟨t, ht, hcard'⟩, -⟩ := hmax
    exact ⟨(hall s hs).1.trans_eq hcard, hcard'.symm.trans_le (hall t ht).2⟩

end Normal

/-! ### The domains that arise -/

/-- The domains that are built, and narrowed by the operations. -/
inductive Arises : SetDomain → Prop
  | of? {required possible : List Int} {cardMin cardMax : Nat} {d : SetDomain}
      (h : of? required possible cardMin cardMax = some d) : Arises d
  | including {d e : SetDomain} {v : Int} (hd : Arises d)
    (h : d.including v = .changed e) : Arises e
  | excluding {d e : SetDomain} {v : Int} (hd : Arises d)
    (h : d.excluding v = .changed e) : Arises e
  | withCardinality {d e : SetDomain} {least greatest : Nat} (hd : Arises d)
      (h : d.withCardinality least greatest = .changed e) : Arises e

theorem Arises.normal (h : d.Arises) : d.Normal := by
  have of_narrowed {d e : SetDomain} {property : SetDomain → Prop} {n : Narrowing SetDomain}
      (hn : Narrowed Normal property freedom d n) (h : n = .changed e) : e.Normal := by
    subst h
    exact hn.1
  induction h with
  | of? h => exact normal_of? h
  | including _ h ih => exact of_narrowed (ih.including _) h
  | excluding _ h ih => exact of_narrowed (ih.excluding _) h
  | withCardinality _ h ih => exact of_narrowed (ih.withCardinality _ _) h

/-- **Set domains are exact hulls.** A domain is built from two lists and cardinality bounds if they
leave a set, and then it denotes what they leave. Whatever operations follow, the parts of the
domain are the tightest that include its sets, and an operation keeps exactly the sets that satisfy
its condition. -/
theorem exact_hulls :
    (∀ required possible cardMin cardMax,
      Denotes sets (setsBetween required possible cardMin cardMax)
        (of? required possible cardMin cardMax)) ∧
    ∀ d : SetDomain, d.Arises → d.Hull ∧
      (∀ v, (d.including v).Keeps sets d (v ∈ ·)) ∧
      (∀ v, (d.excluding v).Keeps sets d (v ∉ ·)) ∧
      ∀ least greatest, (d.withCardinality least greatest).Keeps sets d
        fun s => least ≤ s.card ∧ s.card ≤ greatest :=
  ⟨denotes_of?, fun _ hd => ⟨hd.normal.hull, hd.normal.keeps_including, hd.normal.keeps_excluding,
    hd.normal.keeps_withCardinality⟩⟩

/-- Sets with at most two of four elements: when a second element is included, the set is
decided. -/
theorem exact_hulls_closing :
    ∃ d e : SetDomain, of? [2] [1, 2, 3, 4] 0 2 = some d ∧ d.including 4 = .changed e ∧
      d.possible = [1, 2, 3, 4] ∧ d.cardMin = 1 ∧ e.possible = [2, 4] ∧ e.isAssigned = true ∧
      e.Arises ∧ e.Hull ∧ (d.including 4).Keeps sets d (4 ∈ ·) := by
  let d : SetDomain := ⟨[2], [1, 2, 3, 4], 1, 2⟩
  let e : SetDomain := ⟨[2, 4], [2, 4], 2, 2⟩
  have hbuilt : of? [2] [1, 2, 3, 4] 0 2 = some d := by
    rw [of?_of_pairwise (by decide) (by decide) (by decide)]
    rfl
  have hincluded : d.including 4 = .changed e := by decide
  have hd : d.Arises := .of? hbuilt
  have he : e.Arises := .including hd hincluded
  exact ⟨d, e, hbuilt, hincluded, rfl, rfl, rfl, rfl, he, (exact_hulls.2 e he).1,
    (exact_hulls.2 d hd).2.1 4⟩

end ConstraintSearch.SetDomain
