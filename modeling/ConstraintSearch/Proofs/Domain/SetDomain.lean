import Mathlib.Data.Finset.Sort
import Mathlib.Data.List.Sort
import Mathlib.Data.Set.Finite.List
import ConstraintSearch.Domain.SetDomain
import ConstraintSearch.Proofs.Domain.IntDomain

/-!
# The theory of set domains

Every set domain of a space is in normal form: both lists are in increasing order, the cardinality
bounds are tight to them, and a list that the cardinality decides is closed. The smaller domains
are those with more required and fewer possible elements and closer cardinality bounds.

* `normal_of_normalised`, `not_le_of_normalised_eq_none`: normalisation finds the greatest normal
  form below a domain, if there is one;
* `Normal.including`, `Normal.excluding`, `Normal.withCardinality`: each narrowing keeps exactly
  what satisfies its condition;
* `Normal.isAssigned_iff`: the domain of a decided set has one set;
* `exactly` is the domain of one set, and `l ∈ d` says that the domain has the set `l`;
* `Normal.exists_mem_iff`: an open element can be decided either way.
-/

namespace ConstraintSearch.SetDomain

/-! ### Lists in increasing order -/

theorem nodup_of_pairwise_lt {l : List Int} (h : l.Pairwise (· < ·)) : l.Nodup :=
  h.imp fun hlt => Int.ne_of_lt hlt

theorem length_le_of_subset {l m : List Int} (hl : l.Pairwise (· < ·)) (h : l ⊆ m) :
    l.length ≤ m.length :=
  (List.subperm_of_subset (nodup_of_pairwise_lt hl) h).length_le

/-- A list in increasing order that lies within another one and is as long is the same list. -/
theorem eq_of_subset_of_length_le {l m : List Int} (hl : l.Pairwise (· < ·))
    (hm : m.Pairwise (· < ·)) (h : l ⊆ m) (hlen : m.length ≤ l.length) : l = m :=
  (List.sublist_of_subperm_of_pairwise (List.subperm_of_subset (nodup_of_pairwise_lt hl) h)
    hl hm).eq_of_length_le hlen

theorem mem_insertSorted {v w : Int} {l : List Int} :
    w ∈ insertSorted v l ↔ w = v ∨ w ∈ l := by
  unfold insertSorted
  conv_rhs => rw [← List.takeWhile_append_dropWhile (p := (· < v)) (l := l)]
  simp only [List.mem_append, List.mem_cons]
  tauto

theorem length_insertSorted (v : Int) (l : List Int) :
    (insertSorted v l).length = l.length + 1 := by
  unfold insertSorted
  have := congrArg List.length (List.takeWhile_append_dropWhile (p := (· < v)) (l := l))
  simp only [List.length_append, List.length_cons] at this ⊢
  omega

theorem pairwise_insertSorted {v : Int} {l : List Int} (h : l.Pairwise (· < ·)) (hv : v ∉ l) :
    (insertSorted v l).Pairwise (· < ·) := by
  induction l with
  | nil => simp [insertSorted]
  | cons w l ih =>
    obtain ⟨hlt, h⟩ := List.pairwise_cons.1 h
    rw [List.mem_cons, not_or] at hv
    by_cases hw : w < v
    · have hcons : insertSorted v (w :: l) = w :: insertSorted v l := by
        simp [insertSorted, hw]
      rw [hcons, List.pairwise_cons]
      refine ⟨fun u hu => ?_, ih h hv.2⟩
      rcases mem_insertSorted.1 hu with rfl | hu
      · exact hw
      · exact hlt u hu
    · have hcons : insertSorted v (w :: l) = v :: w :: l := by
        simp [insertSorted, hw]
      rw [hcons, List.pairwise_cons, List.pairwise_cons]
      refine ⟨fun u hu => ?_, hlt, h⟩
      rcases List.mem_cons.1 hu with rfl | hu
      · omega
      · have := hlt u hu
        omega

theorem distinctSorted_spec {l : List Int} (h : l.Pairwise (· ≤ ·)) :
    (distinctSorted l).Pairwise (· < ·) ∧ ∀ v, v ∈ distinctSorted l ↔ v ∈ l := by
  induction l with
  | nil => simp [distinctSorted]
  | cons w l ih =>
    obtain ⟨hle, h⟩ := List.pairwise_cons.1 h
    obtain ⟨hlt, hmem⟩ := ih h
    simp only [distinctSorted, List.mem_cons, ← hmem]
    cases hd : distinctSorted l with
    | nil => simp
    | cons u us =>
      rw [hd] at hlt hmem
      dsimp only
      split
      · rename_i heq
        subst heq
        exact ⟨hlt, fun v => by simp⟩
      · rename_i hne
        refine ⟨List.pairwise_cons.2 ⟨fun v hv => ?_, hlt⟩, fun v => by simp⟩
        have hu := hle u ((hmem u).1 (by simp))
        rcases List.mem_cons.1 hv with rfl | hv
        · omega
        · have := (List.pairwise_cons.1 hlt).1 v hv
          omega

theorem pairwise_sorted (values : List Int) : (sorted values).Pairwise (· < ·) :=
  (distinctSorted_spec (pairwise_le_mergeSort values)).1

theorem distinctSorted_of_pairwise {l : List Int} (h : l.Pairwise (· < ·)) :
    distinctSorted l = l := by
  induction l with
  | nil => rfl
  | cons v l ih =>
    obtain ⟨hlt, h⟩ := List.pairwise_cons.1 h
    unfold distinctSorted
    rw [ih h]
    cases l with
    | nil => rfl
    | cons w l => exact if_neg (hlt w (by simp)).ne

theorem sorted_of_pairwise {l : List Int} (h : l.Pairwise (· < ·)) : sorted l = l := by
  unfold sorted
  rw [mergeSort_of_pairwise_le (h.imp fun hlt => hlt.le), distinctSorted_of_pairwise h]

/-! ### The normal form -/

instance : Inhabited SetDomain := ⟨⟨[], [], 0, 0⟩⟩

/-- The smaller domain requires more, leaves less possible, and has closer cardinality bounds. -/
instance : LE SetDomain :=
  ⟨fun e d => d.required ⊆ e.required ∧ e.possible ⊆ d.possible ∧ d.cardMin ≤ e.cardMin ∧
    e.cardMax ≤ d.cardMax⟩

theorem le_refl (d : SetDomain) : d ≤ d :=
  ⟨List.Subset.refl _, List.Subset.refl _, Nat.le_refl _, Nat.le_refl _⟩

theorem le_trans {a b c : SetDomain} (hab : a ≤ b) (hbc : b ≤ c) : a ≤ c :=
  ⟨List.Subset.trans hbc.1 hab.1, List.Subset.trans hab.2.1 hbc.2.1,
    Nat.le_trans hbc.2.2.1 hab.2.2.1, Nat.le_trans hab.2.2.2 hbc.2.2.2⟩

/-- Two lists in increasing order, one within the other. -/
structure Ordered (d : SetDomain) : Prop where
  pairwise_required : d.required.Pairwise (· < ·)
  pairwise_possible : d.possible.Pairwise (· < ·)
  required_subset : d.required ⊆ d.possible

/-- The cardinality bounds are tight to the two lists, and a list that they decide is closed. -/
structure Normal (d : SetDomain) : Prop extends Ordered d where
  required_le : d.required.length ≤ d.cardMin
  card_le : d.cardMin ≤ d.cardMax
  le_possible : d.cardMax ≤ d.possible.length
  closed_below : d.required.length = d.cardMax → d.required = d.possible
  closed_above : d.possible.length = d.cardMin → d.required = d.possible

theorem Ordered.length_le {d : SetDomain} (h : d.Ordered) :
    d.required.length ≤ d.possible.length :=
  length_le_of_subset h.pairwise_required h.required_subset

/-- A normal form below a domain meets the cardinality bounds that the two lists impose. -/
theorem Normal.bounds_of_le {d e : SetDomain} (he : e.Normal) (hd : d.Ordered) (hle : e ≤ d) :
    max d.cardMin d.required.length ≤ e.cardMin ∧ e.cardMax ≤ min d.cardMax d.possible.length := by
  have := length_le_of_subset hd.pairwise_required hle.1
  have := length_le_of_subset he.pairwise_possible hle.2.1
  have := he.required_le
  have := he.le_possible
  have := hle.2.2
  omega

/-- What normalisation finds is a normal form below the domain, and above all others. -/
theorem normal_of_normalised {d d' : SetDomain} (h : d.Ordered) (hd : d.normalised = some d') :
    d'.Normal ∧ d' ≤ d ∧ d'.freedom ≤ d.freedom ∧ ∀ e : SetDomain, e.Normal → e ≤ d → e ≤ d' := by
  have hlen := h.length_le
  have hbounds {e : SetDomain} (he : e.Normal) (hle : e ≤ d) := he.bounds_of_le h hle
  unfold normalised at hd
  simp only at hd
  split at hd
  · cases hd
  rename_i hcard
  split at hd
  · -- the required elements are all that the cardinality leaves
    rename_i hlow
    cases hd
    refine ⟨⟨⟨h.pairwise_required, h.pairwise_required, List.Subset.refl _⟩, ?_, ?_, ?_,
      fun _ => rfl, fun _ => rfl⟩, ⟨List.Subset.refl _, h.required_subset, ?_, ?_⟩, ?_,
      fun e he hle => ?_⟩
    · dsimp only; omega
    · dsimp only; omega
    · dsimp only; omega
    · dsimp only; omega
    · dsimp only; omega
    · simp only [freedom]; omega
    · have := hbounds he hle
      have := length_le_of_subset h.pairwise_required hle.1
      have := he.required_le
      have := he.card_le
      have hreq :=
        eq_of_subset_of_length_le h.pairwise_required he.pairwise_required hle.1 (by omega)
      have hclosed := he.closed_below (by omega)
      exact ⟨hle.1, by simp [← hclosed, hreq], by dsimp only; omega, by dsimp only; omega⟩
  · split at hd
    · -- the cardinality takes all possible elements
      rename_i hlow hhigh
      cases hd
      refine ⟨⟨⟨h.pairwise_possible, h.pairwise_possible, List.Subset.refl _⟩, ?_, ?_, ?_,
        fun _ => rfl, fun _ => rfl⟩, ⟨h.required_subset, List.Subset.refl _, ?_, ?_⟩, ?_,
        fun e he hle => ?_⟩
      · dsimp only; omega
      · dsimp only; omega
      · dsimp only; omega
      · dsimp only; omega
      · dsimp only; omega
      · simp only [freedom]; omega
      · have := hbounds he hle
        have := length_le_of_subset he.pairwise_possible hle.2.1
        have := he.le_possible
        have := he.card_le
        have hpos := eq_of_subset_of_length_le he.pairwise_possible h.pairwise_possible hle.2.1
          (by omega)
        have hclosed := he.closed_above (by omega)
        exact ⟨by simp [hclosed, hpos], hle.2.1, by dsimp only; omega, by dsimp only; omega⟩
    · rename_i hlow hhigh
      cases hd
      refine ⟨⟨⟨h.pairwise_required, h.pairwise_possible, h.required_subset⟩, ?_, ?_, ?_,
        fun heq => absurd heq hlow, fun heq => absurd heq hhigh⟩,
        ⟨List.Subset.refl _, List.Subset.refl _, ?_, ?_⟩, ?_, fun e he hle => ?_⟩
      · dsimp only; omega
      · dsimp only; omega
      · dsimp only; omega
      · dsimp only; omega
      · dsimp only; omega
      · simp only [freedom]; omega
      · have := hbounds he hle
        exact ⟨hle.1, hle.2.1, by dsimp only; omega, by dsimp only; omega⟩

/-- If normalisation finds no cardinality, no normal form lies below the domain. -/
theorem not_le_of_normalised_eq_none {d e : SetDomain} (h : d.Ordered) (hd : d.normalised = none)
    (he : e.Normal) : ¬e ≤ d := by
  intro hle
  have := he.bounds_of_le h hle
  have := he.card_le
  unfold normalised at hd
  simp only at hd
  split at hd
  · omega
  · split at hd
    · cases hd
    · split at hd <;> cases hd

theorem normal_of? {required possible : List Int} {cardMin cardMax : Nat} {d : SetDomain}
    (h : of? required possible cardMin cardMax = some d) : d.Normal := by
  unfold of? at h
  simp only at h
  split at h
  · rename_i hall
    have hordered : Ordered ⟨sorted required, sorted possible, cardMin, cardMax⟩ :=
      ⟨pairwise_sorted _, pairwise_sorted _, fun v hv => by
        simpa using (List.all_eq_true.1 hall) v hv⟩
    exact (normal_of_normalised hordered h).1
  · cases h

theorem of?_of_pairwise {required possible : List Int} {cardMin cardMax : Nat}
    (hrequired : required.Pairwise (· < ·)) (hpossible : possible.Pairwise (· < ·))
    (h : required.all (possible.contains ·) = true) :
    of? required possible cardMin cardMax = normalised ⟨required, possible, cardMin, cardMax⟩ := by
  unfold of?
  simp only [sorted_of_pairwise hrequired, sorted_of_pairwise hpossible, if_pos h]

/-! ### Narrowings -/

theorem isRequired_iff {d : SetDomain} {v : Int} : d.isRequired v = true ↔ v ∈ d.required :=
  List.contains_iff_mem

theorem isPossible_iff {d : SetDomain} {v : Int} : d.isPossible v = true ↔ v ∈ d.possible :=
  List.contains_iff_mem

/-- An operation that passes from `d` to `e` and normalises keeps what satisfies its condition, if
the normal forms below `e` are those below `d` that satisfy the condition. -/
theorem narrowed_changed {d e : SetDomain} {condition : SetDomain → Prop} (h : e.Ordered)
    (hiff : ∀ f : SetDomain, f.Normal → (f ≤ e ↔ f ≤ d ∧ condition f))
    (hfree : e.cardMin ≤ e.cardMax → e.freedom < d.freedom) :
    Narrowed Normal condition freedom d (changed e) := by
  unfold changed
  cases hn : e.normalised with
  | none => exact fun f hf hle hc => not_le_of_normalised_eq_none h hn hf ((hiff f hf).2 ⟨hle, hc⟩)
  | some d' =>
    obtain ⟨hnormal, hle, hfreedom, hgreatest⟩ := normal_of_normalised h hn
    have hcard := hnormal.card_le
    obtain ⟨hle', hc⟩ := (hiff d' hnormal).1 hle
    exact ⟨hnormal, hle', hc, lt_of_le_of_lt hfreedom (hfree (by have := hle.2.2; omega)),
      fun f hf hfd hcf => hgreatest f hf ((hiff f hf).2 ⟨hfd, hcf⟩)⟩

namespace Normal

variable {d : SetDomain}

theorem including (h : d.Normal) (v : Int) :
    Narrowed Normal (fun e => v ∈ e.required) freedom d (d.including v) := by
  unfold SetDomain.including
  cases hreq : d.isRequired v with
  | true => exact isRequired_iff.1 hreq
  | false =>
    rw [← Bool.not_eq_true, isRequired_iff] at hreq
    cases hpos : d.isPossible v with
    | false =>
      rw [← Bool.not_eq_true, isPossible_iff] at hpos
      exact fun e he hle hv => hpos (hle.2.1 (he.required_subset hv))
    | true =>
      rw [isPossible_iff] at hpos
      have hsub : insertSorted v d.required ⊆ d.possible := fun w hw =>
        (mem_insertSorted.1 hw).elim (· ▸ hpos) (h.required_subset ·)
      have hsorted := pairwise_insertSorted h.pairwise_required hreq
      refine narrowed_changed (e := { d with required := insertSorted v d.required })
        ⟨hsorted, h.pairwise_possible, hsub⟩ (fun e he => ?_) fun _ => ?_
      · constructor
        · rintro ⟨hle, hrest⟩
          exact ⟨⟨fun w hw => hle (mem_insertSorted.2 (.inr hw)), hrest⟩,
            hle (mem_insertSorted.2 (.inl rfl))⟩
        · rintro ⟨⟨hle, hrest⟩, hv⟩
          exact ⟨fun w hw => (mem_insertSorted.1 hw).elim (· ▸ hv) (hle ·), hrest⟩
      · have := length_le_of_subset hsorted hsub
        simp only [freedom, length_insertSorted] at this ⊢
        omega

theorem excluding (h : d.Normal) (v : Int) :
    Narrowed Normal (fun e => v ∉ e.possible) freedom d (d.excluding v) := by
  unfold SetDomain.excluding
  cases hpos : d.isPossible v with
  | false =>
    rw [← Bool.not_eq_true, isPossible_iff] at hpos
    exact hpos
  | true =>
    rw [isPossible_iff] at hpos
    cases hreq : d.isRequired v with
    | true =>
      exact fun e he hle hv => hv (he.required_subset (hle.1 (isRequired_iff.1 hreq)))
    | false =>
      rw [← Bool.not_eq_true, isRequired_iff] at hreq
      have mem {w : Int} : w ∈ d.possible.filter (· ≠ v) ↔ w ∈ d.possible ∧ w ≠ v := by
        simp [List.mem_filter]
      have hsub : d.required ⊆ d.possible.filter (· ≠ v) := fun w hw =>
        mem.2 ⟨h.required_subset hw, by rintro rfl; exact hreq hw⟩
      refine narrowed_changed (e := { d with possible := d.possible.filter (· ≠ v) })
        ⟨h.pairwise_required, h.pairwise_possible.filter _, hsub⟩ (fun e he => ?_) fun _ => ?_
      · constructor
        · rintro ⟨hle, hpossible, hrest⟩
          exact ⟨⟨hle, fun w hw => (mem.1 (hpossible hw)).1, hrest⟩,
            fun hv => (mem.1 (hpossible hv)).2 rfl⟩
        · rintro ⟨⟨hle, hpossible, hrest⟩, hv⟩
          exact ⟨hle, fun w hw => mem.2 ⟨hpossible hw, by rintro rfl; exact hv hw⟩, hrest⟩
      · have hlt : (d.possible.filter (· ≠ v)).length < d.possible.length :=
          List.length_filter_lt_length_iff_exists.2 ⟨v, hpos, by simp⟩
        have hle := length_le_of_subset h.pairwise_required hsub
        simp only [freedom]
        omega

theorem withCardinality (h : d.Normal) (least greatest : Nat) :
    Narrowed Normal (fun e => least ≤ e.cardMin ∧ e.cardMax ≤ greatest) freedom d
      (d.withCardinality least greatest) := by
  unfold SetDomain.withCardinality
  simp only
  split
  · rename_i heq
    have hmin := congrArg cardMin heq
    have hmax := congrArg cardMax heq
    simp only at hmin hmax
    exact ⟨by omega, by omega⟩
  · rename_i hne
    refine narrowed_changed ⟨h.pairwise_required, h.pairwise_possible, h.required_subset⟩
      (fun e he => ?_) fun hcard => ?_
    · constructor
      · rintro ⟨hreq, hpos, hmin, hmax⟩
        dsimp only at hmin hmax
        exact ⟨⟨hreq, hpos, by omega, by omega⟩, by omega, by omega⟩
      · rintro ⟨⟨hreq, hpos, hmin, hmax⟩, hlow, hhigh⟩
        exact ⟨hreq, hpos, by dsimp only; omega, by dsimp only; omega⟩
    · have hmoved : d.cardMin < max d.cardMin least ∨ min d.cardMax greatest < d.cardMax := by
        by_contra hcon
        apply hne
        cases d
        simp only [SetDomain.mk.injEq, true_and] at hcon ⊢
        omega
      have := h.card_le
      simp only [freedom] at hcard ⊢
      omega

/-! ### Decided sets -/

theorem isAssigned_iff (h : d.Normal) : d.isAssigned = true ↔ d.required = d.possible := by
  unfold isAssigned
  rw [decide_eq_true_iff]
  exact ⟨fun hlen => eq_of_subset_of_length_le h.pairwise_required h.pairwise_possible
    h.required_subset hlen.ge, fun heq => by rw [heq]⟩

end Normal

/-- The domain of one set. -/
def exactly (s : List Int) : SetDomain := ⟨s, s, s.length, s.length⟩

theorem normal_exactly {s : List Int} (h : s.Pairwise (· < ·)) : (exactly s).Normal :=
  ⟨⟨h, h, List.Subset.refl _⟩, Nat.le_refl _, Nat.le_refl _, Nat.le_refl _, fun _ => rfl,
    fun _ => rfl⟩

theorem Normal.eq_exactly {d : SetDomain} (h : d.Normal) (ha : d.isAssigned = true) :
    d = exactly d.required := by
  have heq := h.isAssigned_iff.1 ha
  have hmin := h.required_le
  have hcard := h.card_le
  have hmax := h.le_possible
  cases d
  simp only at heq
  subst heq
  simp only [exactly, SetDomain.mk.injEq, true_and] at *
  omega

theorem le_antisymm {d e : SetDomain} (hd : d.Normal) (he : e.Normal) (hde : d ≤ e) (hed : e ≤ d) :
    d = e := by
  have hreq : d.required = e.required :=
    eq_of_subset_of_length_le hd.pairwise_required he.pairwise_required hed.1
      (length_le_of_subset he.pairwise_required hde.1)
  have hpos : d.possible = e.possible :=
    eq_of_subset_of_length_le hd.pairwise_possible he.pairwise_possible hde.2.1
      (length_le_of_subset he.pairwise_possible hed.2.1)
  have hmin := Nat.le_antisymm hed.2.2.1 hde.2.2.1
  have hmax := Nat.le_antisymm hde.2.2.2 hed.2.2.2
  cases d
  cases e
  simp only [SetDomain.mk.injEq] at *
  exact ⟨hreq, hpos, hmin, hmax⟩

/-- The set of an undecided domain has an open element. -/
theorem Normal.exists_unknown {d : SetDomain} (h : d.Normal) (ha : d.isAssigned = false) :
    ∃ v, d.leastUnknown? = some v ∧ v ∈ d.possible ∧ v ∉ d.required := by
  cases hu : d.leastUnknown? with
  | none =>
    unfold leastUnknown? isRequired at hu
    rw [List.find?_eq_none] at hu
    have hsub : d.possible ⊆ d.required := fun v hv => by simpa using hu v hv
    have := length_le_of_subset h.pairwise_possible hsub
    have := h.length_le
    simp only [isAssigned, decide_eq_false_iff_not] at ha
    omega
  | some v =>
    unfold leastUnknown? isRequired at hu
    exact ⟨v, rfl, List.mem_of_find?_eq_some hu, by simpa using List.find?_some hu⟩

/-! ### The sets of a domain -/

/-- A set between the two sets of the domain with an admissible number of elements. -/
instance : Membership (List Int) SetDomain where
  mem d l := l.Pairwise (· < ·) ∧ exactly l ≤ d

theorem finite_mem {d : SetDomain} (h : d.Ordered) : {l | l ∈ d}.Finite := by
  refine Set.Finite.subset (List.finite_toSet d.possible.sublists) fun l hl => ?_
  obtain ⟨hlt, -, hsub, -⟩ := hl
  exact List.mem_sublists.2 (List.sublist_of_subperm_of_pairwise
    (List.subperm_of_subset (nodup_of_pairwise_lt hlt) hsub) hlt h.pairwise_possible)

/-- Between two finite sets, there are sets of each size between theirs. -/
theorem exists_mem_between {d : SetDomain} {least greatest : Finset Int} {n : Nat}
    (hle : least ⊆ greatest) (hleast : least.card ≤ n) (hgreatest : n ≤ greatest.card)
    (hrequired : ∀ v ∈ d.required, v ∈ least) (hpossible : ∀ v ∈ greatest, v ∈ d.possible)
    (hmin : d.cardMin ≤ n) (hmax : n ≤ d.cardMax) :
    ∃ l ∈ d, ∀ v, (v ∈ least → v ∈ l) ∧ (v ∈ l → v ∈ greatest) := by
  obtain ⟨u, hlu, hug, hcard⟩ := Finset.exists_subsuperset_card_eq hle hleast hgreatest
  have hmem {v : Int} : v ∈ u.sort ↔ v ∈ u := Finset.mem_sort _
  have hlength : u.sort.length = n := (Finset.length_sort _).trans hcard
  refine ⟨u.sort, ⟨u.sortedLT_sort.pairwise, ?_⟩, fun v => ⟨?_, ?_⟩⟩
  · refine ⟨fun v hv => ?_, fun v hv => ?_, ?_, ?_⟩
    · exact hmem.2 (hlu (hrequired v hv))
    · exact hpossible v (hug (hmem.1 hv))
    · exact hmin.trans_eq hlength.symm
    · exact hlength.trans_le hmax
  · exact fun hv => hmem.2 (hlu hv)
  · exact fun hv => hug (hmem.1 hv)

/-- An open element is in some sets of the domain, and not in others. -/
theorem Normal.exists_mem_iff {d : SetDomain} (h : d.Normal) {v : Int} (hv : v ∈ d.possible)
    (hv' : v ∉ d.required) (b : Bool) : ∃ l ∈ d, (v ∈ l ↔ b = true) := by
  have hcardRequired := List.toFinset_card_of_nodup (nodup_of_pairwise_lt h.pairwise_required)
  have hcardPossible := List.toFinset_card_of_nodup (nodup_of_pairwise_lt h.pairwise_possible)
  have hsub : d.required.toFinset ⊆ d.possible.toFinset := fun w hw =>
    List.mem_toFinset.2 (h.required_subset (List.mem_toFinset.1 hw))
  have hrequired : v ∉ d.required.toFinset := fun hw => hv' (List.mem_toFinset.1 hw)
  have hpossible : v ∈ d.possible.toFinset := List.mem_toFinset.2 hv
  -- The domain is open, so that the cardinality leaves room on both sides.
  have hopen : d.required ≠ d.possible := fun heq => hv' (heq ▸ hv)
  have hbelow : d.required.length ≠ d.cardMax := fun heq => hopen (h.closed_below heq)
  have habove : d.possible.length ≠ d.cardMin := fun heq => hopen (h.closed_above heq)
  have hmin := h.required_le
  have hcard := h.card_le
  have hmax := h.le_possible
  cases b with
  | true =>
    have hinsert : (insert v d.required.toFinset).card = d.required.length + 1 := by
      rw [Finset.card_insert_of_notMem hrequired, hcardRequired]
    obtain ⟨l, hl, hlv⟩ := exists_mem_between (d := d) (n := max d.cardMin (d.required.length + 1))
      (Finset.insert_subset hpossible hsub) (by omega) (by omega)
      (fun w hw => Finset.mem_insert_of_mem (List.mem_toFinset.2 hw))
      (fun w hw => List.mem_toFinset.1 hw) (by omega) (by omega)
    exact ⟨l, hl, iff_of_true ((hlv v).1 (Finset.mem_insert_self _ _)) rfl⟩
  | false =>
    have herase : (d.possible.toFinset.erase v).card = d.possible.length - 1 := by
      rw [Finset.card_erase_of_mem hpossible, hcardPossible]
    obtain ⟨l, hl, hlv⟩ := exists_mem_between (d := d) (n := d.cardMin)
      (Finset.subset_erase.2 ⟨hsub, hrequired⟩) (by omega) (by omega)
      (fun w hw => List.mem_toFinset.2 hw)
      (fun w hw => List.mem_toFinset.1 (Finset.mem_of_mem_erase hw)) (Nat.le_refl _) hcard
    exact ⟨l, hl, iff_of_false (fun hw => Finset.notMem_erase v _ ((hlv v).2 hw)) (by decide)⟩

theorem Normal.exists_mem {d : SetDomain} (h : d.Normal) : ∃ l, l ∈ d := by
  by_cases ha : d.isAssigned = true
  · refine ⟨d.required, h.pairwise_required, ?_⟩
    rw [← h.eq_exactly ha]
    exact le_refl d
  · obtain ⟨v, -, hv, hv'⟩ := h.exists_unknown (by simpa using ha)
    obtain ⟨l, hl, -⟩ := h.exists_mem_iff hv hv' true
    exact ⟨l, hl⟩

/-- The domain of a decided set has one set. -/
theorem Normal.eq_required_of_mem {d : SetDomain} (h : d.Normal) (ha : d.isAssigned = true)
    {l : List Int} (hl : l ∈ d) : l = d.required := by
  obtain ⟨hlt, hreq, hpos, -⟩ := hl
  have heq := h.isAssigned_iff.1 ha
  refine eq_of_subset_of_length_le hlt h.pairwise_required ?_
    (length_le_of_subset h.pairwise_required hreq)
  rw [heq]
  exact hpos

/-! ### Events -/

/-- What stays as it is for the subscribers of a level, on the way from `d` to `narrowed`. -/
def Keeps (d narrowed : SetDomain) : Wake → Prop
  | .value => narrowed.isAssigned = true → narrowed = d
  | .bounds => True
  | .domain => narrowed = d

theorem Keeps.refl (d : SetDomain) (w : Wake) : Keeps d d w := by
  cases w <;> simp [Keeps]

theorem Keeps.trans {a b c : SetDomain} {w : Wake} (hab : Keeps a b w) (hbc : Keeps b c w) :
    Keeps a c w := by
  cases w with
  | value =>
    intro hc
    have hbc := hbc hc
    subst hbc
    exact hab hc
  | bounds => trivial
  | domain => exact Eq.trans hbc hab

/-- An event that does not wake the subscribers of a level keeps what they watch. -/
theorem keeps_of_not_triggered {d narrowed : SetDomain} (hsize : narrowed.freedom < d.freedom)
    {w : Wake} (hw : w.triggeredBy (d.eventTowards narrowed) = false) : Keeps d narrowed w := by
  have hne : narrowed ≠ d := by
    rintro rfl
    omega
  unfold eventTowards at hw
  rw [if_neg hne] at hw
  by_cases ha : narrowed.isAssigned = true
  · rw [if_pos ha] at hw
    cases w <;> simp [Wake.triggeredBy] at hw
  · rw [if_neg ha] at hw
    cases w with
    | value => exact fun h => absurd h ha
    | bounds => trivial
    | domain => split at hw <;> simp [Wake.triggeredBy] at hw

/-- A narrowing that changes a domain reports a modification. -/
theorem isModified_eventTowards {d narrowed : SetDomain} (h : narrowed.freedom < d.freedom) :
    (d.eventTowards narrowed).isModified = true := by
  unfold eventTowards
  rw [if_neg (by rintro rfl; omega)]
  split
  · rfl
  · split <;> rfl

end ConstraintSearch.SetDomain
