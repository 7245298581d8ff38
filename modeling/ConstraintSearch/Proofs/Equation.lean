import ConstraintSearch.Proofs.Permanence
import ConstraintSearch.Proofs.Search.Model

/-!
# What an equation computes

An equation cuts the bounds of its terms until each of them is within what the bounds of the others
leave of the total. The order of the terms has no influence on where this ends.

* `Linear.Balanced terms total F`: in the box `F` every term is within what the others leave;
* `Linear.BoundsCut terms s s'`: from `s` to `s'`, values beyond the bounds of the terms were
  removed, and nothing else;
* `Linear.runEqual_greatest`: a run ends with the greatest balanced box, to which cutting bounds has
  led, and with an inconsistency exactly if there is none.
-/

namespace ConstraintSearch

namespace IntDomain

theorem exists_ofValues? {values : List Int} (h : values ≠ []) :
    ∃ d, ofValues? values = some d := by
  have hspec := rangesOfSorted_spec (pairwise_le_mergeSort values)
  obtain ⟨v, hv⟩ := List.exists_mem_of_ne_nil values h
  obtain ⟨r, hr, -⟩ := (hspec.2 v).2 (List.mem_mergeSort.2 hv)
  exact ⟨_, dif_pos (List.ne_nil_of_mem hr)⟩

/-- The values of a domain between the bounds of a smaller one. -/
theorem exists_between {d e : IntDomain} (he : e.Canonical) (h : e ≤ d) :
    ∃ g : IntDomain, g.Canonical ∧ g.min = e.min ∧ g.max = e.max ∧
      ∀ v, v ∈ g ↔ v ∈ d ∧ e.min ≤ v ∧ v ≤ e.max := by
  have hmem (v : Int) : v ∈ d.values.filter (fun v => decide (e.min ≤ v ∧ v ≤ e.max)) ↔
      v ∈ d ∧ e.min ≤ v ∧ v ≤ e.max := by
    simp [List.mem_filter, mem_values]
  have hmin : e.min ∈ d ∧ e.min ≤ e.min ∧ e.min ≤ e.max :=
    ⟨h _ he.min_mem, le_rfl, he.min_le_max⟩
  have hmax : e.max ∈ d ∧ e.min ≤ e.max ∧ e.max ≤ e.max :=
    ⟨h _ he.max_mem, he.min_le_max, le_rfl⟩
  obtain ⟨g, hg⟩ := exists_ofValues? (List.ne_nil_of_mem ((hmem _).2 hmin))
  obtain ⟨hcanonical, hvalues⟩ := canonical_ofValues? hg
  have hiff (v : Int) : v ∈ g ↔ v ∈ d ∧ e.min ≤ v ∧ v ≤ e.max := (hvalues v).trans (hmem v)
  refine ⟨g, hcanonical, ?_, ?_, hiff⟩
  · have := hcanonical.min_le ((hiff _).2 hmin)
    have := ((hiff _).1 hcanonical.min_mem).2.1
    omega
  · have := hcanonical.le_max ((hiff _).2 hmax)
    have := ((hiff _).1 hcanonical.max_mem).2.2
    omega

end IntDomain

namespace Store

variable {s s' : Store}

namespace Narrows

theorem ints_le (h : s.Narrows s') (i : Nat) : s'.box.ints i ≤ s.box.ints i := by
  rcases Nat.lt_or_ge i s.ints.size with hi | hi
  · exact h.within.ints i hi
  · rw [h.box_ints_of_le hi]
    exact IntDomain.le_refl _

/-- A domain that has not become smaller is the one it was. -/
theorem ints_eq (h : s.Narrows s') (hs : s.Sound) (hs' : s'.Sound) {i : Nat}
    (hle : i < s.ints.size → s.box.ints i ≤ s'.box.ints i) : s'.box.ints i = s.box.ints i := by
  rcases Nat.lt_or_ge i s.ints.size with hi | hi
  · exact IntDomain.le_antisymm (hs'.box.canonical i) (hs.box.canonical i) (h.ints_le i) (hle hi)
  · exact h.box_ints_of_le hi

theorem sets_eq (h : s.Narrows s') (hs : s.Sound) (hs' : s'.Sound) {i : Nat}
    (hle : i < s.sets.size → s.box.sets i ≤ s'.box.sets i) : s'.box.sets i = s.box.sets i := by
  rcases Nat.lt_or_ge i s.sets.size with hi | hi
  · exact SetDomain.le_antisymm (hs'.box.normal i) (hs.box.normal i) (h.within.sets i hi) (hle hi)
  · exact h.box_sets_of_le hi

end Narrows

end Store

/-- The bounds of a variable are determined by those of the store variable. -/
theorem IntVar.edge_congr {x : IntVar} {F G : Box}
    (hmin : (G.ints x.index).min = (F.ints x.index).min)
    (hmax : (G.ints x.index).max = (F.ints x.index).max) (side : Side) :
    x.edge G side = x.edge F side := by
  unfold edge IntDomain.extreme
  cases x.turn side with
  | lower => simp only [hmin]
  | upper => simp only [hmax]

theorem IntVar.edges_eraseIdx {F : Box} {side : Side} {terms : List IntVar} {i : Nat}
    (h : i < terms.length) :
    edges F side (terms.eraseIdx i) = edges F side terms - terms[i].edge F side := by
  induction terms generalizing i with
  | nil => cases h
  | cons x xs ih =>
    cases i with
    | zero => simp
    | succ i =>
      have := ih (Nat.lt_of_succ_lt_succ h)
      simp only [List.eraseIdx_cons_succ, edges_cons, List.getElem_cons_succ]
      omega

namespace Linear

open Propagation

variable {δ : Prop} {s : State} {terms : List IntVar} {total : Int} {F G : Box}

/-- Every term is within what the bounds of the other terms leave of the total. -/
def Balanced (terms : List IntVar) (total : Int) (F : Box) : Prop :=
  ∀ (i : Nat) (hi : i < terms.length),
    total - IntVar.edges F .upper (terms.eraseIdx i) ≤ terms[i].edge F .lower ∧
      terms[i].edge F .upper ≤ total - IntVar.edges F .lower (terms.eraseIdx i)

/-- The balanced boxes are those on which the equation has nothing to do. -/
theorem balanced_iff_stable (hF : F.Sound) (hne : terms ≠ []) :
    Balanced terms total F ↔ (Propagator.linearEqual terms total).Stable F := by
  have hbounds (i : Nat) (hi : i < terms.length) := IntVar.edge_lower_le_upper (x := terms[i])
    (hF.canonical terms[i].index)
  constructor
  · intro h
    have hfirst := List.length_pos_iff.2 hne
    have hlower := (h 0 hfirst).1
    have hupper := (h 0 hfirst).2
    have := hbounds 0 hfirst
    rw [IntVar.edges_eraseIdx hfirst] at hlower hupper
    refine ⟨by omega, by omega, fun x hx => ?_⟩
    obtain ⟨i, hi, rfl⟩ := List.getElem_of_mem hx
    have hlower := (h i hi).1
    have hupper := (h i hi).2
    rw [IntVar.edges_eraseIdx hi] at hlower hupper
    exact ⟨by omega, by omega⟩
  · rintro ⟨-, -, h⟩ i hi
    have := h _ (List.getElem_mem hi)
    rw [IntVar.edges_eraseIdx hi, IntVar.edges_eraseIdx hi]
    exact ⟨by omega, by omega⟩

/-- Whether a box is balanced depends on the bounds of the terms. -/
theorem Balanced.congr (h : Balanced terms total F)
    (hedge : ∀ x ∈ terms, ∀ side, x.edge G side = x.edge F side) : Balanced terms total G := by
  intro i hi
  have hothers (side : Side) : IntVar.edges G side (terms.eraseIdx i) =
      IntVar.edges F side (terms.eraseIdx i) :=
    IntVar.edges_congr fun x hx => hedge x (List.mem_of_mem_eraseIdx hx) side
  rw [hedge _ (List.getElem_mem hi), hedge _ (List.getElem_mem hi), hothers, hothers]
  exact h i hi

/-- From `s` to `s'`, values beyond the bounds of the terms were removed, and nothing else. -/
structure BoundsCut (terms : List IntVar) (s s' : Store) : Prop where
  narrows : s.Narrows s'
  mem_iff : ∀ x ∈ terms, ∀ v, v ∈ s'.box.ints x.index ↔ v ∈ s.box.ints x.index ∧
    (s'.box.ints x.index).min ≤ v ∧ v ≤ (s'.box.ints x.index).max
  ints : ∀ i, (∀ x ∈ terms, x.index ≠ i) → s'.box.ints i = s.box.ints i
  sets : ∀ i, s'.box.sets i = s.box.sets i

/-- The store is the greatest one with a balanced box, and cutting bounds has led to it. -/
structure GreatestBalanced (terms : List IntVar) (total : Int) (s s' : Store) : Prop where
  sound : s'.Sound
  cut : BoundsCut terms s s'
  balanced : Balanced terms total s'.box
  greatest : ∀ F : Box, F.Sound → F.Within s → Balanced terms total F → F.Within s'

/-- Cutting bounds leads to the greatest balanced box: it would still be balanced with all values
between its bounds, and with all values of the variables that are no terms. -/
theorem boundsCut_of_greatest {s s' : Store} (hs : s.Sound) (hs' : s'.Sound) (hn : s.Narrows s')
    (hterms : ∀ x ∈ terms, x.index < s.ints.size) (hbalanced : Balanced terms total s'.box)
    (hgreatest : ∀ F : Box, F.Sound → F.Within s → Balanced terms total F → F.Within s') :
    BoundsCut terms s s' := by
  classical
  have hle := hn.ints_le
  -- The hull of a domain of `s'` has the values of `s` between its bounds.
  choose hull hcanonical hmin hmax hmem using fun i =>
    IntDomain.exists_between (hs'.box.canonical i) (hle i)
  let F : Box :=
    { ints := fun i => if ∃ x ∈ terms, x.index = i then hull i else s.box.ints i
      sets := s.box.sets }
  have hterm (x : IntVar) (hx : x ∈ terms) : F.ints x.index = hull x.index :=
    if_pos ⟨x, hx, rfl⟩
  have hother (i : Nat) (hi : ∀ x ∈ terms, x.index ≠ i) : F.ints i = s.box.ints i :=
    if_neg fun ⟨x, hx, heq⟩ => hi x hx heq
  have hF : F.Sound := by
    refine ⟨fun i => ?_, hs.box.normal⟩
    by_cases hi : ∃ x ∈ terms, x.index = i
    · obtain ⟨x, hx, rfl⟩ := hi
      exact hterm x hx ▸ hcanonical x.index
    · exact hother i (fun x hx heq => hi ⟨x, hx, heq⟩) ▸ hs.box.canonical i
  have hwithin : F.Within s := by
    refine ⟨fun i _ => ?_, fun i _ => SetDomain.le_refl _⟩
    by_cases hi : ∃ x ∈ terms, x.index = i
    · obtain ⟨x, hx, rfl⟩ := hi
      exact hterm x hx ▸ fun v hv => ((hmem x.index v).1 hv).1
    · exact hother i (fun x hx heq => hi ⟨x, hx, heq⟩) ▸ IntDomain.le_refl _
  have hFbalanced : Balanced terms total F := hbalanced.congr fun x hx side =>
    IntVar.edge_congr (by rw [hterm x hx, hmin]) (by rw [hterm x hx, hmax]) side
  have hkept := hgreatest F hF hwithin hFbalanced
  refine ⟨hn, fun x hx v => ⟨fun hv => ⟨hle _ v hv, (hs'.box.canonical _).min_le hv,
    (hs'.box.canonical _).le_max hv⟩, fun hv => ?_⟩, fun i hi => ?_, fun i => ?_⟩
  · exact hkept.ints x.index (hn.size_ints ▸ hterms x hx) v (hterm x hx ▸ (hmem _ v).2 hv)
  · refine hn.ints_eq hs hs' fun hlt => ?_
    exact hother i hi ▸ hkept.ints i (hn.size_ints ▸ hlt)
  · exact hn.sets_eq hs hs' fun hlt => hkept.sets i (hn.size_sets ▸ hlt)

/-- The box that a run of an equation leaves is stable. -/
theorem runEqual_stable (hs : s.Ready) (hterms : ∀ x ∈ terms, x.Admissible δ s.store) :
    Law δ (Propagator.linearEqual terms total).Stable (runEqual terms total) s
      fun _ s' => (Propagator.linearEqual terms total).Stable s'.store.box := by
  refine (runEqual_law hs hterms).mono fun verdict s' hstep h => ?_
  have hs' := hstep.advances.ready hs
  cases verdict with
  | fix =>
    refine Propagator.stable_of_rests (δ := δ) hs'.sound (fun x hx => ?_) (h trivial) (by simp)
    exact (hterms x hx).of_size_le hstep.advances.store.size_ints.ge
  | noFix => exact h.elim
  | subsumed => exact h _ hs'.sound.box (Store.box_within _)
  | replace q => exact h.elim

/-- **An equation computes the greatest balanced box**, by cutting bounds. It comes to an end,
unless 32-bit arithmetic faults, and it is inconsistent exactly if no box within the domains is
balanced. -/
theorem runEqual_greatest (hs : s.Ready) (hterms : ∀ x ∈ terms, x.Admissible δ s.store)
    (hne : terms ≠ []) :
    Yields δ (runEqual terms total s) fun
      | (.ok _, s') => GreatestBalanced terms total s.store s'.store
      | (.error _, _) => ¬∃ F : Box, F.Sound ∧ F.Within s.store ∧ Balanced terms total F := by
  refine Yields.mono (runEqual_stable hs hterms) ?_
  rintro ⟨outcome, s'⟩ h
  cases outcome with
  | error i =>
    rintro ⟨F, hF, hle, hbalanced⟩
    exact h F hF ((balanced_iff_stable hF hne).1 hbalanced) hle
  | ok verdict =>
    obtain ⟨⟨hadvances, hkept⟩, hstable⟩ := h
    have hsound := hadvances.sound hs.sound
    have hbalanced := (balanced_iff_stable hsound.box hne).2 hstable
    have hgreatest (F : Box) (hF : F.Sound) (hle : F.Within s.store)
        (h : Balanced terms total F) : F.Within s'.store :=
      hkept F hF ((balanced_iff_stable hF hne).1 h) hle
    exact ⟨hsound, boundsCut_of_greatest hs.sound hsound hadvances.store
      (fun x hx => (hterms x hx).exists_var) hbalanced hgreatest, hbalanced, hgreatest⟩

/-! ### An equation with views -/

/-- Three variables, two of them with gaps. -/
def gapped : List Space.Operation :=
  [.newIntOfValues [0, 1, 5, 9], .newInt 0 4, .newIntOfValues [-3, 0, 2, 7]]

/-- The terms of `x₀ - 2 x₁ + 3 x₂`. -/
def scaledTerms : List IntVar := [.root 0, .affine (.root 1) (-2) 0, .affine (.root 2) 3 0]

theorem runEqual_greatest_scaled :
    ∃ s : State, (s.Ready ∧ (∀ x ∈ scaledTerms, x.Admissible False s.store) ∧ scaledTerms ≠ [] ∧
      ∃ verdict s', runEqual scaledTerms 4 s = .ok (.ok verdict, s') ∧
        (s'.store.int 2).toOption ≠ (s.store.int 2).toOption) ∧
      Yields False (runEqual scaledTerms 4 s) fun
        | (.ok _, s') => GreatestBalanced scaledTerms 4 s.store s'.store
        | (.error _, _) =>
          ¬∃ F : Box, F.Sound ∧ F.Within s.store ∧ Balanced scaledTerms 4 F := by
  have hrun : ((Space.ofPolicy .costOrdered).performAll? (fun _ _ => true) gapped).any (fun s =>
      decide (s.isFailed = false ∧ s.store.ints.size = 3) &&
        (runEqual scaledTerms 4 s.state).toOption.any fun r =>
          r.1.toOption.isSome &&
            decide ((r.2.store.int 2).toOption ≠ (s.store.int 2).toOption)) = true := by
    decide +kernel
  obtain ⟨s, hs, hrun⟩ := (Option.any_eq_true ..).1 hrun
  obtain ⟨halive, hrun⟩ := Bool.and_eq_true_iff.1 hrun
  obtain ⟨⟨outcome, s'⟩, hresult, hrun⟩ := (Option.any_eq_true ..).1 hrun
  obtain ⟨hok, hsmaller⟩ := Bool.and_eq_true_iff.1 hrun
  obtain ⟨halive, hsize⟩ := of_decide_eq_true halive
  have hreachable : s.Reachable fun _ _ => True :=
    (Space.Reachable.empty .costOrdered).performAll? (fun _ _ _ => trivial) hs
  have hready : s.state.Ready := ⟨halive, hreachable.in_order.1⟩
  have hterms : ∀ x ∈ scaledTerms, x.Admissible False s.store := fun x hx => by
    have hproper : ∀ x ∈ scaledTerms, x.index < 3 ∧ x.Proper := by decide
    exact ⟨hsize ▸ (hproper x hx).1, .inl (hproper x hx).2⟩
  cases outcome with
  | error i => cases hok
  | ok verdict =>
    refine ⟨s.state, ⟨hready, hterms, by decide, verdict, s', ?_, of_decide_eq_true hsmaller⟩,
      runEqual_greatest hready hterms (by decide)⟩
    exact Space.ok_of_toOption hresult

end Linear

end ConstraintSearch
