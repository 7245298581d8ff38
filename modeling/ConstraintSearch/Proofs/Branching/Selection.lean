import Mathlib.Data.Int.Interval
import ConstraintSearch.Branching.Selection
import ConstraintSearch.Proofs.Branching.Choice

/-!
# The laws of selections

Whatever is selected, it is a variable that is still open, and a split that divides its values. Only
the generator of a random selection changes.

* `IntVar.Value s x v`: the variable or view has the value `v` in its domain;
* `VariableSelection.unseeded`, `ValueSelection.unseeded`: a selection up to its generator;
* `VariableSelection.select_law`: the selected position holds an open variable;
* `ValueSelection.select_law`: the selected split divides the values of an open variable.
-/

namespace ConstraintSearch

variable {δ : Prop} {s : Store} {x : IntVar}

/-! ### Values of a view -/

namespace IntVar

/-- The value of `x` at some value of the store variable. -/
def Value (s : Store) (x : IntVar) (v : Int) : Prop := ∃ u ∈ s.box.ints x.index, x.eval u = v

theorem value_edge (hs : s.Sound) (side : Side) : x.Value s (x.edge s.box side) :=
  exists_eval_eq_edge (hs.box.canonical _) side

/-- The bounds of an open variable are apart. -/
theorem edge_lt_edge (hs : s.Sound) (hopen : x.fixedAt s.box = none) :
    x.edge s.box .lower < x.edge s.box .upper := by
  have hle := edge_lower_le_upper (x := x) (hs.box.canonical x.index)
  unfold fixedAt at hopen
  by_cases heq : x.edge s.box .lower = x.edge s.box .upper
  · rw [if_pos heq] at hopen
    cases hopen
  · omega

/-- For each value of an open variable there is another one. -/
theorem exists_value_ne (hs : s.Sound) (hopen : x.fixedAt s.box = none) (v : Int) :
    ∃ w, x.Value s w ∧ w ≠ v := by
  have hlt := edge_lt_edge hs hopen
  by_cases hv : x.edge s.box .lower = v
  · exact ⟨_, value_edge hs .upper, by omega⟩
  · exact ⟨_, value_edge hs .lower, hv⟩

/-- An open variable has different values at different values of the store variable. -/
theorem eval_injective_of_open (hs : s.Sound) (hopen : x.fixedAt s.box = none) :
    Function.Injective x.eval := by
  intro u v h
  by_contra hne
  have hconst := eval_eq_of_eval_eq hne h
  have hlt := edge_lt_edge hs hopen
  unfold edge at hlt
  rw [hconst, hconst ((s.box.ints x.index).extreme (x.turn .upper))] at hlt
  exact lt_irrefl _ hlt

theorem yields_image {scale offset v : Int} :
    Yields δ (image scale offset v) fun w => w = scale * v + offset := by
  refine (Word.yields_checked _ _).bind fun product hproduct => ?_
  obtain ⟨rfl, -⟩ := hproduct
  exact (Word.yields_checked _ _).mono fun w hw => hw.1

theorem yields_imageOf (x : IntVar) (v : Int) :
    Yields δ (x.imageOf v) fun w => w = x.eval v := by
  induction x with
  | root i => exact rfl
  | affine inner scale offset ih =>
    refine ih.bind fun w hw => ?_
    subst hw
    exact yields_image
  | bool inner ih => exact ih

theorem yields_size (hx : x.index < s.ints.size) :
    Yields δ (x.size s) fun n => n = (s.box.ints x.index).size :=
  (Store.yields_int hx).bind fun _ hd => hd ▸ rfl

theorem yields_values (hx : x.index < s.ints.size) :
    Yields δ (x.values s) fun vs => vs = (s.box.ints x.index).values.map x.eval := by
  refine (Store.yields_int hx).bind fun d hd => ?_
  subst hd
  refine (Yields.mapM fun v _ => yields_imageOf x v).mono fun vs hvs => ?_
  generalize (s.box.ints x.index).values = us at hvs
  induction hvs with
  | nil => rfl
  | cons h _ ih => rw [List.map_cons, ← ih, h]

theorem yields_nth (hs : s.Sound) (hx : x.index < s.ints.size) (i : Nat) :
    Yields δ (x.nth s i) (x.Value s) := by
  refine (Store.yields_int hx).bind fun d hd => ?_
  subst hd
  cases hv : (s.box.ints x.index).nth? i with
  | some v =>
    refine (yields_imageOf x v).mono fun w hw => ?_
    exact ⟨v, (hs.box.canonical _).mem_of_nth? hv, hw.symm⟩
  | none =>
    refine (yields_bound hs hx .lower).mono fun w hw => ?_
    rw [hw.1]
    exact value_edge hs .lower

theorem yields_median (hs : s.Sound) (hx : x.index < s.ints.size) :
    Yields δ (x.median s) (x.Value s) :=
  (yields_size hx).bind fun _ _ => yields_nth hs hx _

/-- The split into all values of an open variable. -/
theorem divides_values (hs : s.Sound) (hopen : x.fixedAt s.box = none) :
    (Split.values ((s.box.ints x.index).values.map x.eval)).Divides (x.Value s) := by
  have hcanonical := hs.box.canonical x.index
  obtain ⟨w, hw, hne⟩ := exists_value_ne hs hopen (x.edge s.box .lower)
  refine Split.divides_values ?_ (fun v => ?_) ?_ (value_edge hs .lower) hw hne.symm
  · exact hcanonical.nodup_values.map (eval_injective_of_open hs hopen)
  · rw [List.mem_map]
    exact exists_congr fun u => and_congr_left fun _ => IntDomain.mem_values.symm
  · rw [List.length_map]
    -- Distinct words are no more than there are words.
    have hsub : (s.box.ints x.index).values.toFinset ⊆ Finset.Icc Word.least Word.greatest := by
      intro v hv
      rw [List.mem_toFinset, IntDomain.mem_values] at hv
      exact Finset.mem_Icc.2 (hs.fits _ v hv)
    have hcard := Finset.card_le_card hsub
    rw [List.toFinset_card_of_nodup hcanonical.nodup_values, Int.card_Icc] at hcard
    exact hcard

end IntVar

/-- A draw from a range that is not empty lies in it. -/
theorem Generator.yields_index {n : Nat} (hn : 0 < n) (g : Generator) :
    Yields δ (g.index 0 n) fun r => r.1 < n := by
  cases hr : g.index 0 n with
  | ok r => exact (Generator.index_bounds hr).2
  | error fault =>
    unfold Generator.index at hr
    rw [if_pos hn] at hr
    cases hr

/-! ### Values -/

/-- The selection with a generator of its own. -/
def ValueSelection.unseeded : ValueSelection → ValueSelection
  | random _ => random (.ofSeed 0)
  | selection => selection

theorem ValueSelection.unseeded_unseeded (selection : ValueSelection) :
    selection.unseeded.unseeded = selection.unseeded := by
  cases selection <;> rfl

/-- The middle of the bounds is below the upper one, and its successor is a word. -/
theorem ValueSelection.yields_middle (hs : s.Sound) (hx : x.index < s.ints.size)
    (hopen : x.fixedAt s.box = none) :
    Yields δ (middle s x) fun v => x.edge s.box .lower ≤ v ∧ v < x.edge s.box .upper ∧
      Word.Fits v ∧ Word.Fits (v + 1) := by
  refine (IntVar.yields_bound hs hx .lower).bind fun lower hlower => ?_
  refine (IntVar.yields_bound hs hx .upper).bind fun upper hupper => Yields.pure ?_
  have hlt := IntVar.edge_lt_edge hs hopen
  have hfitsLower := hlower.2.fits
  have hfitsUpper := hupper.2.fits
  rw [← hlower.1, ← hupper.1] at hlt ⊢
  change Word.Fits (x.edge s.box .lower) at hfitsLower
  change Word.Fits (x.edge s.box .upper) at hfitsUpper
  rw [← hlower.1] at hfitsLower
  rw [← hupper.1] at hfitsUpper
  rw [Int.fdiv_eq_ediv_of_nonneg _ (by decide)]
  unfold Word.Fits Word.least Word.greatest at *
  omega

/-- What is selected for an open variable. -/
structure ValueSelection.Selects (s : Store) (x : IntVar) (selection : ValueSelection)
    (r : Split × ValueSelection) : Prop where
  divides : r.1.Divides (x.Value s)
  expressible : r.1.Expressible
  unseeded : r.2.unseeded = selection.unseeded

/-- The selected split divides the values of an open variable. -/
theorem ValueSelection.select_law (hs : s.Sound) (hx : x.index < s.ints.size)
    (hopen : x.fixedAt s.box = none) (selection : ValueSelection) :
    Yields δ (selection.select s x) (selection.Selects s x) := by
  have equal {v : Int} {selection selection' : ValueSelection} (hv : x.Value s v)
      (h : selection'.unseeded = selection.unseeded) :
      selection.Selects s x (.equal v, selection') := by
    obtain ⟨w, hw, hne⟩ := IntVar.exists_value_ne hs hopen v
    exact ⟨Split.divides_equal hv hw hne, trivial, h⟩
  have hlower := IntVar.value_edge (x := x) hs .lower
  have hupper := IntVar.value_edge (x := x) hs .upper
  cases selection with
  | min =>
    refine (IntVar.yields_bound hs hx .lower).bind fun v hv => Yields.pure ?_
    exact equal (hv.1 ▸ hlower) rfl
  | max =>
    refine (IntVar.yields_bound hs hx .upper).bind fun v hv => Yields.pure ?_
    exact equal (hv.1 ▸ hupper) rfl
  | median => exact (IntVar.yields_median hs hx).bind fun v hv => Yields.pure (equal hv rfl)
  | split =>
    refine (yields_middle hs hx hopen).bind fun v ⟨hl, hu, _, hfits⟩ => Yields.pure ?_
    exact ⟨Split.divides_atMost hlower hupper hl hu, hfits, rfl⟩
  | reverseSplit =>
    refine (yields_middle hs hx hopen).bind fun v ⟨hl, hu, hfits, _⟩ => ?_
    refine (Word.yields_checked _ _).bind fun w hw => Yields.pure ?_
    obtain ⟨rfl, -⟩ := hw
    refine ⟨Split.divides_atLeast hlower hupper (by omega) (by omega), ?_, rfl⟩
    show Word.Fits (v + 1 - 1)
    rwa [Int.add_sub_cancel]
  | random generator =>
    refine (IntVar.yields_size hx).bind fun n hn => ?_
    subst hn
    have hpos := (hs.box.canonical x.index).size_pos
    refine (Generator.yields_index hpos generator).bind fun r _ => ?_
    exact (IntVar.yields_nth hs hx r.1).bind fun v hv => Yields.pure (equal hv rfl)
  | all =>
    refine (IntVar.yields_values hx).bind fun vs hvs => Yields.pure ?_
    subst hvs
    exact ⟨IntVar.divides_values hs hopen, trivial, rfl⟩

/-! ### Variables -/

/-- The position holds an open variable. -/
def OpenAt (s : Store) (vars : Table IntVar) (position : Nat) : Prop :=
  ∃ x, vars.get? position = some x ∧ x.fixedAt s.box = none

variable {vars : Table IntVar} {candidates : List (IntVar × Nat)}

/-- The candidates are variables of the table that exist. -/
def AreCandidates (s : Store) (vars : Table IntVar) (candidates : List (IntVar × Nat)) : Prop :=
  ∀ c ∈ candidates, vars.get? c.2 = some c.1 ∧ c.1.index < s.ints.size

theorem yields_leastKey (hs : s.Sound) (hcandidates : AreCandidates s vars candidates)
    {key : IntVar → Except Fault Int}
    (hkey : ∀ c ∈ candidates, Yields δ (key c.1) fun _ => True)
    {best : Option (Nat × Int)} (hbest : ∀ b ∈ best, OpenAt s vars b.1) :
    Yields δ (leastKey s key candidates best) fun r => ∀ position ∈ r, OpenAt s vars position := by
  induction candidates generalizing best with
  | nil =>
    refine Yields.pure fun position hposition => ?_
    obtain ⟨b, hb, rfl⟩ := Option.map_eq_some_iff.1 hposition
    exact hbest b hb
  | cons c candidates ih =>
    obtain ⟨x, position⟩ := c
    have ih {best} (hbest) := @ih (fun d hd => hcandidates d (by simp [hd]))
      (fun d hd => hkey d (by simp [hd])) best hbest
    obtain ⟨hget, hx⟩ := hcandidates (x, position) (by simp)
    unfold leastKey
    refine (IntVar.yields_isFixed hs hx).bind fun fixed hfixed => ?_
    obtain ⟨rfl, -⟩ := hfixed
    cases hopen : x.fixedAt s.box with
    | some v => exact ih hbest
    | none =>
      have hthis : OpenAt s vars position := ⟨x, hget, hopen⟩
      refine (hkey (x, position) (by simp)).bind fun k _ => ?_
      cases best with
      | none =>
        refine ih fun b hb => ?_
        cases hb
        exact hthis
      | some b =>
        refine ih fun b' hb' => ?_
        split at hb'
        · cases hb'
          exact hthis
        · exact hbest b' hb'

theorem yields_openPositions (hs : s.Sound) (hcandidates : AreCandidates s vars candidates) :
    Yields δ (openPositions s candidates) fun positions =>
      (∀ position ∈ positions, OpenAt s vars position) ∧
        ∀ c ∈ candidates, c.1.fixedAt s.box = none → c.2 ∈ positions := by
  induction candidates with
  | nil => exact Yields.pure ⟨by simp, by simp⟩
  | cons c candidates ih =>
    obtain ⟨x, position⟩ := c
    have ih := ih fun d hd => hcandidates d (by simp [hd])
    obtain ⟨hget, hx⟩ := hcandidates (x, position) (by simp)
    unfold openPositions
    refine (IntVar.yields_isFixed hs hx).bind fun fixed hfixed => ?_
    obtain ⟨rfl, -⟩ := hfixed
    cases hopen : x.fixedAt s.box with
    | some v =>
      refine ih.mono fun positions hpositions => ⟨hpositions.1, fun c hc hc' => ?_⟩
      rcases List.mem_cons.1 hc with rfl | hc
      · rw [hopen] at hc'
        cases hc'
      · exact hpositions.2 c hc hc'
    | none =>
      refine ih.bind fun positions hpositions => Yields.pure ⟨?_, fun c hc hc' => ?_⟩
      · intro p hp
        rcases List.mem_cons.1 hp with rfl | hp
        · exact ⟨x, hget, hopen⟩
        · exact hpositions.1 p hp
      · rcases List.mem_cons.1 hc with rfl | hc
        · exact List.mem_cons_self
        · exact List.mem_cons_of_mem _ (hpositions.2 c hc hc')

namespace VariableSelection

/-- The keys of a selection can be computed. -/
theorem yields_key {state : State} (hs : state.store.Sound) {selection : VariableSelection}
    {key : IntVar → Except Fault Int} (hkey : selection.key? state = some key)
    (hx : x.index < state.store.ints.size) : Yields δ (key x) fun _ => True := by
  cases selection with
  | inputOrder => cases hkey
  | random generator => cases hkey
  | firstFail =>
    cases hkey
    exact (IntVar.yields_size hx).bind fun _ _ => trivial
  | antiFirstFail =>
    cases hkey
    exact (IntVar.yields_size hx).bind fun _ _ => trivial
  | smallest =>
    cases hkey
    exact (IntVar.yields_bound hs hx .lower).mono fun _ _ => trivial
  | largest =>
    cases hkey
    exact (IntVar.yields_bound hs hx .upper).bind fun _ _ => trivial
  | maxDegree =>
    cases hkey
    exact trivial

/-- The selection with a generator of its own. -/
def unseeded : VariableSelection → VariableSelection
  | random _ => random (.ofSeed 0)
  | selection => selection

theorem unseeded_unseeded (selection : VariableSelection) :
    selection.unseeded.unseeded = selection.unseeded := by
  cases selection <;> rfl

/-- If the first position holds an open variable, then the selected one does. -/
theorem select_law {state : State} (hs : state.store.Sound) {start : Nat}
    (hvars : ∀ x ∈ vars.toList, x.index < state.store.ints.size)
    (hstart : OpenAt state.store vars start) (selection : VariableSelection) :
    Yields δ (selection.select state vars start) fun r =>
      OpenAt state.store vars r.1 ∧ r.2.unseeded = selection.unseeded := by
  have hcandidates : AreCandidates state.store vars ((vars.toList.zipIdx).drop start) := by
    intro c hc
    have hmem := List.mem_of_mem_drop hc
    have hget := List.mem_zipIdx_iff_getElem?.1 hmem
    refine ⟨?_, hvars c.1 (List.mem_of_getElem? hget)⟩
    rw [← hget]
    exact (Array.getElem?_toList).symm
  have hdefault {position : Option Nat} (h : ∀ p ∈ position, OpenAt state.store vars p) :
      OpenAt state.store vars (position.getD start) := by
    cases position with
    | none => exact hstart
    | some p => exact h p rfl
  have keyed {key : IntVar → Except Fault Int} (hkey : selection.key? state = some key) :
      Yields δ (do
        let position ← leastKey state.store key ((vars.toList.zipIdx).drop start) none
        return (position.getD start, selection))
        fun r => OpenAt state.store vars r.1 ∧ r.2.unseeded = selection.unseeded := by
    have hyields (c) (hc : c ∈ (vars.toList.zipIdx).drop start) :
        Yields δ (key c.1) fun _ => True := yields_key hs hkey (hcandidates c hc).2
    refine (yields_leastKey hs hcandidates hyields (by simp)).bind fun position hposition => ?_
    exact Yields.pure ⟨hdefault hposition, rfl⟩
  cases selection with
  | inputOrder => exact Yields.pure ⟨hstart, rfl⟩
  | firstFail => exact keyed rfl
  | antiFirstFail => exact keyed rfl
  | smallest => exact keyed rfl
  | largest => exact keyed rfl
  | maxDegree => exact keyed rfl
  | random generator =>
    refine (yields_openPositions hs hcandidates).bind fun positions hpositions => ?_
    -- The first position is among the candidates.
    obtain ⟨x, hget, hopen⟩ := hstart
    have hmem : (x, start) ∈ (vars.toList.zipIdx).drop start := by
      have hget : vars.toList[start]? = some x := (Array.getElem?_toList).trans hget
      refine List.mem_of_getElem? (i := 0) ?_
      rw [List.getElem?_drop, List.getElem?_zipIdx, Nat.add_zero, hget]
      simp
    have hpos := List.length_pos_of_mem (hpositions.2 _ hmem hopen)
    refine (Generator.yields_index hpos generator).bind fun r hr => Yields.pure ⟨?_, rfl⟩
    exact hdefault fun p hp => hpositions.1 p (List.mem_of_getElem? hp)

end VariableSelection

end ConstraintSearch
