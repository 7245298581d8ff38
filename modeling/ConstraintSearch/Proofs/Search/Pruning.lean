import ConstraintSearch.Proofs.Branching.Symmetry
import ConstraintSearch.Proofs.Search.Breaking

/-!
# The nodes of a tree that breaks symmetries

Where a variable does not have a value, a brancher also excludes the images of this equation under
its symmetries. A node below it stands for its region still, if nothing that is looked for was
excluded: the exchange that turns an image into the equation leads to a solution with the equation,
and all of these have been found before.

* `Choice.Equates`: a choice between one value of a variable and the others;
* `Tree.Respects`: what the symmetries still allow does not lead out of a region;
* `Tree.Breaks`: a space with symmetries stands for a region;
* `Tree.Breaks.status_law`, `Tree.Breaks.choice_law`, `Tree.Breaks.commit_law`: what a space stands
  for after each of the operations of a search. To commit the second alternative is safe once
  nothing that is looked for lies in the first one.
-/

namespace ConstraintSearch

variable {δ : Prop} {b : IntBrancher} {c : Choice} {p q : Nat} {v w : Int} {a : Assignment}

/-! ### Equations -/

/-- The selection splits a variable into one value and the others. -/
def ValueSelection.equates : ValueSelection → Bool
  | min | max | median | random _ => true
  | split | reverseSplit | all => false

theorem ValueSelection.equates_unseeded (selection : ValueSelection) :
    selection.unseeded.equates = selection.equates := by
  cases selection <;> rfl

theorem ValueSelection.exists_equal_of_select {selection : ValueSelection} {s : Store} {x : IntVar}
    {r : Split × ValueSelection} (h : selection.equates = true)
    (hr : selection.select s x = .ok r) :
    ∃ v, r.1 = .equal v := by
  cases selection with
  | split | reverseSplit | all => cases h
  | random generator =>
    obtain ⟨size, -, hr⟩ := Yields.exists_of_bind hr
    obtain ⟨⟨i, generator⟩, -, hr⟩ := Yields.exists_of_bind hr
    obtain ⟨v, -, hr⟩ := Yields.exists_of_bind hr
    cases hr
    exact ⟨v, rfl⟩
  | min | max | median =>
    obtain ⟨v, -, hr⟩ := Yields.exists_of_bind hr
    cases hr
    exact ⟨v, rfl⟩

/-- The choice asks whether the variable at a position of the brancher has a value. -/
structure Choice.Equates (b : IntBrancher) (c : Choice) (p : Nat) (v : Int) : Prop where
  exists_decision : ∃ x breaks, b.vars.get? p = some x ∧ c.decision = .int p x (.equal v) breaks

namespace Choice

theorem keeps_marked (c : Choice) (breaks : Bool) (i : Nat) :
    (c.marked breaks).keeps i = c.keeps i := by
  obtain ⟨brancher, decision⟩ := c
  cases decision <;> rfl

theorem marked_of_expressible (h : c.decision.Expressible) (breaks : Bool) :
    (c.marked breaks).marked false = c := by
  obtain ⟨brancher, decision⟩ := c
  cases decision with
  | int position x split breaks' =>
    obtain ⟨rfl, -⟩ := h
    rfl
  | set i v => rfl
  | float i v => exact h.elim

namespace Equates

theorem congr {b' : IntBrancher} (h : c.Equates b p v) (hvars : b.vars = b'.vars) :
    c.Equates b' p v :=
  ⟨hvars ▸ h.exists_decision⟩

theorem marked (h : c.Equates b p v) (breaks : Bool) : (c.marked breaks).Equates b p v := by
  obtain ⟨x, breaks', hx, hdecision⟩ := h.exists_decision
  refine ⟨x, breaks, hx, ?_⟩
  unfold Choice.marked
  rw [hdecision]
  rfl

theorem alternatives_eq (h : c.Equates b p v) : c.alternatives = 2 := by
  obtain ⟨x, breaks, -, hdecision⟩ := h.exists_decision
  unfold Choice.alternatives
  rw [hdecision]
  rfl

/-- The first alternative keeps the assignments with the equation. -/
theorem mem_keeps_zero (h : c.Equates b p v) : a.box ∈ c.keeps 0 ↔ b.valueAt a p = some v := by
  obtain ⟨x, breaks, hx, hdecision⟩ := h.exists_decision
  refine Decision.covers_box.trans ?_
  unfold IntBrancher.valueAt
  rw [hdecision, hx, Option.map_some, Option.some.injEq]
  exact Iff.rfl

/-- The second alternative keeps the others. -/
theorem mem_keeps_one (h : c.Equates b p v) : a.box ∈ c.keeps 1 ↔ a.box ∉ c.keeps 0 := by
  obtain ⟨x, breaks, -, hdecision⟩ := h.exists_decision
  have hadmits : (Decision.int p x (.equal v) breaks).Admits a 1 ↔
      ¬(Decision.int p x (.equal v) breaks).Admits a 0 := Iff.rfl
  unfold keeps
  rw [hdecision]
  exact Decision.covers_box.trans (hadmits.trans (not_congr Decision.covers_box).symm)

end Equates

end Choice

/-- A decision of a brancher that splits into equations. -/
theorem IntBrancher.exists_equates_of_decide (b : IntBrancher) {s : State}
    {r : Decision × IntBrancher}
    (hvalue : b.value.equates = true) (h : b.decide s = .ok r) (i : Nat) :
    ∃ p v, Choice.Equates b ⟨i, r.1⟩ p v := by
  obtain ⟨⟨p, select⟩, -, h⟩ := Yields.exists_of_bind h
  obtain ⟨x, hx, h⟩ := Yields.exists_of_bind h
  obtain ⟨fixed, -, h⟩ := Yields.exists_of_bind h
  cases fixed with
  | true => cases h
  | false =>
    obtain ⟨⟨split, value⟩, hselect, h⟩ := Yields.exists_of_bind h
    obtain ⟨v, rfl⟩ := ValueSelection.exists_equal_of_select hvalue hselect
    cases h
    exact ⟨p, v, x, _, Table.fetch_eq_ok.1 hx, rfl⟩

/-- The choice of a space whose active brancher splits into equations. -/
theorem Space.exists_equates_of_choice {s s' : Space} (hvalue : b.value.equates = true)
    (hrow : s.branchers.get? s.active = some (.int b)) (h : s.choice = .ok (c, s')) :
    ∃ p v, c.Equates b p v := by
  unfold choice at h
  split at h
  · cases h
  · obtain ⟨row, hfetch, h⟩ := Yields.exists_of_bind h
    rw [Table.fetch_eq_ok.2 hrow] at hfetch
    cases hfetch
    obtain ⟨⟨decision, b'⟩, hdecide, h⟩ := Yields.exists_of_bind h
    obtain ⟨r, hr, hdecide⟩ := Yields.exists_of_bind hdecide
    cases hdecide
    dsimp only at h
    split at h
    · cases h
    · cases h
      exact b.exists_equates_of_decide hvalue hr s.active

/-! ### Excluding images -/

namespace IntBrancher

open Propagation

/-- The images of an equation are excluded from the box. -/
def Excludes (vars : Table IntVar) (images : List (Nat × Int)) (F : Box) : Prop :=
  ∀ image ∈ images, ∀ y ∈ vars.get? image.1, y.Restricted .notEqual image.2 F

variable {state : State} {images : List (Nat × Int)}

theorem exclude_law {C : Box → Prop} (hs : state.Ready)
    (hvars : ∀ image ∈ images, ∃ y, b.vars.get? image.1 = some y ∧ y.Admissible δ state.store)
    (hC : ∀ F : Box, F.Sound → C F → F.Within state.store → Excludes b.vars images F) :
    Law δ C (images.forM fun (other, w) => do
        let y ← b.vars.fetch other
        discard <| Propagation.remove y w) state
      fun _ state' => Excludes b.vars images state'.store.box := by
  induction images generalizing state with
  | nil => exact Law.pure fun image himage => by cases himage
  | cons image images ih =>
    obtain ⟨other, w⟩ := image
    obtain ⟨⟨y, hy, hadmissible⟩, hvars⟩ := List.forall_mem_cons.1 hvars
    show Law δ C ((do
        let y ← b.vars.fetch other
        discard <| Propagation.remove y w) >>= fun _ => images.forM _) state _
    rw [Table.fetch_eq_ok.2 hy]
    refine Law.bind (P := fun _ state' => y.Restricted .notEqual w state'.store.box) ?_ ?_
    · refine (Law.restrict hs hadmissible.exists_var hadmissible.proper
        fun F hF hCF hle => ?_).bind ?_
      · exact hC F hF hCF hle (other, w) List.mem_cons_self y hy
      · rintro event state₁ - ⟨hnarrowed, -, -⟩
        exact Law.pure hnarrowed.holds
    · intro _ state₁ hstep₁ hremoved
      have hsize := hstep₁.advances.store.size_ints
      refine (ih (hstep₁.advances.ready hs) (fun image himage => ?_) fun F hF hCF hle => ?_).mono ?_
      · obtain ⟨y, hy, hadmissible⟩ := hvars image himage
        exact ⟨y, hy, hadmissible.of_size_le hsize.ge⟩
      · have hle := hstep₁.advances.store.within_of_within hle
        exact fun image himage => hC F hF hCF hle image (List.mem_cons_of_mem _ himage)
      · intro _ state₂ hstep₂ hrest
        refine List.forall_mem_cons.2 ⟨fun y' hy' u hu => ?_, hrest⟩
        obtain rfl : y = y' := Option.some.inj (hy.symm.trans hy')
        exact hremoved u (hstep₂.advances.store.within.ints _ (hsize ▸ hadmissible.exists_var) u hu)

/-- To commit `x = v` takes this equation out of the symmetries. -/
theorem commitEqual_zero_law (hs : state.Ready) {x : IntVar} (hx : x.index < state.store.ints.size)
    (hproper : x.Proper) :
    Cuts δ (b.commitEqual p x v 0) state (x.Restricted .equal v)
      (· = { b with symmetries := b.symmetries.map (·.update p v) }) :=
  Cuts.restrict hs hx hproper .equal v (fun _ => Iff.rfl) rfl

/-- To exclude `x = v` excludes the images of this equation too. -/
theorem commitEqual_one_law (hs : state.Ready) {x : IntVar} (hx : x.index < state.store.ints.size)
    (hproper : x.Proper) (hvars : ∀ image ∈ b.symmetries.flatMap (·.images p v),
      ∃ y, b.vars.get? image.1 = some y ∧ y.Admissible δ state.store) :
    Cuts δ (b.commitEqual p x v 1) state
      (fun F => x.Restricted .notEqual v F ∧
        Excludes b.vars (b.symmetries.flatMap (·.images p v)) F)
      (· = b) := by
  refine Cuts.of_law ((Law.restrict hs hx (.inl hproper) fun F _ hF _ => hF.1).bind ?_)
  rintro event state₁ hstep ⟨hnarrowed, -, -⟩
  have hsize := hstep.advances.store.size_ints
  refine (exclude_law (b := b) (hstep.advances.ready hs) (fun image himage => ?_)
    fun F _ hF _ => hF.2).bind ?_
  · obtain ⟨y, hy, hadmissible⟩ := hvars image himage
    exact ⟨y, hy, hadmissible.of_size_le hsize.ge⟩
  · intro _ state₂ hstep₂ hexcludes
    have hsize₂ := hstep₂.advances.store.size_ints.trans hsize
    refine Law.pure ⟨rfl, fun F hle => ⟨fun u hu => ?_, fun image himage y hy u hu => ?_⟩⟩
    · have hle := hstep₂.advances.store.within_of_within hle
      exact hnarrowed.holds u (hle.ints _ (hsize ▸ hx) u hu)
    · obtain ⟨y', hy', hadmissible⟩ := hvars image himage
      obtain rfl : y' = y := Option.some.inj (hy'.symm.trans hy)
      exact hexcludes image himage y' hy u (hle.ints _ (hsize₂ ▸ hadmissible.exists_var) u hu)

end IntBrancher

/-- The row of the only brancher may get other symmetries. -/
theorem Table.set_breaking_of_single {branchers : Table Brancher} {row : Brancher}
    {τ τ' : List Symmetry} {i : Nat} (h : ∀ j row, branchers.get? j = some row → j = i) :
    (branchers.breaking τ).set i (row.breaking τ') = (branchers.set i row).breaking τ' := by
  refine congrArg Table.mk (Array.ext_getElem? fun j => ?_)
  change ((branchers.breaking τ).set i (row.breaking τ')).get? j =
    ((branchers.set i row).breaking τ').get? j
  rw [get?_set, get?_breaking, get?_breaking, get?_set, size_breaking]
  by_cases hj : i = j
  · rw [if_pos hj, if_pos hj]
    split <;> rfl
  · rw [if_neg hj, if_neg hj]
    cases hget : branchers.get? j with
    | none => rfl
    | some row' => exact absurd (h j row' hget).symm hj

/-- To take symmetries away changes nothing if there are none. -/
theorem Table.breaking_nil {branchers : Table Brancher}
    (h : ∀ i row, branchers.get? i = some row → row.breaking [] = row) :
    branchers.breaking [] = branchers := by
  refine congrArg Table.mk (Array.ext_getElem? fun i => ?_)
  change (branchers.breaking []).get? i = branchers.get? i
  rw [get?_breaking]
  cases hget : branchers.get? i with
  | none => rfl
  | some row => exact congrArg some (h i row hget)

theorem Brancher.breaking_nil {b' : IntBrancher} (h : b'.symmetries = []) :
    (Brancher.int b').breaking [] = .int b' := by
  unfold breaking
  rw [← h]

/-! ### Regions that respect symmetries -/

namespace Tree

variable {t : Tree} {σ : Symmetry} {τ : List Symmetry} {e : Exchange} {Q R : Set Box} {s s' : Space}

/-- The tree is split by one brancher, into equations; only assignments are looked for, and an
exchange of one is looked for too. -/
structure Symmetric (δ : Prop) (t : Tree) (b : IntBrancher) : Prop where
  chain : t.chain = [((Brancher.int b).breaking []).base]
  equates : b.value.equates = true
  admissible : ∀ x ∈ b.vars.toList, x.Admissible δ t.root
  solution : ∀ F, t.Wanted F → ∃ a, t.Solution a ∧ F = a.box
  closed : ∀ a, t.Solution a → ∀ σ ∈ b.symmetries, ∀ e, σ.Allows e →
    ∃ a', t.Solution a' ∧ b.valueAt a' = e.apply (b.valueAt a)

/-- The symmetries are left of those of the brancher, and the exchanges that they allow stay within
the region. -/
structure Respects (t : Tree) (b : IntBrancher) (τ : List Symmetry) (Q : Set Box) : Prop where
  within : ∀ σ ∈ τ, σ.within b.vars.size = true
  allowed : ∀ σ ∈ τ, ∀ e, σ.Allows e → ∃ σ₀ ∈ b.symmetries, σ₀.Allows e
  closed : ∀ σ ∈ τ, ∀ e, σ.Allows e → ∀ a, t.Solution a → a.box ∈ Q →
    ∃ a', t.Solution a' ∧ a'.box ∈ Q ∧ b.valueAt a' = e.apply (b.valueAt a)

namespace Respects

/-- Without solutions there is nothing to respect. -/
theorem of_none (h : t.Respects b τ Q) (hnone : ∀ F ∈ R, ¬t.Wanted F) : t.Respects b τ R :=
  ⟨h.within, h.allowed, fun _ _ _ _ _ ha hmem => absurd ha.2 (hnone _ hmem)⟩

/-- The exchanges that are left in the first alternative keep its equation. -/
theorem first (h : t.Respects b τ Q) (hc : c.Equates b p v) :
    t.Respects b (τ.map (·.update p v)) (Q ∩ c.keeps 0) := by
  refine ⟨?_, ?_, ?_⟩
  · intro σ' hσ'
    obtain ⟨σ, hσ, rfl⟩ := List.mem_map.1 hσ'
    exact Symmetry.within_update (h.within σ hσ)
  · intro σ' hσ' e he
    obtain ⟨σ, hσ, rfl⟩ := List.mem_map.1 hσ'
    exact h.allowed σ hσ e he.of_update.1
  · rintro σ' hσ' e he a ha ⟨hmem, hkeeps⟩
    obtain ⟨σ, hσ, rfl⟩ := List.mem_map.1 hσ'
    obtain ⟨hallows, hkept⟩ := he.of_update
    obtain ⟨a', ha', hmem', hvalue⟩ := h.closed σ hσ e hallows a ha hmem
    refine ⟨a', ha', ⟨hmem', hc.mem_keeps_zero.2 ?_⟩, hvalue⟩
    rw [hvalue]
    exact hkept _ (hc.mem_keeps_zero.1 hkeeps)

/-- Once the first alternative is explored, the exchanges stay within the second one. -/
theorem second (h : t.Respects b τ Q) (hc : c.Equates b p v)
    (hnone : ∀ F ∈ Q ∩ c.keeps 0, ¬t.Wanted F) : t.Respects b τ (Q ∩ c.keeps 1) := by
  refine ⟨h.within, h.allowed, fun σ hσ e he a ha hmem => ?_⟩
  obtain ⟨a', ha', hmem', hvalue⟩ := h.closed σ hσ e he a ha hmem.1
  refine ⟨a', ha', ⟨hmem', hc.mem_keeps_one.2 fun hkeeps => ?_⟩, hvalue⟩
  exact hnone _ ⟨hmem', hkeeps⟩ ha'.2

/-- Once the first alternative is explored, no solution is lost with the images of its equation. -/
theorem valueAt_ne_of_image (h : t.Respects b τ Q) (hc : c.Equates b p v)
    (hnone : ∀ F ∈ Q ∩ c.keeps 0, ¬t.Wanted F) (himage : (q, w) ∈ τ.flatMap (·.images p v))
    (ha : t.Solution a) (hmem : a.box ∈ Q) : b.valueAt a q ≠ some w := by
  intro hvalue
  obtain ⟨σ, hσ, himage⟩ := List.mem_flatMap.1 himage
  obtain ⟨e, he, hturns⟩ := Symmetry.exists_allows_of_mem_images himage
  obtain ⟨a', ha', hmem', hvalue'⟩ := h.closed σ hσ e he a ha hmem
  refine hnone a'.box ⟨hmem', hc.mem_keeps_zero.2 ?_⟩ ha'.2
  rw [hvalue']
  exact hturns _ hvalue

/-- The images of an equation speak of variables of the brancher. -/
theorem exists_admissible_of_image (ht : t.Symmetric δ b) (h : t.Respects b τ Q)
    (hp : p < b.vars.size) {image : Nat × Int} (himage : image ∈ τ.flatMap (·.images p v)) :
    ∃ y, b.vars.get? image.1 = some y ∧ y.Admissible δ t.root := by
  obtain ⟨σ, hσ, himage⟩ := List.mem_flatMap.1 himage
  have hlt := Symmetry.lt_of_mem_images (h.within σ hσ) hp himage
  obtain ⟨y, hy⟩ : ∃ y, b.vars.get? image.1 = some y := ⟨_, Array.getElem?_eq_getElem hlt⟩
  exact ⟨y, hy, ht.admissible y (List.mem_of_getElem? ((Array.getElem?_toList).trans hy))⟩

end Respects

/-- The space stands for the region `Q`, with symmetries for its brancher that the region
respects. -/
def Breaks (δ : Prop) (t : Tree) (b : IntBrancher) (s : Space) (Q : Set Box) : Prop :=
  ∃ τ s₀, s = s₀.breaking τ ∧ t.Represents δ s₀ Q ∧ t.Respects b τ Q

/-- What the status of a space with symmetries says about its region. -/
def Reviewed (δ : Prop) (t : Tree) (b : IntBrancher) (Q : Set Box) : SpaceStatus × Space → Prop
  | (status, s) => ∃ τ s₀, s = s₀.breaking τ ∧ t.Judged δ Q (status, s₀) ∧ t.Respects b τ Q

theorem Reviewed.breaks {status : SpaceStatus} (h : t.Reviewed δ b Q (status, s)) :
    t.Breaks δ b s Q := by
  obtain ⟨τ, s₀, hs, hjudged, hτ⟩ := h
  exact ⟨τ, s₀, hs, hjudged.represents, hτ⟩

theorem Reviewed.none_wanted (h : t.Reviewed δ b Q (.failed, s)) : ∀ F ∈ Q, ¬t.Wanted F := by
  obtain ⟨τ, s₀, -, hjudged, -⟩ := h
  exact hjudged.none_wanted

/-- The row of the only brancher. -/
theorem Symmetric.exists_int (ht : t.Symmetric δ b) (h : t.Stands δ s Q) {i : Nat} {row : Brancher}
    (hrow : s.branchers.get? i = some row) :
    i = 0 ∧ ∃ b', row = .int b' ∧ b'.vars = b.vars ∧ b'.symmetries = [] ∧
      b'.value.equates = true := by
  have hbase := h.lineup.base_of_get? hrow
  rw [ht.chain, List.getElem?_singleton] at hbase
  by_cases hi : i = 0
  · rw [if_pos hi, Option.some.injEq] at hbase
    refine ⟨hi, ?_⟩
    cases row with
    | int b' =>
      obtain ⟨hvars, -, -, hvalue, hsymmetries⟩ := IntBrancher.mk.inj (Brancher.int.inj hbase)
      refine ⟨b', rfl, hvars.symm, hsymmetries.symm, ?_⟩
      rw [← ValueSelection.equates_unseeded, ← hvalue, ValueSelection.equates_unseeded]
      exact ht.equates
    | set vars start => cases hbase
    | float vars precision start => cases hbase
  · rw [if_neg hi] at hbase
    cases hbase

namespace Breaks

/-- Without its symmetries, the space stands for the region all the same. -/
theorem represents (ht : t.Symmetric δ b) (h : t.Breaks δ b s Q) :
    t.Represents δ (s.breaking []) Q := by
  obtain ⟨τ, s₀, rfl, hs, -⟩ := h
  have htwice : (s₀.breaking τ).breaking [] = s₀.breaking [] := by
    refine congrArg (fun branchers => { s₀ with branchers }) (congrArg Table.mk ?_)
    show (s₀.branchers.rows.map _).map _ = _
    rw [Array.map_map]
    exact congrArg (s₀.branchers.rows.map ·) (funext Brancher.breaking_breaking)
  rw [htwice]
  rcases hs with ⟨hfailed, hobjective, hnone⟩ | hs
  · exact .failed hfailed hobjective hnone
  · have hnil : s₀.branchers.breaking [] = s₀.branchers := Table.breaking_nil fun i row hrow => by
      obtain ⟨-, b', rfl, -, hsymmetries, -⟩ := ht.exists_int hs hrow
      exact Brancher.breaking_nil hsymmetries
    unfold Space.breaking
    rw [hnil]
    exact .stands hs

/-- If less is looked for, but whole orbits still, the space stands for the region all the same. -/
theorem retarget {goal : Set Box} (hgoal : goal ⊆ t.goal)
    (hinvariant : ∀ a a', t.Solution a → t.Solution a' → b.Exchanges a a' → a.box ∈ goal →
      a'.box ∈ goal) (h : t.Breaks δ b s Q) : Breaks δ { t with goal } b s Q := by
  obtain ⟨τ, s₀, rfl, hs, hτ⟩ := h
  refine ⟨τ, s₀, rfl, hs.retarget hgoal, hτ.within, hτ.allowed, fun σ hσ e he a ha hmem => ?_⟩
  have hsolution : t.Solution a := ⟨ha.1, ha.2.of_goal hgoal⟩
  obtain ⟨a', ha', hmem', hvalue⟩ := hτ.closed σ hσ e he a hsolution hmem
  obtain ⟨σ₀, hσ₀, he₀⟩ := hτ.allowed σ hσ e he
  have hexchanges : b.Exchanges a a' := ⟨σ₀, hσ₀, e, he₀, hvalue⟩
  exact ⟨a', ⟨ha'.1, ha'.2.sound, ha'.2.consistent,
    hinvariant a a' hsolution ha' hexchanges ha.2.goal⟩, hmem', hvalue⟩

theorem status_law (h : t.Breaks δ b s Q) : Journaled.Yields δ s.status (t.Reviewed δ b Q) := by
  obtain ⟨τ, s₀, rfl, hs, hτ⟩ := h
  rw [Space.status_breaking, ← bind_pure_comp]
  refine (Tree.status_law hs).bind ?_
  rintro ⟨status, s₁⟩ hjudged
  exact Journaled.Yields.pure ⟨τ, s₁, rfl, hjudged, hτ⟩

/-- A space with an open variable has a choice between two parts of its region. -/
theorem choice_law (ht : t.Symmetric δ b) (h : t.Reviewed δ b Q (.branch, s)) :
    Yields δ s.choice fun r => (∃ p v, r.1.Equates b p v) ∧ t.Offers Q (r.1.marked false) ∧
      t.Breaks δ b r.2 Q := by
  obtain ⟨τ, s₀, rfl, ⟨hrests, hopen⟩, hτ⟩ := h
  rw [Space.choice_breaking, ← bind_pure_comp]
  refine (Tree.choice_law hrests hopen).self.bind ?_
  rintro ⟨c, s₁⟩ ⟨⟨hoffers, hs₁⟩, hchoice⟩
  refine Yields.pure ⟨?_, ?_, τ, s₁, rfl, hs₁, hτ⟩
  · obtain ⟨row, hrow, -⟩ := hopen
    obtain ⟨-, b', rfl, hvars, -, hequates⟩ := ht.exists_int hrests.toStands hrow
    obtain ⟨p, v, hc⟩ := Space.exists_equates_of_choice hequates hrow hchoice
    exact ⟨p, v, (hc.congr hvars).marked _⟩
  · rw [Choice.marked_of_expressible hoffers.expressible]
    exact hoffers

/-- An alternative may exclude more than it says, if nothing that is looked for is lost. -/
theorem commit_of_cuts {row : Brancher} {τ' : List Symmetry} {i : Nat} {P : Box → Prop}
    (ht : t.Symmetric δ b) (h : t.Stands δ s Q) (hτ : t.Respects b τ Q)
    (hτ' : t.Respects b τ' (Q ∩ c.keeps i)) (hrow : s.branchers.get? c.brancher = some row)
    (hi : i < c.alternatives) (hcuts : Propagation.Cuts δ
      ((row.breaking τ).commit c.decision i) s.state P (· = row.breaking τ'))
    (hkeeps : ∀ F, P F → F ∈ c.keeps i) (hkept : ∀ F ∈ Q ∩ c.keeps i, t.Wanted F → P F) :
    Yields δ ((s.breaking τ).commit c i) (t.Breaks δ b · (Q ∩ c.keeps i)) := by
  have hfetch : (s.breaking τ).branchers.fetch c.brancher = .ok (row.breaking τ) := by
    show (s.branchers.breaking τ).fetch _ = _
    rw [Table.fetch_breaking, Table.fetch_eq_ok.2 hrow]
    rfl
  have halive : ¬(s.breaking τ).isFailed = true := by
    show ¬s.isFailed = true
    rw [h.alive]
    decide
  unfold Space.commit
  rw [if_neg (not_le.2 hi), if_neg halive, hfetch]
  have hcommit : Yields δ ((row.breaking τ).commit c.decision i s.state) _ := hcuts
  refine hcommit.bind ?_
  rintro ⟨outcome, state⟩ hr
  cases outcome with
  | error j =>
    have hnone : ∀ F ∈ Q ∩ c.keeps i, ¬t.Wanted F := fun F hF hw =>
      hr F hw.sound (h.frames.kept F hF.1 hw) (hkept F hF hw)
    exact Yields.pure ⟨τ, Space.fail { s with state }, rfl, .failed rfl h.objective hnone,
      hτ.of_none hnone⟩
  | ok row' =>
    obtain ⟨rfl, hadvances, hiff⟩ := hr
    have hnarrowed := Represents.stands (h.narrow hrow hadvances hiff)
    refine Yields.pure ⟨τ', _, ?_, hnarrowed.mono (fun F hF => ⟨hF.1, hkeeps F hF.2⟩)
      fun F hF hw => ⟨hF.1, hkept F hF hw⟩, hτ'⟩
    have hset : (s.branchers.breaking τ).set c.brancher (row.breaking τ') = _ :=
      Table.set_breaking_of_single fun j row' hrow' =>
        (ht.exists_int h hrow').1.trans (ht.exists_int h hrow).1.symm
    exact congrArg (fun branchers => { s with state, branchers }) hset

/-- To commit an alternative leaves the part of the region that the alternative keeps. Before the
second one, the first one must have been explored. -/
theorem commit_law (ht : t.Symmetric δ b) (h : t.Breaks δ b s Q) (hc : c.Equates b p v)
    (hoffers : t.Offers R (c.marked false)) {i : Nat} (hi : i < c.alternatives)
    (hexplored : ∀ j < i, ∀ F ∈ Q ∩ c.keeps j, ¬t.Wanted F) :
    Yields δ (s.commit c i) (t.Breaks δ b · (Q ∩ c.keeps i)) := by
  obtain ⟨τ, s₀, rfl, hs, hτ⟩ := h
  rcases hs with ⟨hfailed, hobjective, hnone⟩ | hs
  · have hnone : ∀ F ∈ Q ∩ c.keeps i, ¬t.Wanted F := fun F hF => hnone F hF.1
    unfold Space.commit
    rw [if_neg (not_le.2 hi), if_pos (show (s₀.breaking τ).isFailed = true from hfailed)]
    exact Yields.pure ⟨τ, s₀, rfl, .failed hfailed hobjective hnone, hτ.of_none hnone⟩
  have hnarrows := hs.frames.narrows
  obtain ⟨x, breaks, hx, hdecision⟩ := hc.exists_decision
  obtain ⟨row, hrow, hmakes⟩ := hoffers.makes
  change t.chain[c.brancher]? = _ at hrow
  rw [← hs.lineup.base] at hrow
  obtain ⟨row', hrow', rfl⟩ := Option.map_eq_some_iff.1 hrow
  obtain ⟨-, b', rfl, hvars, hsymmetries, -⟩ := ht.exists_int hs hrow'
  have hindex : x.index < s₀.store.ints.size ∧ x.Proper := by
    have hmakes : (Brancher.int b').base.Makes t.root (c.decision.marked false) := hmakes
    rw [hdecision] at hmakes
    exact ⟨hnarrows.size_ints ▸ hmakes.2.1, hmakes.2.2⟩
  match i, hi, hexplored with
  | 0, hi, _ =>
    -- The symmetries shrink to those that keep the equation.
    have hiff : ∀ F, F ∈ c.keeps 0 ↔ x.Restricted .equal v F := fun F => by
      unfold Choice.keeps
      rw [hdecision]
      exact Iff.rfl
    refine commit_of_cuts (P := x.Restricted .equal v) ht hs hτ (hτ.first hc) hrow' hi ?_
      (fun F hF => (hiff F).2 hF) fun F hF _ => (hiff F).1 hF.2
    rw [hdecision]
    exact (IntBrancher.commitEqual_zero_law (b := { b' with symmetries := τ }) hs.tracks.ready
      hindex.1 hindex.2).map
  | 1, hi, hexplored =>
    -- The images of the equation are excluded too, and no solution in the region has one of them.
    have hiff : ∀ F, F ∈ c.keeps 1 ↔ x.Restricted .notEqual v F := fun F => by
      unfold Choice.keeps
      rw [hdecision]
      exact Iff.rfl
    have hnone := hexplored 0 Nat.zero_lt_one
    refine commit_of_cuts
      (P := fun F => x.Restricted .notEqual v F ∧
        IntBrancher.Excludes b.vars (τ.flatMap (·.images p v)) F)
      ht hs hτ (hτ.second hc hnone) hrow' hi ?_ (fun F hF => (hiff F).2 hF.1)
      fun F hF hw => ⟨(hiff F).1 hF.2, fun image himage y hy => ?_⟩
    · have hadmissible : ∀ image ∈ τ.flatMap (·.images p v),
          ∃ y, b'.vars.get? image.1 = some y ∧ y.Admissible δ s₀.store := by
        intro image himage
        have hp : p < b.vars.size := (Array.getElem?_eq_some_iff.1 hx).1
        obtain ⟨y, hy, hadmissible⟩ := hτ.exists_admissible_of_image ht hp himage
        exact ⟨y, hvars.symm ▸ hy, hadmissible.of_size_le hnarrows.size_ints.ge⟩
      rw [hdecision, ← hvars]
      exact (IntBrancher.commitEqual_one_law (b := { b' with symmetries := τ }) hs.tracks.ready
        hindex.1 hindex.2 hadmissible).map
    · obtain ⟨a, ha, rfl⟩ := ht.solution F hw
      have hne := hτ.valueAt_ne_of_image hc hnone himage ha hF.1
      refine Assignment.restricted_box.2 fun heq => hne ?_
      unfold IntBrancher.valueAt
      rw [hy, ← heq]
      rfl
  | i + 2, hi, _ =>
    rw [hc.alternatives_eq] at hi
    omega

end Breaks

end Tree

end ConstraintSearch
