import ConstraintSearch.Proofs.Propagator.Stable

/-!
# The laws of disequations and inequations

* `NotEquals.law`: a disequation waits until a variable is fixed, and then needs to run no more;
* `LessOrEqual.law`: one run of an inequation moves each of two bounds as far as it goes. If both
  variables are views of one store variable in the same direction, the second move may undo the
  first, and nothing is promised about the fixpoint.
-/

namespace ConstraintSearch

namespace Propagator

/-- What the verdict of a run says about the store after it, for a propagator that stays as it
is. -/
def Concludes (p : Propagator) (s : Store) : Verdict Propagator → Prop
  | .fix => p.Oriented → p.Rests s
  | .subsumed => ∀ F : Box, F.Sound → F.Within s → p.Stable F
  | .noFix | .replace _ => False

end Propagator

open Propagation

variable {δ : Prop} {s : State} {a b : IntVar} {offset : Int}

/-- Once a variable is fixed and its partner value removed, a disequation holds. -/
theorem NotEquals.subsumed {x y : IntVar} {offset v : Int} {s : Store} (hs : s.Sound)
    (hx : x.index < s.ints.size) (hy : y.index < s.ints.size) (hv : x.fixedAt s.box = some v)
    (hremoved : y.Restricted .notEqual (v + offset) s.box) {F : Box} (hF : F.Sound)
    (hle : F.Within s) : x.Excludes y offset F ∧ y.Excludes x (-offset) F := by
  have hvF := IntVar.fixedAt_of_le (hF.canonical _) (hs.box.canonical _) (hle.ints _ hx) hv
  refine ⟨IntVar.Excludes.of_removed hvF (hle.ints _ hy) hremoved, ?_⟩
  intro w hw u hu
  have hxv := (IntVar.fixedAt_eq_some_iff (hF.canonical _)).1 hvF u hu
  have hmin := (hF.canonical y.index).min_mem
  have hyw := (IntVar.fixedAt_eq_some_iff (hF.canonical _)).1 hw _ hmin
  have hne : y.eval _ ≠ v + offset := hremoved _ (hle.ints _ hy _ hmin)
  omega

theorem NotEquals.law (hs : s.Ready) (ha : a.Admissible δ s.store)
    (hb : b.Admissible δ s.store) :
    Law δ (Propagator.notEquals a b offset).Stable (NotEquals.run a b offset) s
      fun verdict s' => (Propagator.notEquals a b offset).Concludes s'.store verdict := by
  unfold NotEquals.run
  refine (Law.reading (IntVar.yields_value? hs.sound ha.exists_var)).bind ?_
  rintro va s₁ - ⟨rfl, rfl, hreada⟩
  cases hva : a.fixedAt s₁.store.box with
  | some v =>
    refine (Law.lift (Word.yields_checked _ _)).bind ?_
    rintro partner s₂ - ⟨rfl, rfl, -⟩
    refine (Law.restrict hs hb.exists_var hb.proper fun F hF hC hle u hu => ?_).bind ?_
    · have hvF := IntVar.fixedAt_of_le (hF.canonical _) (hs.sound.box.canonical _)
        (hle.ints _ ha.exists_var) hva
      exact hC.1 v hvF u hu
    · rintro event s₃ hstep ⟨hnarrowed, -, -⟩
      refine Law.pure fun F hF hle => ?_
      have hvs := IntVar.fixedAt_of_le (hnarrowed.sound.box.canonical _)
        (hs.sound.box.canonical _) (hnarrowed.narrows.within.ints _ ha.exists_var) hva
      have hsize := hnarrowed.narrows.size_ints
      have hremoved : b.Restricted .notEqual (v + -offset) s₃.store.box := hnarrowed.holds
      obtain ⟨hab, hba⟩ := NotEquals.subsumed hnarrowed.sound (hsize ▸ ha.exists_var)
        (hsize ▸ hb.exists_var) hvs hremoved hF hle
      rw [Int.neg_neg] at hba
      exact ⟨hab, hba⟩
  | none =>
    refine (Law.reading (IntVar.yields_value? hs.sound hb.exists_var)).bind ?_
    rintro vb s₂ - ⟨rfl, rfl, hreadb⟩
    cases hvb : b.fixedAt s₂.store.box with
    | some v =>
      refine (Law.lift (Word.yields_checked _ _)).bind ?_
      rintro partner s₃ - ⟨rfl, rfl, -⟩
      refine (Law.restrict hs ha.exists_var ha.proper fun F hF hC hle u hu => ?_).bind ?_
      · have hvF := IntVar.fixedAt_of_le (hF.canonical _) (hs.sound.box.canonical _)
          (hle.ints _ hb.exists_var) hvb
        exact hC.2 v hvF u hu
      · rintro event s₄ hstep ⟨hnarrowed, -, -⟩
        refine Law.pure fun F hF hle => ?_
        have hvs := IntVar.fixedAt_of_le (hnarrowed.sound.box.canonical _)
          (hs.sound.box.canonical _) (hnarrowed.narrows.within.ints _ hb.exists_var) hvb
        have hsize := hnarrowed.narrows.size_ints
        obtain ⟨hba, hab⟩ := NotEquals.subsumed hnarrowed.sound
          (hsize ▸ hb.exists_var) (hsize ▸ ha.exists_var) hvs hnarrowed.holds hF hle
        exact ⟨hab, hba⟩
    | none => exact Law.pure fun _ => ⟨hreada, hreadb, hva, hvb⟩

/-! ### Inequations -/

theorem LessOrEqual.law (hs : s.Ready) (ha : a.Admissible δ s.store)
    (hb : b.Admissible δ s.store) :
    Law δ (Propagator.lessOrEqual a b offset).Stable (LessOrEqual.run a b offset) s
      fun verdict s' => (Propagator.lessOrEqual a b offset).Concludes s'.store verdict := by
  unfold LessOrEqual.run
  refine (Law.reading (IntVar.yields_bound hs.sound hb.exists_var .upper)).bind ?_
  rintro bu s₀ - ⟨rfl, rfl, hcbu⟩
  refine (Law.lift (Word.yields_checked _ _)).bind ?_
  rintro upper s₁ - ⟨rfl, rfl, hfits⟩
  have ha₀ := ha.exists_var
  have hb₀ := hb.exists_var
  refine (Law.restrict hs ha₀ ha.proper fun F hF hC hle => ?_).bind ?_
  · have := IntVar.edge_upper_mono (hF.canonical b.index) (hs.sound.box.canonical _)
      (hle.ints _ hb₀)
    exact (IntVar.restricted_atMost (hF.canonical _)).2 (by have := hC.1; omega)
  rintro event s₂ hstep₂ ⟨hcut₂, -, hpull₂⟩
  have hs₂ := hstep₂.advances.ready hs
  have ha₂ : a.index < s₂.store.ints.size := hcut₂.narrows.size_ints ▸ ha₀
  have hb₂ : b.index < s₂.store.ints.size := hcut₂.narrows.size_ints ▸ hb₀
  refine (Law.reading (IntVar.yields_bound hs₂.sound ha₂ .lower)).bind ?_
  rintro al s₃ - ⟨rfl, rfl, hcal⟩
  refine (Law.lift (Word.yields_checked _ _)).bind ?_
  rintro lower s₄ - ⟨rfl, rfl, hfits'⟩
  refine (Law.restrict hs₂ hb₂ hb.proper fun F hF hC hle => ?_).bind ?_
  · have := IntVar.edge_lower_mono (hF.canonical a.index) (hs₂.sound.box.canonical _)
      (hle.ints _ ha₂)
    exact (IntVar.restricted_atLeast (hF.canonical _)).2 (by have := hC.2; omega)
  rintro event' s₅ hstep₅ ⟨hcut₅, -, hpull₅⟩
  have hs₅ := hstep₅.advances.ready hs₂
  have ha₅ : a.index < s₅.store.ints.size := hcut₅.narrows.size_ints ▸ ha₂
  have hb₅ : b.index < s₅.store.ints.size := hcut₅.narrows.size_ints ▸ hb₂
  refine (Law.reading (IntVar.yields_bound hs₅.sound ha₅ .upper)).bind ?_
  rintro au s₆ - ⟨rfl, rfl, hcau⟩
  refine (Law.lift (Word.yields_checked _ _)).bind ?_
  rintro greatest s₇ - ⟨rfl, rfl, hfits''⟩
  refine (Law.reading (IntVar.yields_bound hs₅.sound hb₅ .lower)).bind ?_
  rintro bl s₈ - ⟨rfl, rfl, hcbl⟩
  refine Law.pure ?_
  split
  · -- All of `a` lies below all of `b`.
    rename_i hle₈
    intro F hF hwithin
    have := IntVar.edge_upper_mono (hF.canonical a.index) (hs₅.sound.box.canonical _)
      (hwithin.ints _ ha₅)
    have := IntVar.edge_lower_mono (hF.canonical b.index) (hs₅.sound.box.canonical _)
      (hwithin.ints _ hb₅)
    have := IntVar.edge_lower_le_upper (hF.canonical a.index)
    have := IntVar.edge_lower_le_upper (hF.canonical b.index)
    exact ⟨by omega, by omega⟩
  · rename_i hnot
    intro horiented
    -- The bounds from which the two cuts were computed are where they were.
    have hbu₂ := IntVar.extreme_of_setUpper hs.sound hcut₂ ha₀ b .upper
      fun h => (horiented h.symm).symm
    have hbu₅ := IntVar.extreme_of_setLower hs₂.sound hcut₅ hb₂ b .upper fun _ => rfl
    have hal₅ := IntVar.extreme_of_setLower hs₂.sound hcut₅ hb₂ a .lower horiented
    have hbu : b.edge s₈.store.box .upper = b.edge s₁.store.box .upper :=
      congrArg b.eval (hbu₅.trans hbu₂)
    have hal : a.edge s₈.store.box .lower = a.edge s₄.store.box .lower := congrArg a.eval hal₅
    have hau := (IntVar.restricted_atMost (hs₂.sound.box.canonical _)).1 hcut₂.holds
    have hau' := IntVar.edge_upper_mono (hs₅.sound.box.canonical a.index)
      (hs₂.sound.box.canonical _) (hcut₅.narrows.within.ints _ ha₂)
    have hbl := (IntVar.restricted_atLeast (hs₅.sound.box.canonical _)).1 hcut₅.holds
    rw [← hbu] at hfits hpull₂ hau
    rw [← hal] at hfits' hpull₅ hbl
    refine ⟨fun side => ?_, fun side => ?_, ⟨hfits, hpull₂, hau'.trans hau⟩,
      ⟨hfits', hpull₅, hbl⟩, hfits'', by omega⟩
    · cases side with
      | lower => rwa [hal₅]
      | upper => exact hcau
    · cases side with
      | lower => exact hcbl
      | upper => rwa [hbu₅, hbu₂]

end ConstraintSearch
