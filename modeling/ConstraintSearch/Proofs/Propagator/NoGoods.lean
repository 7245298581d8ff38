import ConstraintSearch.Proofs.Propagator.Stable

/-!
# The law of no-goods

A run settles one level after the other, until a level is open: its explored branches are made
false, and the levels behind it matter only once its taken branch holds. If that branch is refuted,
or if there is none, the no-goods permit every smaller box.
-/

namespace ConstraintSearch.NoGoods

open Propagation

variable {δ : Prop} {C : Box → Prop} {s : State} {levels : List NoGoodLevel} {start : Nat}

/-- The explored branches of a level are made false. -/
theorem excludeAll_law {literals : List Literal} (hs : s.Ready)
    (hl : ∀ l ∈ literals, l.Admissible δ s.store)
    (hC : ∀ F : Box, F.Sound → C F → F.Within s.store → ∀ l ∈ literals, l.Refuted F) :
    Law δ C (excludeAll literals) s fun _ s' => ∀ l ∈ literals, l.Refuted s'.store.box := by
  induction literals generalizing s with
  | nil => exact Law.pure fun l hl => absurd hl List.not_mem_nil
  | cons l literals ih =>
    obtain ⟨hl, hothers⟩ := List.forall_mem_cons.1 hl
    unfold excludeAll
    refine (Law.reading (Literal.yields_truth? hs.sound hl)).bind ?_
    rintro truth s₁ - ⟨rfl, hjudged, hread⟩
    -- What is refuted stays refuted while the others are excluded.
    have hrest {s₂ : State} (hstep : Step C s₁ s₂) (hrefuted : l.Refuted s₂.store.box) :
        Law δ C (excludeAll literals) s₂
          fun _ s' => ∀ l' ∈ l :: literals, l'.Refuted s'.store.box := by
      have hnarrows := hstep.advances.store
      refine (ih (hstep.advances.ready hs)
        (fun l' hl' => (hothers l' hl').of_evolves hnarrows.evolves)
        fun F hF hCF hle l' hl' => ?_).mono fun _ s' hstep' hrest => ?_
      · exact hC F hF hCF (hnarrows.within_of_within hle) l' (List.mem_cons_of_mem _ hl')
      · refine List.forall_mem_cons.2 ⟨?_, hrest⟩
        exact hrefuted.of_within (hl.of_evolves hnarrows.evolves) hstep'.advances.store.within
    have hexcluded : ∀ F : Box, F.Sound → C F → F.Within s₁.store → l.Refuted F :=
      fun F hF hCF hle => hC F hF hCF hle l List.mem_cons_self
    match truth with
    | some true =>
      exact Law.throw fun F hF hCF hle =>
        Literal.Holds.not_refuted (Literal.Holds.of_within hjudged hl hle) hF
          (hexcluded F hF hCF hle)
    | some false => exact hrest (.refl C s₁) hjudged
    | none =>
      exact (Literal.exclude_law hs hl hjudged hread hexcluded).bind
        fun _ s₂ hstep hrefuted => hrest hstep hrefuted

/-- So many levels are settled. Either the next one is open, or every smaller box is permitted. -/
def Settles (levels : List NoGoodLevel) (start : Nat) (s : Store) :
    Nat × Verdict Propagator → Prop
  | (n, verdict) => ∃ k, n = start + k ∧ (∀ level ∈ levels.take k, level.Settled s.box) ∧
      match verdict with
      | .fix => ∃ level l, levels[k]? = some level ∧ (∀ l ∈ level.explored, l.Refuted s.box) ∧
          level.taken = some l ∧ ¬l.Holds s.box
      | .subsumed => ∀ F : Box, F.Sound → F.Within s → Permits levels F
      | _ => False

theorem settle_law (hs : s.Ready) (hl : ∀ level ∈ levels, level.Admissible δ s.store)
    (hC : ∀ F : Box, F.Sound → C F → F.Within s.store → Permits levels F) :
    Law δ C (settle levels start) s fun r s' => Settles levels start s'.store r := by
  induction levels generalizing s start with
  | nil => exact Law.pure ⟨0, rfl, by simp, fun F _ _ => trivial⟩
  | cons level levels ih =>
    obtain ⟨hlevel, hothers⟩ := List.forall_mem_cons.1 hl
    unfold settle
    refine (excludeAll_law hs hlevel.explored fun F hF hCF hle => (hC F hF hCF hle).1).bind
      fun _ s₁ hstep hexplored => ?_
    have hs₁ := hstep.advances.ready hs
    have hnarrows := hstep.advances.store
    replace hlevel := hlevel.of_evolves hnarrows.evolves
    have hrefuted {F : Box} (hle : F.Within s₁.store) : ∀ l ∈ level.explored, l.Refuted F :=
      fun l hl => (hexplored l hl).of_within (hlevel.explored l hl) hle
    cases htaken : level.taken with
    | none =>
      refine Law.pure ⟨0, rfl, by simp, fun F _ hle => ⟨hrefuted hle, fun l hl => ?_⟩⟩
      rw [htaken] at hl
      cases hl
    | some taken =>
      have hadmissible := hlevel.taken taken htaken
      refine (Law.reading (Literal.yields_truth? hs₁.sound hadmissible)).bind ?_
      rintro truth s₂ - ⟨rfl, hjudged, -⟩
      match truth with
      | some true =>
        have hsettled : level.Settled s₂.store.box := ⟨hexplored, taken, htaken, hjudged⟩
        refine (ih hs₁ (fun level hl => (hothers level hl).of_evolves hnarrows.evolves)
          fun F hF hCF hle => ?_).mono ?_
        · exact (hC F hF hCF (hnarrows.within_of_within hle)).2 taken htaken
            (Literal.Holds.of_within hjudged hadmissible hle)
        · rintro ⟨n, verdict⟩ s' hstep' ⟨k, rfl, htake, hverdict⟩
          have hsettled' := hsettled.of_within hlevel hstep'.advances.store.within
          refine ⟨k + 1, by omega, List.forall_mem_cons.2 ⟨hsettled', htake⟩, ?_⟩
          cases verdict with
          | fix => exact hverdict
          | noFix => exact hverdict
          | subsumed =>
            refine fun F hF hle => ⟨?_, fun _ _ _ => hverdict F hF hle⟩
            exact hrefuted (hstep'.advances.store.within_of_within hle)
          | replace p => exact hverdict
      | some false =>
        refine Law.pure ⟨0, rfl, by simp, fun F hF hle => ⟨hrefuted hle, fun l hl hholds => ?_⟩⟩
        obtain rfl : taken = l := Option.some.inj (htaken.symm.trans hl)
        exact absurd (Literal.Refuted.of_within hjudged hadmissible hle) (hholds.not_refuted hF)
      | none => exact Law.pure ⟨0, rfl, by simp, level, taken, rfl, hexplored, htaken, hjudged.1⟩

/-- The levels that were settled before have no influence on a run. -/
theorem run_law (hs : s.Ready) (hw : (Propagator.noGoods levels start).WellFormed δ s.store) :
    Law δ (Permits levels) (run levels start) s fun r s' =>
      ∃ k, r.1 = .noGoods levels k ∧ r.1.WellFormed δ s'.store ∧
        match r.2 with
        | .fix => r.1.Rests s'.store
        | .subsumed => ∀ F : Box, F.Sound → F.Within s'.store → Permits levels F
        | _ => False := by
  obtain ⟨hl, hsettled⟩ := hw
  have hpermits {s' : Store} (hn : s.store.Narrows s') {F : Box} (hle : F.Within s') :
      Permits levels F ↔ Permits (levels.drop start) F := by
    have happend : Permits (levels.take start ++ levels.drop start) F ↔
        Permits (levels.drop start) F :=
      permits_append fun level hlevel => (hsettled level hlevel).of_within
        (hl level (List.mem_of_mem_take hlevel)) (hn.within_of_within hle)
    rwa [List.take_append_drop] at happend
  unfold run
  refine (settle_law hs (fun level hlevel => hl level (List.mem_of_mem_drop hlevel))
    fun F hF hC hle => (hpermits (.refl _) hle).1 hC).bind ?_
  rintro ⟨n, verdict⟩ s' hstep ⟨k, rfl, htake, hverdict⟩
  have hnarrows := hstep.advances.store
  have hw' : (Propagator.noGoods levels (start + k)).WellFormed δ s'.store := by
    refine ⟨fun level hlevel => (hl level hlevel).of_evolves hnarrows.evolves, ?_⟩
    rw [List.take_add]
    refine List.forall_mem_append.2 ⟨fun level hlevel => ?_, htake⟩
    exact (hsettled level hlevel).of_within (hl level (List.mem_of_mem_take hlevel))
      hnarrows.within
  refine Law.pure ⟨start + k, rfl, hw', ?_⟩
  cases verdict with
  | fix =>
    obtain ⟨level, l, hget, hlevel⟩ := hverdict
    rw [List.getElem?_drop] at hget
    exact ⟨level, l, hget, hlevel⟩
  | noFix => exact hverdict
  | subsumed => exact fun F hF hle => (hpermits hnarrows hle).2 (hverdict F hF hle)
  | replace p => exact hverdict

end ConstraintSearch.NoGoods
