import ConstraintSearch.Proofs.Propagator.Binary

/-!
# The laws of linear constraints

* `Linear.runAtMost_law`: an inequation cuts the upper bounds in one pass, which moves no lower
  bound as long as no store variable is mentioned in both directions;
* `Linear.tighten_law`: one pass over an equation either changes nothing, and then every bound is
  what the other ones leave of the total, or some term gets smaller;
* `Linear.runEqual_law`: hence the passes come to an end, whatever is mentioned how often.
-/

namespace ConstraintSearch

namespace IntVar

variable {F G : Box} {terms : List IntVar} {x : IntVar}

/-- Sums of bounds grow with the bounds. -/
theorem edges_le {side side' : Side} (h : ∀ y ∈ terms, y.edge F side ≤ y.edge G side') :
    edges F side terms ≤ edges G side' terms := by
  induction terms with
  | nil => exact le_rfl
  | cons y ys ih =>
    have := h y (by simp)
    have := ih fun z hz => h z (by simp [hz])
    rw [edges_cons, edges_cons]
    omega

/-- Sums of bounds without the bound of one term grow with the bounds. -/
theorem edges_sub_le {side side' : Side} (hx : x ∈ terms)
    (h : ∀ y ∈ terms, y.edge F side ≤ y.edge G side') :
    edges F side terms - x.edge F side ≤ edges G side' terms - x.edge G side' := by
  induction terms with
  | nil => cases hx
  | cons y ys ih =>
    have hy := h y (by simp)
    have hys := edges_le fun z hz => h z (List.mem_cons_of_mem y hz)
    rw [edges_cons, edges_cons]
    rcases List.mem_cons.1 hx with rfl | hx
    · omega
    · have := ih hx fun z hz => h z (by simp [hz])
      omega

/-- The lower bounds of terms are at most the upper ones. -/
theorem edges_lower_le_upper (hF : F.Sound) (terms : List IntVar) :
    edges F .lower terms ≤ edges F .upper terms :=
  edges_le fun y _ => edge_lower_le_upper (hF.canonical y.index)

theorem edges_sub_lower_le (hF : F.Sound) (hx : x ∈ terms) :
    edges F .lower terms - x.edge F .lower ≤ edges F .upper terms - x.edge F .upper :=
  edges_sub_le hx fun y _ => edge_lower_le_upper (hF.canonical y.index)

end IntVar

namespace Linear

open Propagation

variable {δ : Prop} {s s₀ : State} {terms xs : List IntVar} {x : IntVar}

theorem yields_sum {s : Store} (hs : s.Sound) (h : ∀ x ∈ terms, x.index < s.ints.size)
    (side : Side) : Yields δ (sum side s terms) fun v => v = IntVar.edges s.box side terms ∧
      ∀ x ∈ terms, x.Computes ((s.box.ints x.index).extreme (x.turn side)) := by
  induction terms with
  | nil => exact ⟨rfl, by simp⟩
  | cons x xs ih =>
    refine (IntVar.yields_bound hs (h x (by simp)) side).bind fun v hv => ?_
    refine (ih fun y hy => h y (by simp [hy])).bind fun w hw => ?_
    obtain ⟨rfl, hv⟩ := hv
    obtain ⟨rfl, hw⟩ := hw
    exact ⟨(IntVar.edges_cons ..).symm, List.forall_mem_cons.2 ⟨hv, hw⟩⟩

theorem yields_sums {s : Store} (hs : s.Sound) (h : ∀ x ∈ terms, x.index < s.ints.size) :
    Yields δ (sums s terms) fun r => r = (IntVar.edges s.box .lower terms,
      IntVar.edges s.box .upper terms) ∧ ∀ x ∈ terms, x.Readable s := by
  induction terms with
  | nil => exact ⟨rfl, by simp⟩
  | cons x xs ih =>
    refine (IntVar.yields_bound hs (h x (by simp)) .lower).bind fun l hl => ?_
    refine (IntVar.yields_bound hs (h x (by simp)) .upper).bind fun u hu => ?_
    refine (ih fun y hy => h y (by simp [hy])).bind fun r hr => ?_
    obtain ⟨rfl, hl⟩ := hl
    obtain ⟨rfl, hu⟩ := hu
    obtain ⟨rfl, hr⟩ := hr
    refine ⟨by simp only [IntVar.edges_cons], List.forall_mem_cons.2 ⟨fun side => ?_, hr⟩⟩
    cases side <;> assumption

theorem edges_lower_mono {F : Box} {s : Store} (hF : F.Sound) (hs : s.Sound) (hle : F.Within s)
    (h : ∀ x ∈ terms, x.index < s.ints.size) :
    IntVar.edges s.box .lower terms ≤ IntVar.edges F .lower terms :=
  IntVar.edges_le fun x hx =>
    IntVar.edge_lower_mono (hF.canonical _) (hs.box.canonical _) (hle.ints _ (h x hx))

theorem edges_upper_mono {F : Box} {s : Store} (hF : F.Sound) (hs : s.Sound) (hle : F.Within s)
    (h : ∀ x ∈ terms, x.index < s.ints.size) :
    IntVar.edges F .upper terms ≤ IntVar.edges s.box .upper terms :=
  IntVar.edges_le fun x hx =>
    IntVar.edge_upper_mono (hF.canonical _) (hs.box.canonical _) (hle.ints _ (h x hx))

/-! ### Inequations -/

/-- The upper bounds of the terms of a stable box stay below what the slack leaves. -/
theorem upper_le_of_stable {F : Box} {bound : Int} {s s₀ : Store} (hs : s.Sound) (hs₀ : s₀.Sound)
    (h : (Propagator.linearAtMost terms bound).Stable F) (hF : F.Sound) (hle₀ : F.Within s₀)
    (hn : s₀.Narrows s) (hterms : ∀ x ∈ terms, x.index < s₀.ints.size) (hx : x ∈ terms)
    (hfits : Word.Fits (x.edge s.box .lower))
    (hslack : IntVar.edges s₀.box .lower terms ≤ bound) :
    x.edge F .upper ≤ Word.clamp
      (x.edge s.box .lower + (bound - IntVar.edges s₀.box .lower terms)) := by
  have hmono := IntVar.edges_sub_le hx fun y hy =>
    IntVar.edge_lower_mono (hF.canonical _) (hs₀.box.canonical _) (hle₀.ints _ (hterms y hy))
  have hlower := IntVar.edge_lower_mono (hs.box.canonical x.index) (hs₀.box.canonical _)
    (hn.within.ints _ (hterms x hx))
  obtain ⟨hword, hupper⟩ := h.2 x hx
  unfold Word.Fits Word.clamp Word.least Word.greatest at *
  omega

/-- What a pass over `xs` has done to the upper bounds, with the lower bounds in place. -/
structure Cut (terms : List IntVar) (slack : Int) (xs : List IntVar) (s s' : Store) : Prop where
  lower : ∀ y ∈ terms, (s'.box.ints y.index).extreme (y.turn .lower) =
    (s.box.ints y.index).extreme (y.turn .lower)
  upper : ∀ x ∈ xs, x.CanPull .atMost (Word.clamp (x.edge s.box .lower + slack)) ∧
    x.edge s'.box .upper ≤ Word.clamp (x.edge s.box .lower + slack)

theorem cutAll_law {bound : Int} (hs₀ : s₀.Ready)
    (hterms : ∀ x ∈ terms, x.Admissible δ s₀.store)
    (hslack : IntVar.edges s₀.store.box .lower terms ≤ bound) (hxs : ∀ x ∈ xs, x ∈ terms)
    (hstep : Step (Propagator.linearAtMost terms bound).Stable s₀ s) :
    Law δ (Propagator.linearAtMost terms bound).Stable
      (xs.forM (cutUpper (bound - IntVar.edges s₀.store.box .lower terms))) s fun _ s' =>
      (Propagator.linearAtMost terms bound).Oriented →
        Cut terms (bound - IntVar.edges s₀.store.box .lower terms) xs s.store s'.store := by
  induction xs generalizing s with
  | nil => exact Law.pure fun _ => ⟨fun _ _ => rfl, by simp⟩
  | cons x xs ih =>
    have hs := hstep.advances.ready hs₀
    have hx := hxs x (by simp)
    have hsize := hstep.advances.store.size_ints
    have hindex {y : IntVar} (hy : y ∈ terms) : y.index < s.store.ints.size :=
      hsize ▸ (hterms y hy).exists_var
    show Law δ _ (cutUpper _ x >>= fun _ => xs.forM _) s _
    refine Law.bind (P := fun _ s' => s.store.Narrows s'.store ∧ s'.Ready ∧
      ((Propagator.linearAtMost terms bound).Oriented →
        Cut terms (bound - IntVar.edges s₀.store.box .lower terms) [x] s.store s'.store)) ?_ ?_
    · unfold cutUpper
      refine (Law.reading (IntVar.yields_bound hs.sound (hindex hx) .lower)).bind ?_
      rintro l s₁ - ⟨rfl, rfl, hcl⟩
      refine (Law.restrict hs (hindex hx) (hterms x hx).proper fun F hF hC hle => ?_).bind ?_
      · refine (IntVar.restricted_atMost (hF.canonical _)).2 ?_
        exact upper_le_of_stable hs.sound hs₀.sound hC hF
          (hstep.advances.store.within_of_within hle) hstep.advances.store
          (fun y hy => (hterms y hy).exists_var) hx hcl.fits hslack
      · rintro event s₂ hstep₂ ⟨hcut, -, hpull⟩
        refine Law.pure ⟨hcut.narrows, hstep₂.advances.ready hs, fun horiented => ⟨?_, ?_⟩⟩
        · intro y hy
          exact IntVar.extreme_of_setUpper hs.sound hcut (hindex hx) y .lower
            fun h => horiented y hy x hx h
        · intro y hy
          obtain rfl := List.mem_singleton.1 hy
          exact ⟨hpull, (IntVar.restricted_atMost (hcut.sound.box.canonical _)).1 hcut.holds⟩
    · rintro - s₁ hstep₁ ⟨hn₁, hs₁, hcut₁⟩
      refine (ih (fun y hy => hxs y (by simp [hy])) (hstep.trans hstep₁)).mono ?_
      intro _ s' hstep' hcut horiented
      obtain ⟨hlower₁, hupper₁⟩ := hcut₁ horiented
      obtain ⟨hlower, hupper⟩ := hcut horiented
      refine ⟨fun y hy => (hlower y hy).trans (hlower₁ y hy), ?_⟩
      refine List.forall_mem_cons.2 ⟨⟨(hupper₁ x (by simp)).1, ?_⟩, fun y hy => ?_⟩
      · refine le_trans ?_ (hupper₁ x (by simp)).2
        exact IntVar.edge_upper_mono ((hstep'.advances.ready hs₁).sound.box.canonical _)
          (hs₁.sound.box.canonical _)
          (hstep'.advances.store.within.ints _ (hn₁.size_ints ▸ hindex hx))
      · have hedge : y.edge s₁.store.box .lower = y.edge s.store.box .lower :=
          congrArg y.eval (hlower₁ y (hxs y (by simp [hy])))
        rw [← hedge]
        exact hupper y hy

theorem runAtMost_law {bound : Int} (hs : s.Ready) (hterms : ∀ x ∈ terms, x.Admissible δ s.store) :
    Law δ (Propagator.linearAtMost terms bound).Stable (runAtMost terms bound) s
      fun verdict s' => (Propagator.linearAtMost terms bound).Concludes s'.store verdict := by
  unfold runAtMost
  refine (Law.reading (yields_sum hs.sound (fun x hx => (hterms x hx).exists_var) .lower)).bind ?_
  rintro lowers s₀ - ⟨rfl, rfl, hclower⟩
  by_cases hslack : bound - IntVar.edges s₀.store.box .lower terms < 0
  · rw [if_pos hslack]
    refine Law.bind (P := fun _ _ => False) (Law.throw fun F hF hC hle => ?_) fun _ _ _ h => h.elim
    have hmono := edges_lower_mono hF hs.sound hle fun x hx => (hterms x hx).exists_var
    have := hC.1
    omega
  · rw [if_neg hslack]
    refine (cutAll_law hs hterms (by omega) (fun _ hx => hx) (Step.refl _ s₀)).bind ?_
    rintro - s₁ hstep hcut
    have hs₁ := hstep.advances.ready hs
    have hn := hstep.advances.store
    have hindex : ∀ x ∈ terms, x.index < s₁.store.ints.size := fun x hx =>
      hn.size_ints ▸ (hterms x hx).exists_var
    refine (Law.reading (yields_sum hs₁.sound hindex .upper)).bind ?_
    rintro uppers s₂ - ⟨rfl, rfl, hcupper⟩
    refine Law.pure ?_
    split
    · -- Even the greatest values are small enough.
      rename_i hle
      intro F hF hwithin
      have hlower := IntVar.edges_lower_le_upper hF terms
      have hupper := edges_upper_mono hF hs₁.sound hwithin hindex
      refine ⟨by omega, fun x hx => ⟨?_, ?_⟩⟩
      · have hfits := (hcupper x hx).fits.2
        exact (IntVar.edge_upper_mono (hF.canonical _) (hs₁.sound.box.canonical _)
          (hwithin.ints _ (hindex x hx))).trans hfits
      · have := IntVar.edges_sub_lower_le hF hx
        omega
    · rename_i hnot
      intro horiented
      obtain ⟨hlower, hupper⟩ := hcut horiented
      have hkept : ∀ x ∈ terms, x.edge s₂.store.box .lower = x.edge s₀.store.box .lower :=
        fun x hx => congrArg x.eval (hlower x hx)
      refine ⟨fun x hx side => ?_, ?_, fun x hx => ?_, by omega⟩
      · cases side with
        | lower =>
          rw [hlower x hx]
          exact hclower x hx
        | upper => exact hcupper x hx
      · rw [IntVar.edges_congr hkept]
        omega
      · rw [IntVar.edges_congr hkept, hkept x hx]
        exact hupper x hx

/-! ### Equations -/

/-- What a term of an equation has to be within, given the bounds of all terms. -/
structure Tight (total : Int) (terms : List IntVar) (x : IntVar) (s : Store) : Prop where
  canPull_upper : x.CanPull .atMost
    (Word.clamp (total - (IntVar.edges s.box .lower terms - x.edge s.box .lower)))
  upper : x.edge s.box .upper ≤
    Word.clamp (total - (IntVar.edges s.box .lower terms - x.edge s.box .lower))
  canPull_lower : x.CanPull .atLeast
    (Word.clamp (total - (IntVar.edges s.box .upper terms - x.edge s.box .upper)))
  lower : Word.clamp (total - (IntVar.edges s.box .upper terms - x.edge s.box .upper)) ≤
    x.edge s.box .lower

/-- The bounds of the terms of a stable box are what the other terms leave of the total. -/
theorem tight_of_stable {F : Box} {total : Int} {s s₀ : Store} (hs : s.Sound) (hs₀ : s₀.Sound)
    (h : (Propagator.linearEqual terms total).Stable F) (hF : F.Sound) (hle : F.Within s)
    (hn : s₀.Narrows s) (hterms : ∀ x ∈ terms, x.index < s₀.ints.size) (hx : x ∈ terms)
    (hread : x.Readable s) :
    x.edge F .upper ≤ Word.clamp
        (total - (IntVar.edges s₀.box .lower terms - x.edge s.box .lower)) ∧
      Word.clamp (total - (IntVar.edges s₀.box .upper terms - x.edge s.box .upper)) ≤
        x.edge F .lower := by
  have hle₀ := hn.within_of_within hle
  have hl := IntVar.edges_sub_le hx fun y hy =>
    IntVar.edge_lower_mono (hF.canonical _) (hs₀.box.canonical _) (hle₀.ints _ (hterms y hy))
  have hu := IntVar.edges_sub_le hx fun y hy =>
    IntVar.edge_upper_mono (hF.canonical _) (hs₀.box.canonical _) (hle₀.ints _ (hterms y hy))
  have hindex : x.index < s.ints.size := hn.size_ints ▸ hterms x hx
  have hxl := IntVar.edge_lower_mono (hF.canonical x.index) (hs.box.canonical _)
    (hle.ints _ hindex)
  have hxu := IntVar.edge_upper_mono (hF.canonical x.index) (hs.box.canonical _)
    (hle.ints _ hindex)
  have hl₀ := IntVar.edge_lower_mono (hs.box.canonical x.index) (hs₀.box.canonical _)
    (hn.within.ints _ (hterms x hx))
  have hu₀ := IntVar.edge_upper_mono (hs.box.canonical x.index) (hs₀.box.canonical _)
    (hn.within.ints _ (hterms x hx))
  have hfl : Word.Fits (x.edge s.box .lower) := (hread .lower).fits
  have hfu : Word.Fits (x.edge s.box .upper) := (hread .upper).fits
  obtain ⟨hcutUpper, hcutLower⟩ := h.2.2 x hx
  unfold Word.Fits Word.clamp Word.least Word.greatest at *
  omega

theorem tightenTerm_law {total : Int} (hs₀ : s₀.Ready)
    (hterms : ∀ x ∈ terms, x.Admissible δ s₀.store)
    (hread : ∀ x ∈ terms, x.Readable s₀.store) (hx : x ∈ terms)
    (hstep : Step (Propagator.linearEqual terms total).Stable s₀ s) :
    Law δ (Propagator.linearEqual terms total).Stable
      (tightenTerm total (IntVar.edges s₀.store.box .lower terms)
        (IntVar.edges s₀.store.box .upper terms) x) s fun changed s' =>
      if changed = true then
        (s'.store.box.ints x.index).size < (s.store.box.ints x.index).size
      else s' = s ∧ (s = s₀ → Tight total terms x s.store) := by
  have hs := hstep.advances.ready hs₀
  have hn := hstep.advances.store
  have hindex : x.index < s.store.ints.size := hn.size_ints ▸ (hterms x hx).exists_var
  have hreads := (hread x hx).of_evolves hs₀.sound hs.sound hn.evolves
    (hterms x hx).exists_var
  have hstable {F : Box} (hC : (Propagator.linearEqual terms total).Stable F) (hF : F.Sound)
      (hle : F.Within s.store) := tight_of_stable hs.sound hs₀.sound hC hF hle hn
    (fun y hy => (hterms y hy).exists_var) hx hreads
  unfold tightenTerm
  refine (Law.reading (IntVar.yields_bound hs.sound hindex .lower)).bind ?_
  rintro l s₁ - ⟨rfl, rfl, -⟩
  refine (Law.reading (IntVar.yields_bound hs.sound hindex .upper)).bind ?_
  rintro u s₂ - ⟨rfl, rfl, -⟩
  refine (Law.restrict hs hindex (hterms x hx).proper fun F hF hC hle => ?_).bind ?_
  · exact (IntVar.restricted_atMost (hF.canonical _)).2 (hstable hC hF hle).1
  rintro event s₃ hstep₃ ⟨hcut₃, hsame₃, hpull₃⟩
  have hs₃ := hstep₃.advances.ready hs
  have hindex₃ : x.index < s₃.store.ints.size := hcut₃.narrows.size_ints ▸ hindex
  refine (Law.restrict hs₃ hindex₃ (hterms x hx).proper fun F hF hC hle => ?_).bind ?_
  · exact (IntVar.restricted_atLeast (hF.canonical _)).2
      (hstable hC hF (hcut₃.narrows.within_of_within hle)).2
  rintro event' s₄ hstep₄ ⟨hcut₄, hsame₄, hpull₄⟩
  have hsize₃ := (hs.sound.box.canonical x.index).size_le (hs₃.sound.box.canonical _)
    (hcut₃.narrows.within.ints _ hindex)
  have hsize₄ := (hs₃.sound.box.canonical x.index).size_le (hcut₄.sound.box.canonical _)
    (hcut₄.narrows.within.ints _ hindex₃)
  refine Law.pure ?_
  cases hm₃ : event.isModified with
  | true =>
    have := hcut₃.smaller_int hm₃ _ rfl
    rw [Bool.true_or, if_pos rfl]
    omega
  | false =>
    have heq₃ := hsame₃ hm₃
    subst heq₃
    rw [Bool.false_or]
    cases hm₄ : event'.isModified with
    | true =>
      rw [if_pos rfl]
      exact hcut₄.smaller_int hm₄ _ rfl
    | false =>
      have heq₄ := hsame₄ hm₄
      subst heq₄
      rw [if_neg (by decide)]
      refine ⟨rfl, fun heq => ?_⟩
      subst heq
      exact ⟨hpull₃, (IntVar.restricted_atMost (hs.sound.box.canonical _)).1 hcut₃.holds, hpull₄,
        (IntVar.restricted_atLeast (hs.sound.box.canonical _)).1 hcut₄.holds⟩

theorem values_eq {s : Store} (h : ∀ x ∈ terms, x.index < s.ints.size) :
    values s terms = total (fun x => (s.box.ints x.index).size) terms := by
  unfold values
  induction terms with
  | nil => rfl
  | cons x xs ih =>
    have hget := Table.fetch_eq_ok.1 (Store.int_of_lt (h x (by simp)))
    rw [total_cons, total_cons, ih fun y hy => h y (by simp [hy]), hget]
    rfl

/-- The values of the terms get fewer, and strictly fewer if some term gets smaller. -/
theorem values_mono {s s' : Store} (hs : s.Sound) (hs' : s'.Sound) (hn : s.Narrows s')
    (h : ∀ x ∈ terms, x.index < s.ints.size) :
    values s' terms ≤ values s terms ∧
      (∀ x ∈ terms, (s'.box.ints x.index).size < (s.box.ints x.index).size →
        values s' terms < values s terms) := by
  rw [values_eq h, values_eq fun x hx => hn.size_ints ▸ h x hx]
  have hle : ∀ x ∈ terms, (s'.box.ints x.index).size ≤ (s.box.ints x.index).size := fun x hx =>
    (hs.box.canonical _).size_le (hs'.box.canonical _) (hn.within.ints _ (h x hx))
  clear h
  induction terms with
  | nil => exact ⟨le_rfl, by simp⟩
  | cons y ys ih =>
    obtain ⟨ihle, ihlt⟩ := ih fun x hx => hle x (by simp [hx])
    have := hle y (by simp)
    rw [total_cons, total_cons]
    refine ⟨by omega, fun x hx hlt => ?_⟩
    rcases List.mem_cons.1 hx with rfl | hx
    · omega
    · have := ihlt x hx hlt
      omega

/-- What a pass over `xs` comes to: if it reports no change, the state is as it was, and the terms
are tight with respect to it. -/
def Passed (total : Int) (terms xs : List IntVar) (s₀ s : State) (before after : Bool)
    (s' : State) : Prop :=
  if after = true then before = true ∨ values s'.store terms < values s.store terms
  else before = false ∧ s' = s ∧ (s = s₀ → ∀ x ∈ xs, Tight total terms x s.store)

theorem pass_law {total : Int} (hs₀ : s₀.Ready)
    (hterms : ∀ x ∈ terms, x.Admissible δ s₀.store)
    (hread : ∀ x ∈ terms, x.Readable s₀.store) (hxs : ∀ x ∈ xs, x ∈ terms) (before : Bool)
    (hstep : Step (Propagator.linearEqual terms total).Stable s₀ s) :
    Law δ (Propagator.linearEqual terms total).Stable
      (xs.foldlM (fun changed x => return changed || (← tightenTerm total
        (IntVar.edges s₀.store.box .lower terms) (IntVar.edges s₀.store.box .upper terms) x))
        before) s fun after s' => Passed total terms xs s₀ s before after s' := by
  induction xs generalizing s before with
  | nil =>
    refine Law.pure ?_
    cases before with
    | true => exact .inl rfl
    | false => exact ⟨rfl, rfl, by simp⟩
  | cons x xs ih =>
    have hs := hstep.advances.ready hs₀
    have hx := hxs x (by simp)
    have hindex : ∀ y ∈ terms, y.index < s.store.ints.size := fun y hy =>
      hstep.advances.store.size_ints ▸ (hterms y hy).exists_var
    rw [List.foldlM_cons]
    refine Law.bind (P := fun between s' => Passed total terms [x] s₀ s before between s') ?_ ?_
    · refine (tightenTerm_law hs₀ hterms hread hx hstep).bind ?_
      intro changed s₁ hstep₁ h
      refine Law.pure ?_
      have hvalues := values_mono hs.sound (hstep₁.advances.ready hs).sound hstep₁.advances.store
        hindex
      cases changed with
      | true =>
        rw [if_pos rfl] at h
        unfold Passed
        rw [Bool.or_true, if_pos rfl]
        exact .inr (hvalues.2 x hx h)
      | false =>
        rw [if_neg (by decide)] at h
        unfold Passed
        rw [Bool.or_false]
        cases before with
        | true => exact .inl rfl
        | false => exact ⟨rfl, h.1, fun heq => List.forall_mem_singleton.2 (h.2 heq)⟩
    · intro between s₁ hstep₁ hbetween
      refine (ih (fun y hy => hxs y (by simp [hy])) between (hstep.trans hstep₁)).mono ?_
      intro after s' hstep' hafter
      have hs₁ := hstep₁.advances.ready hs
      have hvalues₁ := values_mono hs.sound hs₁.sound hstep₁.advances.store hindex
      have hvalues' := values_mono hs₁.sound (hstep'.advances.ready hs₁).sound
        hstep'.advances.store fun y hy => hstep₁.advances.store.size_ints ▸ hindex y hy
      unfold Passed at hbetween hafter ⊢
      cases after with
      | true =>
        rw [if_pos rfl] at hafter ⊢
        rcases hafter with rfl | hlt
        · rw [if_pos rfl] at hbetween
          rcases hbetween with h | hlt
          · exact .inl h
          · exact .inr (by omega)
        · exact .inr (by omega)
      | false =>
        rw [if_neg (by decide)] at hafter ⊢
        obtain ⟨rfl, rfl, htight'⟩ := hafter
        rw [if_neg (by decide)] at hbetween
        obtain ⟨rfl, rfl, htight⟩ := hbetween
        exact ⟨rfl, rfl, fun heq => List.forall_mem_cons.2
          ⟨htight heq x (by simp), htight' heq⟩⟩

/-- The terms can be read, the total lies between the sums of their bounds, and each of them is
tight. -/
structure Settled (total : Int) (terms : List IntVar) (s : Store) : Prop where
  readable : ∀ x ∈ terms, x.Readable s
  lowers : IntVar.edges s.box .lower terms ≤ total
  uppers : total ≤ IntVar.edges s.box .upper terms
  tight : ∀ x ∈ terms, Tight total terms x s

theorem tighten_law {total : Int} (hs : s.Ready) (hterms : ∀ x ∈ terms, x.Admissible δ s.store) :
    Law δ (Propagator.linearEqual terms total).Stable (tighten terms total) s fun changed s' =>
      if changed = true then values s'.store terms < values s.store terms
      else s' = s ∧ Settled total terms s.store := by
  have hindex : ∀ x ∈ terms, x.index < s.store.ints.size := fun x hx => (hterms x hx).exists_var
  unfold tighten
  refine (Law.reading (yields_sums hs.sound hindex)).bind ?_
  rintro r s₀ - ⟨rfl, rfl, hread⟩
  dsimp only
  split
  · rename_i hconflict
    refine Law.bind (P := fun _ _ => False) (Law.throw fun F hF hC hle => ?_) fun _ _ _ h => h.elim
    have := edges_lower_mono hF hs.sound hle hindex
    have := edges_upper_mono hF hs.sound hle hindex
    have := hC.1
    have := hC.2.1
    omega
  · rename_i hconflict
    refine (pass_law hs hterms hread (fun _ hx => hx) false (Step.refl _ s₀)).mono ?_
    intro changed s' _ h
    unfold Passed at h
    cases changed with
    | true =>
      rw [if_pos rfl] at h ⊢
      exact h.resolve_left (by decide)
    | false =>
      rw [if_neg (by decide)] at h ⊢
      exact ⟨h.2.1, hread, by omega, by omega, h.2.2 rfl⟩

theorem tightenAll_law {total : Int} (hs : s.Ready)
    (hterms : ∀ x ∈ terms, x.Admissible δ s.store) {passes : Nat}
    (hpasses : values s.store terms < passes) :
    Law δ (Propagator.linearEqual terms total).Stable (tightenAll terms total passes) s
      fun _ s' => Settled total terms s'.store := by
  induction passes generalizing s with
  | zero => omega
  | succ passes ih =>
    unfold tightenAll
    refine (tighten_law hs hterms).bind ?_
    intro changed s' hstep h
    cases changed with
    | true =>
      rw [if_pos rfl] at h ⊢
      refine ih (hstep.advances.ready hs) (fun x hx => ?_) (by omega)
      exact (hterms x hx).of_size_le hstep.advances.store.size_ints.ge
    | false =>
      rw [if_neg (by decide)] at h ⊢
      obtain ⟨rfl, hsettled⟩ := h
      exact Law.pure hsettled

theorem allFixed_law {C : Box → Prop} (hs : s.Ready)
    (hterms : ∀ x ∈ terms, x.index < s.store.ints.size) :
    Law δ C (terms.allM fun x => reading x.isFixed) s fun fixed s' => s' = s ∧
      fixed = !terms.any (IntVar.isOpen s.store.box) := by
  induction terms with
  | nil => exact Law.pure ⟨rfl, rfl⟩
  | cons x xs ih =>
    unfold List.allM
    refine (Law.reading (IntVar.yields_isFixed hs.sound (hterms x (by simp)))).bind ?_
    rintro fixed s₁ - ⟨rfl, rfl, -⟩
    rw [List.any_cons]
    unfold IntVar.isOpen
    cases hx : x.fixedAt s₁.store.box with
    | none => exact Law.pure ⟨rfl, rfl⟩
    | some v => exact ih fun y hy => hterms y (by simp [hy])

/-- An equation between fixed terms holds from now on. -/
theorem Settled.stable {total : Int} {s : Store} (h : Settled total terms s) (hs : s.Sound)
    (hterms : ∀ x ∈ terms, x.index < s.ints.size)
    (hfixed : ∀ x ∈ terms, x.isOpen s.box = false) {F : Box} (hF : F.Sound) (hle : F.Within s) :
    (Propagator.linearEqual terms total).Stable F := by
  have hedge (side side' : Side) : ∀ x ∈ terms, x.edge F side = x.edge s.box side' := by
    intro x hx
    have hopen := hfixed x hx
    unfold IntVar.isOpen at hopen
    cases hv : x.fixedAt s.box with
    | none =>
      rw [hv] at hopen
      cases hopen
    | some v =>
      have hvF := IntVar.fixedAt_of_le (hF.canonical _) (hs.box.canonical _)
        (hle.ints _ (hterms x hx)) hv
      obtain ⟨hl, hu⟩ := IntVar.fixedAt_eq_some.1 hv
      obtain ⟨hlF, huF⟩ := IntVar.fixedAt_eq_some.1 hvF
      cases side <;> cases side' <;> omega
  have hsum (side side' : Side) : IntVar.edges F side terms = IntVar.edges s.box side' terms :=
    le_antisymm (IntVar.edges_le fun x hx => (hedge side side' x hx).le)
      (IntVar.edges_le fun x hx => (hedge side side' x hx).ge)
  have hlowers := h.lowers
  have huppers := h.uppers
  have h₁ := hsum .lower .lower
  have h₂ := hsum .lower .upper
  have h₃ := hsum .upper .upper
  refine ⟨by omega, by omega, fun x hx => ?_⟩
  have := hedge .lower .lower x hx
  have := hedge .upper .lower x hx
  exact ⟨by omega, by omega⟩

theorem runEqual_law {total : Int} (hs : s.Ready)
    (hterms : ∀ x ∈ terms, x.Admissible δ s.store) :
    Law δ (Propagator.linearEqual terms total).Stable (runEqual terms total) s
      fun verdict s' => (Propagator.linearEqual terms total).Concludes s'.store verdict := by
  unfold runEqual
  show Law δ _ (tightenAll terms total (values s.store terms + 1) >>= _) s _
  refine (tightenAll_law hs hterms (Nat.lt_succ_self _)).bind ?_
  intro _ s₁ hstep hsettled
  have hs₁ := hstep.advances.ready hs
  have hindex : ∀ x ∈ terms, x.index < s₁.store.ints.size := fun x hx =>
    hstep.advances.store.size_ints ▸ (hterms x hx).exists_var
  refine (allFixed_law hs₁ hindex).bind ?_
  rintro fixed s₂ - ⟨rfl, hfixed⟩
  refine Law.pure ?_
  cases hany : terms.any (IntVar.isOpen s₂.store.box) with
  | true =>
    rw [hany] at hfixed
    subst hfixed
    intro _
    obtain ⟨x, hx, hopen⟩ := List.any_eq_true.1 hany
    refine ⟨hsettled.readable, ⟨hsettled.lowers, hsettled.uppers⟩, fun y hy => ?_, x, hx, hopen⟩
    obtain ⟨h₁, h₂, h₃, h₄⟩ := hsettled.tight y hy
    exact ⟨⟨h₁, h₂⟩, h₃, h₄⟩
  | false =>
    rw [hany] at hfixed
    subst hfixed
    intro F hF hle
    refine hsettled.stable hs₁.sound hindex (fun x hx => ?_) hF hle
    simpa using List.any_eq_false.1 hany x hx

end Linear

end ConstraintSearch
