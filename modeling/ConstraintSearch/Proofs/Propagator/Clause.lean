import ConstraintSearch.Proofs.Propagator.AllDifferent

/-!
# The law of clauses

A clause with a true literal holds. A clause without one keeps waiting as long as two literals are
open; the last open one has to be true.
-/

namespace ConstraintSearch.Clause

open Propagation

variable {δ : Prop} {s : State} {literals : List IntVar}

/-- Whether one of the literals is true. -/
theorem anyTrue_law {C : Box → Prop} (hs : s.Ready)
    (h : ∀ x ∈ literals, x.index < s.store.ints.size) :
    Law δ C (literals.anyM fun x => return (← reading x.value?) = some 1) s fun satisfied s' =>
      s' = s ∧ if satisfied = true then ∃ x ∈ literals, x.fixedAt s.store.box = some 1
        else ∀ x ∈ literals, x.Readable s.store ∧ x.fixedAt s.store.box ≠ some 1 := by
  induction literals with
  | nil => exact Law.pure ⟨rfl, by simp⟩
  | cons x xs ih =>
    unfold List.anyM
    refine Law.bind (P := fun b s' => s' = s ∧ b = decide (x.fixedAt s.store.box = some 1) ∧
      x.Readable s.store) ?_ ?_
    · refine (Law.reading (IntVar.yields_value? hs.sound (h x (by simp)))).bind ?_
      rintro o s₁ - ⟨rfl, rfl, hread⟩
      exact Law.pure ⟨rfl, rfl, hread⟩
    · rintro b s₁ - ⟨rfl, rfl, hread⟩
      by_cases hx : x.fixedAt s₁.store.box = some 1
      · rw [decide_eq_true hx]
        exact Law.pure ⟨rfl, x, by simp, hx⟩
      · rw [decide_eq_false hx]
        refine (ih fun y hy => h y (by simp [hy])).mono ?_
        rintro satisfied s₂ - ⟨rfl, hrest⟩
        refine ⟨rfl, ?_⟩
        cases satisfied with
        | true =>
          obtain ⟨y, hy, hv⟩ := hrest
          exact ⟨y, by simp [hy], hv⟩
        | false => exact List.forall_mem_cons.2 ⟨⟨hread, hx⟩, hrest⟩

/-- A stable box with at most one open literal in a store has a true literal, which is open in the
store. -/
theorem exists_true_of_stable {F : Box} {s : Store} (hs : s.Sound) (hF : F.Sound)
    (hle : F.Within s) (hindex : ∀ x ∈ literals, x.index < s.ints.size)
    (hfalse : ∀ x ∈ literals, x.fixedAt s.box ≠ some 1)
    (hcount : literals.countP (IntVar.isOpen s.box) < 2)
    (h : (Propagator.clause literals).Stable F) :
    ∃ x ∈ literals.filter (IntVar.isOpen s.box), x.fixedAt F = some 1 := by
  have hopen : ∀ x ∈ literals, x.isOpen F = true → x.isOpen s.box = true := fun x hx =>
    IntVar.isNone_fixedAt_of_le (hF.canonical _) (hs.box.canonical _) (hle.ints _ (hindex x hx))
  rcases h with ⟨x, hx, hv⟩ | h
  · refine ⟨x, List.mem_filter.2 ⟨hx, ?_⟩, hv⟩
    unfold IntVar.isOpen
    cases hs' : x.fixedAt s.box with
    | none => rfl
    | some v =>
      have := IntVar.fixedAt_of_le (hF.canonical _) (hs.box.canonical _)
        (hle.ints _ (hindex x hx)) hs'
      rw [hv] at this
      exact absurd (hs'.trans this.symm) (hfalse x hx)
  · have := List.countP_mono_left hopen
    omega

theorem run_law (hs : s.Ready) (hw : ∀ x ∈ literals, x.Admissible δ s.store) :
    Law δ (Propagator.clause literals).Stable (run literals) s
      fun verdict s' => (Propagator.clause literals).Concludes s'.store verdict := by
  have hindex : ∀ x ∈ literals, x.index < s.store.ints.size := fun x hx => (hw x hx).exists_var
  unfold run
  refine (anyTrue_law hs hindex).bind ?_
  rintro satisfied s₁ - ⟨rfl, hsatisfied⟩
  cases satisfied with
  | true =>
    rw [if_pos rfl] at hsatisfied ⊢
    obtain ⟨x, hx, hv⟩ := hsatisfied
    refine Law.pure fun F hF hle => .inl ⟨x, hx, ?_⟩
    exact IntVar.fixedAt_of_le (hF.canonical _) (hs.sound.box.canonical _)
      (hle.ints _ (hindex x hx)) hv
  | false =>
    rw [if_neg (by decide)] at hsatisfied ⊢
    refine (Law.reading (yields_firstOpen hs.sound hindex 2)).bind ?_
    rintro first s₂ - ⟨rfl, hfirst⟩
    match first with
    | [] =>
      have hnone := AllDifferent.eq_of_take_eq hfirst.symm (by simp)
      refine Law.throw fun F hF hC hle => ?_
      obtain ⟨x, hx, -⟩ := exists_true_of_stable hs.sound hF hle hindex
        (fun x hx => (hsatisfied x hx).2)
        (by rw [List.countP_eq_length_filter, hnone]; simp) hC
      rw [hnone] at hx
      cases hx
    | [unit] =>
      have hone := AllDifferent.eq_of_take_eq hfirst.symm (by simp)
      have hunit : unit ∈ literals := by
        have : unit ∈ literals.filter (IntVar.isOpen s₂.store.box) := by simp [hone]
        exact (List.mem_filter.1 this).1
      refine (Law.restrict hs (hindex unit hunit) (hw unit hunit).proper
        fun F hF hC hle => ?_).bind ?_
      · obtain ⟨x, hx, hv⟩ := exists_true_of_stable hs.sound hF hle hindex
          (fun x hx => (hsatisfied x hx).2)
          (by rw [List.countP_eq_length_filter, hone]; simp) hC
        rw [hone, List.mem_singleton] at hx
        subst hx
        exact (IntVar.fixedAt_eq_some_iff (hF.canonical _)).1 hv
      · rintro event s₃ hstep ⟨hnarrowed, -, -⟩
        refine Law.pure fun F hF hle => .inl ⟨unit, hunit, ?_⟩
        refine (IntVar.fixedAt_eq_some_iff (hF.canonical _)).2 fun u hu => ?_
        exact hnarrowed.holds u (hle.ints _ (hnarrowed.narrows.size_ints ▸ hindex unit hunit) u hu)
    | a :: b :: rest =>
      refine Law.pure fun _ =>
        ⟨fun x hx => (hsatisfied x hx).1, fun x hx => (hsatisfied x hx).2, ?_⟩
      have hlength := congrArg List.length hfirst
      rw [List.length_take] at hlength
      rw [List.countP_eq_length_filter]
      have : 2 ≤ (a :: b :: rest).length := by simp
      omega

end ConstraintSearch.Clause
