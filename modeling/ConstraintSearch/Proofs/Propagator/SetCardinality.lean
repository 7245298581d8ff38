import ConstraintSearch.Proofs.Propagator.Clause

/-!
# The law of the cardinality of a set

Bounds are exchanged until the set no longer changes. The bounds that the set has then are not
looser than those of the variable; but they may be closer, since the variable may have taken a
bound of the set and then have skipped a hole.
-/

namespace ConstraintSearch.SetCardinality

open Propagation

variable {δ : Prop} {s : State} {set : Nat} {x : IntVar}

/-- The variable can be read, and the set bounds it. -/
structure Bounded (set : Nat) (x : IntVar) (s : Store) : Prop where
  readable : x.Readable s
  proper : x.Proper
  lower : ((s.box.sets set).cardMin : Int) ≤ x.edge s.box .lower
  upper : x.edge s.box .upper ≤ (s.box.sets set).cardMax

theorem exchange_law (hs : s.Ready) (hset : set < s.store.sets.size)
    (hx : x.Admissible δ s.store) :
    Law δ (Propagator.setCardinality set x).Stable (exchange set x) s fun changed s' =>
      if changed = true then
        (s'.store.box.sets set).freedom < (s.store.box.sets set).freedom
      else Bounded set x s'.store := by
  unfold exchange
  refine (Law.reading (IntVar.yields_bound hs.sound hx.exists_var .lower)).bind ?_
  rintro l s₁ - ⟨rfl, rfl, hcl⟩
  refine (Law.reading (IntVar.yields_bound hs.sound hx.exists_var .upper)).bind ?_
  rintro u s₂ - ⟨rfl, rfl, hcu⟩
  refine (Law.setCardinality hs hset fun F hF hC hle => ?_).bind ?_
  · have hl := IntVar.edge_lower_mono (hF.canonical x.index) (hs.sound.box.canonical _)
      (hle.ints _ hx.exists_var)
    have hu := IntVar.edge_upper_mono (hF.canonical x.index) (hs.sound.box.canonical _)
      (hle.ints _ hx.exists_var)
    obtain ⟨hmin, hmax⟩ := hC
    exact ⟨by omega, by omega⟩
  rintro event s₃ hstep₃ ⟨hcard, -, -⟩
  have hs₃ := hstep₃.advances.ready hs
  have hx₃ : x.index < s₃.store.ints.size := hcard.narrows.size_ints ▸ hx.exists_var
  have hset₃ : set < s₃.store.sets.size := hcard.narrows.size_sets ▸ hset
  refine (Law.reading (Store.yields_set hset₃)).bind ?_
  rintro d s₄ - ⟨rfl, rfl⟩
  refine (Law.restrict hs₃ hx₃ hx.proper fun F hF hC hle => ?_).bind ?_
  · refine (IntVar.restricted_atLeast (hF.canonical _)).2 ?_
    have := (hle.sets set hset₃).2.2.1
    have := hC.1
    omega
  rintro event' s₅ hstep₅ ⟨hlower, -, hpull⟩
  have hs₅ := hstep₅.advances.ready hs₃
  have hx₅ : x.index < s₅.store.ints.size := hlower.narrows.size_ints ▸ hx₃
  have hset₅ : set < s₅.store.sets.size := hlower.narrows.size_sets ▸ hset₃
  have hsame₅ : s₅.store.box.sets set = s₄.store.box.sets set :=
    hlower.other_sets set fun h => by cases h
  refine (Law.restrict hs₅ hx₅ hx.proper fun F hF hC hle => ?_).bind ?_
  · refine (IntVar.restricted_atMost (hF.canonical _)).2 ?_
    have := (hle.sets set hset₅).2.2.2
    rw [hsame₅] at this
    have := hC.2
    omega
  rintro event'' s₆ hstep₆ ⟨hupper, -, -⟩
  have hs₆ := hstep₆.advances.ready hs₅
  have hsame₆ : s₆.store.box.sets set = s₄.store.box.sets set :=
    (hupper.other_sets set fun h => by cases h).trans hsame₅
  refine Law.pure ?_
  cases hm : event.isModified with
  | true =>
    rw [if_pos rfl, hsame₆]
    exact hcard.smaller_set hm set rfl
  | false =>
    rw [if_neg (by decide)]
    have hread : x.Readable s₂.store := fun side => by cases side <;> assumption
    have hnarrows := (hcard.narrows.trans hlower.narrows).trans hupper.narrows
    refine ⟨hread.of_evolves hs.sound hs₆.sound hnarrows.evolves hx.exists_var,
      hpull.proper (.inr rfl), ?_, ?_⟩
    · rw [hsame₆]
      have hl := (IntVar.restricted_atLeast (hs₅.sound.box.canonical _)).1 hlower.holds
      exact hl.trans (IntVar.edge_lower_mono (hs₆.sound.box.canonical x.index)
        (hs₅.sound.box.canonical _) (hupper.narrows.within.ints _ hx₅))
    · rw [hsame₆]
      exact (IntVar.restricted_atMost (hs₆.sound.box.canonical _)).1 hupper.holds

theorem exchangeAll_law {passes : Nat} (hs : s.Ready) (hset : set < s.store.sets.size)
    (hx : x.Admissible δ s.store) (hpasses : (s.store.box.sets set).freedom < passes) :
    Law δ (Propagator.setCardinality set x).Stable (exchangeAll set x passes) s
      fun _ s' => Bounded set x s'.store := by
  induction passes generalizing s with
  | zero => omega
  | succ passes ih =>
    unfold exchangeAll
    refine (exchange_law hs hset hx).bind ?_
    intro changed s' hstep h
    have hn := hstep.advances.store
    cases changed with
    | true =>
      rw [if_pos rfl] at h ⊢
      exact ih (hstep.advances.ready hs) (hn.size_sets ▸ hset) (hx.of_size_le hn.size_ints.ge)
        (by omega)
    | false => exact Law.pure h

/-- There are as many passes as the domain has freedom, and one more. -/
theorem run_eq {d : SetDomain} (h : s.store.sets.get? set = some d) :
    run set x s = (do
      exchangeAll set x (d.freedom + 1)
      let d ← reading (·.set set)
      return if d.isAssigned then .subsumed else .fix : Propagation (Verdict Propagator)) s := by
  have hget : (get : Propagation State) s = .ok (.ok s, s) := rfl
  unfold run
  rw [bind_of_ok hget, h]

theorem run_law (hs : s.Ready) (hset : set < s.store.sets.size) (hx : x.Admissible δ s.store) :
    Law δ (Propagator.setCardinality set x).Stable (run set x) s
      fun verdict s' => (Propagator.setCardinality set x).Concludes s'.store verdict := by
  have hget := Table.fetch_eq_ok.1 (Store.set_of_lt hset)
  unfold Law
  rw [run_eq hget]
  refine (exchangeAll_law hs hset hx (Nat.lt_succ_self _)).bind ?_
  intro _ s₁ hstep hbounded
  have hs₁ := hstep.advances.ready hs
  have hn := hstep.advances.store
  have hset₁ : set < s₁.store.sets.size := hn.size_sets ▸ hset
  have hx₁ : x.index < s₁.store.ints.size := hn.size_ints ▸ hx.exists_var
  refine (Law.reading (Store.yields_set hset₁)).bind ?_
  rintro d s₂ - ⟨rfl, rfl⟩
  refine Law.pure ?_
  cases ha : (s₂.store.box.sets set).isAssigned with
  | true =>
    intro F hF hle
    have hexactly := (hs₁.sound.box.normal set).eq_exactly ha
    have hcard : (s₂.store.box.sets set).cardMin = (s₂.store.box.sets set).cardMax := by
      rw [hexactly]
      rfl
    have hl := IntVar.edge_lower_mono (hF.canonical x.index) (hs₁.sound.box.canonical _)
      (hle.ints _ hx₁)
    have hu := IntVar.edge_upper_mono (hF.canonical x.index) (hs₁.sound.box.canonical _)
      (hle.ints _ hx₁)
    have hlu := IntVar.edge_lower_le_upper (hF.canonical x.index)
    have hmin := (hle.sets set hset₁).2.2
    have hcardF := (hF.normal set).card_le
    have hlower := hbounded.lower
    have hupper := hbounded.upper
    exact ⟨by omega, by omega⟩
  | false =>
    exact fun _ => ⟨hbounded.readable, hbounded.proper, ha, hbounded.lower, hbounded.upper⟩

end ConstraintSearch.SetCardinality
