import ConstraintSearch.Propagator.NoGoods
import ConstraintSearch.Proofs.State

/-!
# The theory of literals

A literal holds in a box if all values that the box leaves satisfy it, and it is refuted if none of
them does. What no-goods say about a box is said by their literals.

* `Literal.Holds`, `Literal.Refuted`: a smaller box keeps both, and no box has both;
* `Literal.yields_truth?`: the evaluation of a literal is exact;
* `Literal.exclude_law`: a literal is made false;
* `NoGoods.Permits`: what no-goods say about a box. Levels that are settled have no influence on it
  (`NoGoods.permits_append`).
-/

namespace ConstraintSearch

namespace Literal

/-- All values that the box leaves satisfy the literal. -/
def Holds (F : Box) : Literal → Prop
  | comparison x relation v => x.Restricted relation v F
  | membership i v true => v ∈ (F.sets i).required
  | membership i v false => v ∉ (F.sets i).possible

/-- No value that the box leaves satisfies the literal. -/
def Refuted (F : Box) : Literal → Prop
  | comparison x relation v => ∀ u ∈ F.ints x.index, ¬relation.Holds (x.eval u) v
  | membership i v true => v ∉ (F.sets i).possible
  | membership i v false => v ∈ (F.sets i).required

/-- The variable exists, and is proper unless divisions by zero are admitted. -/
def Admissible (δ : Prop) (s : Store) : Literal → Prop
  | comparison x _ _ => x.Admissible δ s
  | membership i _ _ => i < s.sets.size

/-- The bounds of the variable can be read. -/
def Readable (s : Store) : Literal → Prop
  | comparison x _ _ => x.Readable s
  | membership _ _ _ => True

/-- What an evaluation says is right. -/
def Judged (F : Box) (l : Literal) : Option Bool → Prop
  | some true => l.Holds F
  | some false => l.Refuted F
  | none => ¬l.Holds F ∧ ¬l.Refuted F

variable {δ : Prop} {l : Literal} {F : Box} {s s' : Store} {x : IntVar} {v : Int}

theorem Holds.not_refuted (h : l.Holds F) (hF : F.Sound) : ¬l.Refuted F := by
  cases l with
  | comparison x relation v =>
    have hmin := (hF.canonical x.index).min_mem
    exact fun hr => hr _ hmin (h _ hmin)
  | membership i v included =>
    have hsubset := (hF.normal i).required_subset
    cases included with
    | true => exact fun hr => hr (hsubset h)
    | false => exact fun hr => h (hsubset hr)

theorem Admissible.exists_var (hl : l.Admissible δ s) : s.Has l.ref := by
  cases l with
  | comparison x relation v => exact IntVar.Admissible.exists_var hl
  | membership i v included => exact hl

theorem Admissible.of_evolves (hl : l.Admissible δ s) (he : s.Evolves s') : l.Admissible δ s' := by
  cases l with
  | comparison x relation v => exact IntVar.Admissible.of_size_le hl he.size_ints
  | membership i v included => exact Nat.lt_of_lt_of_le hl he.size_sets

theorem Holds.of_within (h : l.Holds s.box) (hl : l.Admissible δ s) (hF : F.Within s) :
    l.Holds F := by
  cases l with
  | comparison x relation v => exact fun u hu => h u (hF.ints _ hl.exists_var u hu)
  | membership i v included =>
    have hle := hF.sets i hl
    cases included with
    | true => exact hle.1 h
    | false => exact fun hv => h (hle.2.1 hv)

theorem Refuted.of_within (h : l.Refuted s.box) (hl : l.Admissible δ s) (hF : F.Within s) :
    l.Refuted F := by
  cases l with
  | comparison x relation v => exact fun u hu => h u (hF.ints _ hl.exists_var u hu)
  | membership i v included =>
    have hle := hF.sets i hl
    cases included with
    | true => exact fun hv => h (hle.2.1 hv)
    | false => exact hle.1 h

/-- A literal depends on the domain of its variable only. -/
theorem holds_iff_of_keeps (h : s.Keeps s' l.ref .domain) : l.Holds s'.box ↔ l.Holds s.box := by
  cases l with
  | comparison x relation v =>
    have hdomain : s'.box.ints x.index = s.box.ints x.index := h
    simp only [Holds, IntVar.Restricted, hdomain]
  | membership i v included =>
    have hdomain : s'.box.sets i = s.box.sets i := h
    cases included <;> simp only [Holds, hdomain]

/-! ### Evaluation -/

theorem judged_equation? (hF : (F.ints x.index).Canonical) {contained : Bool}
    (h : contained = true ↔ ∃ u ∈ F.ints x.index, x.eval u = v) :
    (comparison x .equal v).Judged F
      (equation? contained (x.edge F .lower) (x.edge F .upper)) := by
  unfold equation?
  cases contained with
  | false =>
    intro u hu heq
    exact absurd (h.2 ⟨u, hu, heq⟩) Bool.false_ne_true
  | true =>
    obtain ⟨u, hu, rfl⟩ := h.1 rfl
    rw [if_neg (by decide)]
    by_cases hedges : x.edge F .lower = x.edge F .upper
    · rw [if_pos hedges]
      intro w hw
      have := IntVar.edge_le_eval hF hu
      have := IntVar.eval_le_edge hF hu
      have := IntVar.edge_le_eval hF hw
      have := IntVar.eval_le_edge hF hw
      show x.eval w = x.eval u
      omega
    · rw [if_neg hedges]
      refine ⟨fun hall => hedges ?_, fun hnone => hnone u hu rfl⟩
      obtain ⟨l, hl, hlower⟩ := IntVar.exists_eval_eq_edge (x := x) hF .lower
      obtain ⟨w, hw, hupper⟩ := IntVar.exists_eval_eq_edge (x := x) hF .upper
      rw [← hlower, ← hupper]
      exact (hall l hl).trans (hall w hw).symm

theorem Judged.not {o : Option Bool} (h : (comparison x .equal v).Judged F o) :
    (comparison x .notEqual v).Judged F (o.map Bool.not) := by
  match o with
  | some true => exact fun u hu hne => hne (h u hu)
  | some false => exact h
  | none =>
    exact ⟨h.2, fun hall => h.1 fun u hu => not_not.1 (hall u hu)⟩

theorem yields_truth? (hs : s.Sound) (hl : l.Admissible δ s) :
    Yields δ (l.truth? s) fun o => l.Judged s.box o ∧ l.Readable s := by
  cases l with
  | comparison x relation v =>
    have hx : x.Admissible δ s := hl
    have hc := hs.box.canonical x.index
    refine (IntVar.yields_bound hs hx.exists_var .lower).bind fun lower hlower => ?_
    refine (IntVar.yields_bound hs hx.exists_var .upper).bind fun upper hupper => ?_
    obtain ⟨rfl, hlower⟩ := hlower
    obtain ⟨rfl, hupper⟩ := hupper
    have hread : x.Readable s := fun side => by cases side <;> assumption
    cases relation with
    | equal =>
      exact (IntVar.yields_contains hx v).bind fun contained hcontained =>
        Yields.pure ⟨judged_equation? hc hcontained, hread⟩
    | notEqual =>
      exact (IntVar.yields_contains hx v).bind fun contained hcontained =>
        Yields.pure ⟨(judged_equation? hc hcontained).not, hread⟩
    | atMost =>
      refine Yields.pure ⟨?_, hread⟩
      by_cases htrue : x.edge s.box .upper ≤ v
      · rw [if_pos htrue]
        exact (IntVar.restricted_atMost hc).2 htrue
      rw [if_neg htrue]
      by_cases hfalse : v < x.edge s.box .lower
      · rw [if_pos hfalse]
        exact fun u hu => not_le.2 (hfalse.trans_le (IntVar.edge_le_eval hc hu))
      rw [if_neg hfalse]
      obtain ⟨u, hu, heq⟩ := IntVar.exists_eval_eq_edge (x := x) hc .lower
      refine ⟨fun h => htrue ((IntVar.restricted_atMost hc).1 h), fun h => h u hu ?_⟩
      show x.eval u ≤ v
      omega
    | atLeast =>
      refine Yields.pure ⟨?_, hread⟩
      by_cases htrue : v ≤ x.edge s.box .lower
      · rw [if_pos htrue]
        exact (IntVar.restricted_atLeast hc).2 htrue
      rw [if_neg htrue]
      by_cases hfalse : x.edge s.box .upper < v
      · rw [if_pos hfalse]
        exact fun u hu => not_le.2 ((IntVar.eval_le_edge hc hu).trans_lt hfalse)
      rw [if_neg hfalse]
      obtain ⟨u, hu, heq⟩ := IntVar.exists_eval_eq_edge (x := x) hc .upper
      refine ⟨fun h => htrue ((IntVar.restricted_atLeast hc).1 h), fun h => h u hu ?_⟩
      show v ≤ x.eval u
      omega
  | membership i v included =>
    refine (Store.yields_set hl).bind fun d hd => Yields.pure ⟨?_, trivial⟩
    subst hd
    by_cases hrequired : (s.box.sets i).isRequired v = true
    · rw [if_pos hrequired]
      rw [SetDomain.isRequired_iff] at hrequired
      cases included <;> exact hrequired
    rw [if_neg hrequired]
    rw [SetDomain.isRequired_iff] at hrequired
    cases hpossible : (s.box.sets i).isPossible v with
    | false =>
      rw [← Bool.not_eq_true, SetDomain.isPossible_iff] at hpossible
      cases included <;> exact hpossible
    | true =>
      rw [SetDomain.isPossible_iff] at hpossible
      cases included with
      | true => exact ⟨hrequired, not_not.2 hpossible⟩
      | false => exact ⟨not_not.2 hpossible, hrequired⟩

end Literal

/-! ### Exclusion -/

section Laws

open Propagation

variable {δ : Prop} {C : Box → Prop} {s : State}

/-- To exclude a literal that is open and can be read makes it false. -/
theorem Literal.exclude_law {l : Literal} (hs : s.Ready) (hl : l.Admissible δ s.store)
    (hopen : ¬l.Holds s.store.box ∧ ¬l.Refuted s.store.box) (hread : l.Readable s.store)
    (hC : ∀ F : Box, F.Sound → C F → F.Within s.store → l.Refuted F) :
    Law δ C l.exclude s fun _ s' => l.Refuted s'.store.box := by
  cases l with
  | comparison x relation v =>
    have hx : x.Admissible δ s.store := hl
    have hfits : ∀ u ∈ s.store.box.ints x.index, Word.Fits (x.eval u) := fun u hu =>
      (hread.computes (hs.sound.box.canonical _) hu).fits
    have hrestrict {relation' : Relation} {w : Int}
        (hiff : ∀ u, relation'.Holds u w ↔ ¬relation.Holds u v) :
        Law δ C (Functor.discard (Propagation.restrict x relation' w)) s
          fun _ s' => (comparison x relation v).Refuted s'.store.box := by
      refine (Law.restrict hs hx.exists_var hx.proper fun F hF hCF hle u hu => ?_).discard
        fun event s' hs' u hu => ?_
      · exact (hiff _).2 (hC F hF hCF hle u hu)
      · exact (hiff _).1 (hs'.1.holds u hu)
    cases relation with
    | equal => exact hrestrict fun u => Iff.rfl
    | notEqual => exact hrestrict fun u => not_not.symm
    | atMost =>
      unfold exclude
      dsimp only
      cases hsucc : Word.succ? v with
      | some bound =>
        obtain rfl := Option.some.inj (Option.ite_none_right_eq_some.1 hsucc).2
        exact hrestrict fun u => Int.not_le.symm
      | none =>
        have hgreatest : ¬v < Word.greatest := fun hlt => by
          rw [Word.succ?, if_pos hlt] at hsucc
          cases hsucc
        exact absurd (fun u hu => (hfits u hu).2.trans (not_lt.1 hgreatest)) hopen.1
    | atLeast =>
      unfold exclude
      dsimp only
      cases hpred : Word.pred? v with
      | some bound =>
        obtain rfl := Option.some.inj (Option.ite_none_right_eq_some.1 hpred).2
        exact hrestrict fun u => Int.le_sub_one_iff.trans Int.not_le.symm
      | none =>
        have hleast : ¬Word.least < v := fun hlt => by
          rw [Word.pred?, if_pos hlt] at hpred
          cases hpred
        exact absurd (fun u hu => (not_lt.1 hleast).trans (hfits u hu).1) hopen.1
  | membership i v included =>
    cases included with
    | true => exact (Law.excludeElement hs hl hC).discard fun _ _ hs' => hs'.1.holds
    | false => exact (Law.includeElement hs hl hC).discard fun _ _ hs' => hs'.1.holds

end Laws

/-! ### Levels of no-goods -/

namespace NoGoodLevel

variable {δ : Prop} {level : NoGoodLevel} {F : Box} {s s' : Store}

/-- The variables of the level exist. -/
structure Admissible (δ : Prop) (level : NoGoodLevel) (s : Store) : Prop where
  explored : ∀ l ∈ level.explored, l.Admissible δ s
  taken : ∀ l ∈ level.taken, l.Admissible δ s

/-- The explored branches are refuted, and the taken one holds. -/
structure Settled (level : NoGoodLevel) (F : Box) : Prop where
  explored : ∀ l ∈ level.explored, l.Refuted F
  taken : ∃ l, level.taken = some l ∧ l.Holds F

theorem Admissible.of_evolves (h : level.Admissible δ s) (he : s.Evolves s') :
    level.Admissible δ s' :=
  ⟨fun l hl => (h.explored l hl).of_evolves he, fun l hl => (h.taken l hl).of_evolves he⟩

theorem Settled.of_within (h : level.Settled s.box) (hl : level.Admissible δ s)
    (hF : F.Within s) : level.Settled F := by
  obtain ⟨l, htaken, hholds⟩ := h.taken
  exact ⟨fun l hmem => (h.explored l hmem).of_within (hl.explored l hmem) hF, l, htaken,
    hholds.of_within (hl.taken l htaken) hF⟩

end NoGoodLevel

/-- Down to the first level whose taken branch need not hold, the explored branches are refuted. -/
def NoGoods.Permits : List NoGoodLevel → Box → Prop
  | [], _ => True
  | level :: levels, F =>
      (∀ l ∈ level.explored, l.Refuted F) ∧ ∀ l ∈ level.taken, l.Holds F → Permits levels F

/-- Levels that are settled have no influence on what is permitted. -/
theorem NoGoods.permits_append {settled levels : List NoGoodLevel} {F : Box}
    (h : ∀ level ∈ settled, level.Settled F) :
    Permits (settled ++ levels) F ↔ Permits levels F := by
  induction settled with
  | nil => exact Iff.rfl
  | cons level settled ih =>
    obtain ⟨hlevel, hsettled⟩ := List.forall_mem_cons.1 h
    obtain ⟨l, htaken, hholds⟩ := hlevel.taken
    rw [List.cons_append, Permits, ih hsettled]
    refine ⟨fun hpermits => hpermits.2 l htaken hholds, fun hpermits => ?_⟩
    exact ⟨hlevel.explored, fun _ _ _ => hpermits⟩

end ConstraintSearch
