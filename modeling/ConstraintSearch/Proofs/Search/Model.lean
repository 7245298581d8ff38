import ConstraintSearch.Proofs.Build
import ConstraintSearch.Proofs.Search.Complete

/-!
# Models

A space that was built is the root of a search tree. Its solutions are the assignments of the tree.

* `Searchable`: what a search relies on;
* `Covered`: the branchers decide all variables;
* `SolutionOf`: the solutions of what was built;
* `Built.lineup`: the branchers of what was built;
* `Built.exists_tree`: the search tree below what was built.
-/

namespace ConstraintSearch

/-! ### Branchers -/

/-- A new brancher without symmetries, of variables that exist among so many. -/
def Brancher.Fresh (ints sets : Nat) : Brancher → Prop
  | int b => b.start = 0 ∧ b.symmetries = [] ∧ ∀ x ∈ b.vars.toList, x.index < ints
  | set vars start => start = 0 ∧ ∀ i ∈ vars.toList, i < sets
  | float _ _ _ => False

instance (ints sets : Nat) : (b : Brancher) → Decidable (b.Fresh ints sets)
  | .int b => inferInstanceAs (Decidable (b.start = 0 ∧ b.symmetries = [] ∧ _))
  | .set _ start => inferInstanceAs (Decidable (start = 0 ∧ _))
  | .float _ _ _ => inferInstanceAs (Decidable False)

namespace Statement

/-- The brancher that is added, if one is. -/
def brancher? : Statement → Option Brancher
  | branch b => some b
  | _ => none

/-- The number of integer variables that are created. -/
def newInts : Statement → Nat
  | newInt _ _ | newIntOfValues _ | newBool => 1
  | _ => 0

/-- The number of set variables that are created. -/
def newSets : Statement → Nat
  | newSet _ _ _ _ => 1
  | _ => 0

end Statement

/-- The branchers that are added. -/
def branchings (statements : List Statement) : List Brancher :=
  statements.filterMap (·.brancher?)

/-- Behind statements that create so many variables, the branchers that are added are fresh. -/
def Branched : Nat → Nat → List Statement → Prop
  | _, _, [] => True
  | ints, sets, t :: statements =>
      (∀ b ∈ t.brancher?, b.Fresh ints sets) ∧
        Branched (ints + t.newInts) (sets + t.newSets) statements

/-- What a search relies on: no constraint names a variable twice, views can be read backwards
unless a division by zero counts as a fault of arithmetic, and the branchers are fresh. -/
structure Searchable (δ : Prop) (statements : List Statement) : Prop where
  distinct : ∀ c ∈ postings statements, c.Distinct
  proper : ∀ c ∈ postings statements, ∀ x ∈ c.vars, x.Proper ∨ δ
  branched : Branched 0 0 statements

/-- The branchers decide all variables. -/
structure Covered (statements : List Statement) (s : Store) : Prop where
  ints : ∀ i < s.ints.size, ∃ b ∈ branchings statements, ∃ x ∈ b.ints, x.index = i ∧ x.Proper
  sets : ∀ i < s.sets.size, ∃ b ∈ branchings statements, i ∈ b.sets

/-- The assignment takes its values from the domains of the space, and satisfies the constraints;
inequations do not know of terms beyond the 32-bit integers. -/
def SolutionOf (statements : List Statement) (s : Space) (a : Assignment) : Prop :=
  a.Within s.store ∧ ∀ c ∈ postings statements, c.Holds a ∧ c.Representable a

/-! ### Models that can be evaluated -/

instance decidableProper : (x : IntVar) → Decidable x.Proper
  | .root _ => inferInstanceAs (Decidable True)
  | .affine inner scale _ =>
      have := decidableProper inner
      inferInstanceAs (Decidable (scale ≠ 0 ∧ inner.Proper))
  | .bool inner =>
      have := decidableProper inner
      inferInstanceAs (Decidable inner.Proper)

instance (c : Posting) : Decidable c.Distinct :=
  inferInstanceAs (Decidable (c.vars.map IntVar.index).Nodup)

instance decidableBranched : (ints sets : Nat) → (statements : List Statement) →
    Decidable (Branched ints sets statements)
  | _, _, [] => inferInstanceAs (Decidable True)
  | ints, sets, t :: statements =>
      have := decidableBranched (ints + t.newInts) (sets + t.newSets) statements
      inferInstanceAs (Decidable ((∀ b ∈ t.brancher?, b.Fresh ints sets) ∧ _))

instance {δ : Prop} [Decidable δ] (statements : List Statement) :
    Decidable (Searchable δ statements) :=
  decidable_of_iff
    ((∀ c ∈ postings statements, c.Distinct) ∧
      (∀ c ∈ postings statements, ∀ x ∈ c.vars, x.Proper ∨ δ) ∧ Branched 0 0 statements)
    ⟨fun h => ⟨h.1, h.2.1, h.2.2⟩, fun h => ⟨h.distinct, h.proper, h.branched⟩⟩

instance (statements : List Statement) (s : Store) : Decidable (Covered statements s) :=
  decidable_of_iff
    ((∀ i < s.ints.size, ∃ b ∈ branchings statements, ∃ x ∈ b.ints, x.index = i ∧ x.Proper) ∧
      ∀ i < s.sets.size, ∃ b ∈ branchings statements, i ∈ b.sets)
    ⟨fun h => ⟨h.1, h.2⟩, fun h => ⟨h.ints, h.sets⟩⟩

/-- The assignment with the given values of the integer variables. -/
def Assignment.ofInts (values : List Int) : Assignment := ⟨fun i => values.getD i 0, fun _ => []⟩

/-- Whether the store has integer variables only, and their domains have the given values. -/
def Store.admits (s : Store) (values : List Int) : Bool :=
  s.sets.size = 0 && s.ints.size = values.length &&
    (List.range values.length).all fun i => (s.box.ints i).contains (values.getD i 0)

theorem Store.within_of_admits {s : Store} {values : List Int} (h : s.admits values = true) :
    (Assignment.ofInts values).Within s := by
  simp only [admits, Bool.and_eq_true, decide_eq_true_eq, List.all_eq_true, List.mem_range] at h
  obtain ⟨⟨hsets, hints⟩, hvalues⟩ := h
  refine ⟨fun i => ?_, fun i => ?_⟩
  · by_cases hi : i < values.length
    · exact hvalues i hi
    · have hget : s.ints.get? i = none := Array.getElem?_eq_none (hints.le.trans (not_lt.1 hi))
      have hvalue : values.getD i 0 = 0 := by
        rw [List.getD_eq_getElem?_getD, List.getElem?_eq_none (not_lt.1 hi)]
        rfl
      show values.getD i 0 ∈ s.box.ints i
      simp only [box, hget, hvalue]
      exact IntDomain.mem_singleton.2 rfl
  · have hget : s.sets.get? i = none := Array.getElem?_eq_none (hsets.le.trans (Nat.zero_le i))
    show [] ∈ s.box.sets i
    simp only [box, hget]
    exact ⟨List.Pairwise.nil, SetDomain.le_refl _⟩

variable {δ : Prop} {policy : Policy} {statements : List Statement} {s s' : Space} {b : Brancher}
  {a : Assignment}

theorem branched_append {ints sets : Nat} {t : Statement} :
    Branched ints sets (statements ++ [t]) ↔ Branched ints sets statements ∧
      ∀ b ∈ t.brancher?, b.Fresh (ints + (statements.map Statement.newInts).sum)
        (sets + (statements.map Statement.newSets).sum) := by
  induction statements generalizing ints sets with
  | nil => simp [Branched]
  | cons t' statements ih =>
    simp only [List.cons_append, Branched, ih, List.map_cons, List.sum_cons, and_assoc,
      Nat.add_assoc]

theorem branchings_append (t : Statement) :
    branchings (statements ++ [t]) = branchings statements ++ t.brancher?.toList := by
  unfold branchings
  rw [List.filterMap_append]
  cases h : t.brancher? <;> simp [h]

namespace Brancher

theorem Fresh.plain (h : b.Fresh s.store.ints.size s.store.sets.size) : b.Plain s.store := by
  cases b with
  | int b => exact h.2
  | set vars start => exact h.2
  | float vars precision start => exact h

theorem Fresh.settled {ints sets : Nat} (h : b.Fresh ints sets) : b.Settled s.store := by
  cases b with
  | int b =>
    intro x hx
    rw [h.1] at hx
    cases hx
  | set vars start =>
    intro i hi
    rw [h.1] at hi
    cases hi
  | float vars precision start => trivial

end Brancher

/-- A fresh brancher may stand behind the others. -/
theorem Lineup.push {chain : List Brancher} {store : Store} {table : Table Brancher} {active : Nat}
    (h : Lineup chain store table active) (hplain : b.Plain store) (hsettled : b.Settled store) :
    Lineup (chain ++ [b.base]) store (table.push b) active := by
  have hpush (i : Nat) : (table.push b).get? i = if i = table.size then some b else table.get? i :=
    Array.getElem?_push
  have hlist : chain = table.toList.map Brancher.base := by
    refine List.ext_getElem? fun i => ?_
    rw [← h.base i, List.getElem?_map]
    exact congrArg _ Array.getElem?_toList.symm
  have hsize : chain.length = table.size := by
    rw [hlist, List.length_map]
    exact Array.length_toList
  have hrow {i : Nat} {b' : Brancher} (hb' : (table.push b).get? i = some b') :
      i = table.size ∧ b = b' ∨ table.get? i = some b' := by
    rw [hpush] at hb'
    by_cases hi : i = table.size
    · rw [if_pos hi] at hb'
      exact .inl ⟨hi, Option.some.inj hb'⟩
    · rw [if_neg hi] at hb'
      exact .inr hb'
  refine ⟨fun i => ?_, ?_, fun b' hb' => ?_, fun i b' hb' => ?_, fun i hi b' hb' => ?_⟩
  · rw [hpush, List.getElem?_append, ← h.base i, hsize]
    split
    · rename_i hi
      rw [hi, if_neg (lt_irrefl _), Nat.sub_self]
      rfl
    · rename_i hi
      split
      · rfl
      · rename_i hle
        have hlt : table.size < i := lt_of_le_of_ne (not_lt.1 hle) (Ne.symm hi)
        have hnone : table.get? i = none := Array.getElem?_eq_none hlt.le
        rw [hnone, List.getElem?_eq_none (by simp only [List.length_singleton]; omega)]
        rfl
  · rw [List.length_append]
    exact h.le.trans (Nat.le_add_right _ _)
  · rcases List.mem_append.1 hb' with hb' | hb'
    · exact h.plain b' hb'
    · rw [List.mem_singleton.1 hb']
      exact Brancher.plain_base.2 hplain
  · rcases hrow hb' with ⟨-, rfl⟩ | hb'
    · exact hsettled
    · exact h.settled i b' hb'
  · rcases hrow hb' with ⟨rfl, -⟩ | hb'
    · exact absurd hi (not_lt.2 (hsize ▸ h.le))
    · exact h.done i hi b' hb'

/-- The branchers of what was built, and the number of variables. -/
structure Space.Arranged (statements : List Statement) (s : Space) : Prop where
  ints : s.store.ints.size = (statements.map Statement.newInts).sum
  sets : s.store.sets.size = (statements.map Statement.newSets).sum
  lineup : Lineup ((branchings statements).map Brancher.base) s.store s.branchers s.active
  objective : s.objective = none

/-- A statement that adds no brancher leaves the branchers of a space that evolves. -/
theorem Space.Arranged.of_evolves {t : Statement} (h : s.Arranged statements)
    (hnone : t.brancher? = none) (hs : s.store.Sound) (hs' : s'.store.Sound)
    (he : s.store.Evolves s'.store) (hints : s'.store.ints.size = s.store.ints.size + t.newInts)
    (hsets : s'.store.sets.size = s.store.sets.size + t.newSets)
    (hbranchers : s'.branchers = s.branchers) (hactive : s'.active = s.active)
    (hobjective : s'.objective = s.objective) : s'.Arranged (statements ++ [t]) := by
  refine ⟨?_, ?_, ?_, hobjective.trans h.objective⟩
  · rw [hints, h.ints]
    simp
  · rw [hsets, h.sets]
    simp
  · rw [branchings_append, hnone, Option.toList_none, List.append_nil, hbranchers, hactive]
    exact h.lineup.of_evolves hs hs' he

theorem Space.Arranged.narrowed {t : Statement} {state : State} (h : s.Arranged statements)
    (hs : s.store.Sound) (hadvances : s.state.Advances state) (hnone : t.brancher? = none)
    (hints : t.newInts = 0) (hsets : t.newSets = 0) :
    Space.Arranged (statements ++ [t]) { s with state } := by
  have hnarrows := hadvances.store
  refine h.of_evolves hnone hs (hadvances.sound hs) hnarrows.evolves ?_ ?_ rfl rfl rfl
  · rw [hints]
    exact hnarrows.size_ints
  · rw [hsets]
    exact hnarrows.size_sets

theorem Built.arranged (h : Built policy statements s) (hw : Branched 0 0 statements) :
    s.Arranged statements := by
  induction h with
  | empty =>
    exact ⟨rfl, rfl, ⟨fun i => rfl, Nat.le_refl _, fun b hb => (by cases hb),
      fun i b hb => (by cases hb), fun i hi => absurd hi (Nat.not_lt_zero i)⟩, rfl⟩
  | @step statements s s' t hs ht ih =>
    have ih := ih (branched_append.1 hw).1
    obtain ⟨posted, -, htracks⟩ := hs.tracks (δ := True) fun _ _ _ _ => .inr trivial
    obtain ⟨posted', -, htracks'⟩ := (Built.step hs ht).tracks (δ := True)
      fun _ _ _ _ => .inr trivial
    have hsound := htracks.ready.sound
    have hsound' := htracks'.ready.sound
    cases t with
    | newInt lower upper =>
      obtain ⟨-, -, x, ht⟩ := ht
      obtain ⟨d, -, rfl⟩ := Space.eq_of_newInt ht
      exact ih.of_evolves rfl hsound hsound' (Store.extends_push_int _ d).evolves
        (Array.size_push d) rfl rfl rfl rfl
    | newIntOfValues values =>
      obtain ⟨-, x, ht⟩ := ht
      obtain ⟨d, -, rfl⟩ := Space.eq_of_newIntOfValues ht
      exact ih.of_evolves rfl hsound hsound' (Store.extends_push_int _ d).evolves
        (Array.size_push d) rfl rfl rfl rfl
    | newBool =>
      cases ht
      exact ih.of_evolves rfl hsound hsound' (Store.extends_push_int _ _).evolves
        (Array.size_push _) rfl rfl rfl rfl
    | newSet required possible cardMin cardMax =>
      obtain ⟨x, ht⟩ := ht
      obtain ⟨d, -, rfl⟩ := Space.eq_of_newSet ht
      exact ih.of_evolves rfl hsound hsound' (Store.extends_push_set _ d).evolves
        rfl (Array.size_push d) rfl rfl rfl
    | restrict x relation v =>
      obtain ⟨hx, halive, event, ht⟩ := ht
      obtain ⟨state, rfl, hadvances⟩ := Space.advances_of_restrict htracks.ready hx ht halive
      exact ih.narrowed hsound hadvances rfl rfl rfl
    | includeElement set v =>
      obtain ⟨hset, halive, event, ht⟩ := ht
      obtain ⟨state, rfl, hadvances⟩ := Space.advances_of_narrowSet htracks.ready hset
        (fun d hd => hd.including v) ht halive
      exact ih.narrowed hsound hadvances rfl rfl rfl
    | excludeElement set v =>
      obtain ⟨hset, halive, event, ht⟩ := ht
      obtain ⟨state, rfl, hadvances⟩ := Space.advances_of_narrowSet htracks.ready hset
        (fun d hd => hd.excluding v) ht halive
      exact ih.narrowed hsound hadvances rfl rfl rfl
    | boundCardinality set least greatest =>
      obtain ⟨hset, halive, event, ht⟩ := ht
      obtain ⟨state, rfl, hadvances⟩ := Space.advances_of_narrowSet htracks.ready hset
        (fun d hd => hd.withCardinality least greatest) ht halive
      exact ih.narrowed hsound hadvances rfl rfl rfl
    | post c =>
      obtain ⟨hc, n, ht⟩ := ht
      obtain ⟨q, -, -, rfl⟩ := Space.eq_of_post (δ := True) htracks.ready.alive hc
        (fun _ _ => .inr trivial) ht
      exact ih.of_evolves rfl hsound hsound' (Store.Narrows.refl _).evolves rfl rfl rfl rfl rfl
    | branch b =>
      cases ht
      have hfresh := (branched_append.1 hw).2 b rfl
      rw [Nat.zero_add, Nat.zero_add, ← ih.ints, ← ih.sets] at hfresh
      refine ⟨?_, ?_, ?_, ih.objective⟩
      · rw [List.map_append, List.sum_append]
        exact ih.ints
      · rw [List.map_append, List.sum_append]
        exact ih.sets
      · rw [branchings_append, List.map_append]
        exact ih.lineup.push hfresh.plain hfresh.settled
    | status =>
      obtain ⟨halive, status, ht⟩ := ht
      have hjudged := (Space.status_law htracks ih.lineup).of_returns ht
      have hrests : s.Rests True posted ((branchings statements).map Brancher.base) s' := by
        cases status with
        | failed => rw [hjudged.1] at halive; cases halive
        | solved => exact hjudged.1
        | branch => exact hjudged.1
      refine ⟨?_, ?_, ?_, hrests.objective.trans ih.objective⟩
      · rw [List.map_append, List.sum_append, hrests.narrows.size_ints, ih.ints]
        rfl
      · rw [List.map_append, List.sum_append, hrests.narrows.size_sets, ih.sets]
        rfl
      · rw [branchings_append]
        exact (List.append_nil _).symm ▸ hrests.lineup

/-! ### The search tree -/

/-- What was built, with an objective, is the root of a search tree. -/
theorem Built.exists_tree (h : Built policy statements s)
    (hproper : ∀ c ∈ postings statements, ∀ x ∈ c.vars, x.Proper ∨ δ)
    (hbranched : Branched 0 0 statements) {objective : Option Objective}
    (ho : ∀ o ∈ objective, o.variable.Admissible δ s.store) :
    ∃ t : Tree, t.Regular δ ∧ t.goal = Set.univ ∧ t.objective = objective ∧ t.root = s.store ∧
      t.chain = (branchings statements).map Brancher.base ∧
      Compiles (postings statements) t.posted ∧
      t.Represents δ { s with objective } t.whole := by
  obtain ⟨posted, hcompiles, htracks⟩ := h.tracks hproper
  have hsound := htracks.ready.sound
  exact ⟨⟨posted, (branchings statements).map Brancher.base, s.store, objective, Set.univ⟩,
    ⟨hsound, ho⟩, rfl, rfl, rfl, rfl, hcompiles, .stands
      ⟨htracks.congr rfl rfl, (h.arranged hbranched).lineup, rfl, Tree.frames_whole hsound⟩⟩

namespace Tree

variable {t : Tree}

/-- The solutions of the tree are those of what was built. -/
theorem solution_iff (hcompiles : Compiles (postings statements) t.posted)
    (hroot : t.root = s.store) (hgoal : t.goal = Set.univ) :
    t.Solution a ↔ SolutionOf statements s a := by
  unfold Solution SolutionOf
  rw [hroot]
  refine and_congr_right fun ha => ⟨fun hw c hc => ?_, fun hcs => ⟨ha.sound, fun q hq => ?_, ?_⟩⟩
  · obtain ⟨n, q, hn, hq⟩ := hcompiles.exists_of_mem hc
    exact (Posting.stable_iff hq (Assignment.posting_takes_box c)).1
      (hw.consistent q (List.mem_of_getElem? hn))
  · obtain ⟨c, hc, hcq⟩ := hcompiles.exists_posting hq
    exact (Posting.stable_iff hcq (Assignment.posting_takes_box c)).2 (hcs c hc)
  · rw [hgoal]
    exact Set.mem_univ _

theorem oriented_of_distinct (hcompiles : Compiles (postings statements) t.posted)
    (hdistinct : ∀ c ∈ postings statements, c.Distinct) : ∀ q ∈ t.posted, q.Oriented := by
  intro q hq
  obtain ⟨c, hc, hcq⟩ := hcompiles.exists_posting hq
  exact Posting.oriented hcq (hdistinct c hc).oriented

/-- If the branchers decide all variables, then the spaces that are found are solutions. -/
theorem exact_of_covered (hcompiles : Compiles (postings statements) t.posted)
    (hdistinct : ∀ c ∈ postings statements, c.Distinct)
    (hchain : t.chain = (branchings statements).map Brancher.base) (hroot : t.root = s.store)
    (hcovered : Covered statements s.store) : t.Exact := by
  rw [← hroot] at hcovered
  refine ⟨⟨fun i hi => ?_, fun i hi => ?_⟩, oriented_of_distinct hcompiles hdistinct⟩
  · obtain ⟨b, hb, x, hx, hi⟩ := hcovered.ints i hi
    refine ⟨b.base, hchain ▸ List.mem_map_of_mem hb, x, ?_, hi⟩
    rwa [Brancher.ints_base]
  · obtain ⟨b, hb, hi⟩ := hcovered.sets i hi
    refine ⟨b.base, hchain ▸ List.mem_map_of_mem hb, ?_⟩
    rwa [Brancher.sets_base]

end Tree

end ConstraintSearch
