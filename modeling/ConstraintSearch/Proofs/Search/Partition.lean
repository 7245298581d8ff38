import ConstraintSearch.Proofs.Permanence
import ConstraintSearch.Proofs.Search.NoGoods
import Mathlib.Order.CompletePartialOrder

/-!
# Choices partition a node

The alternatives of a choice share out what the variable of the choice can be: the values of a
handle, or the sets of a set variable. Nothing else about the node changes, and the literal of an
alternative says exactly what the alternative keeps.

* `IsPartition`: a set is shared out among several proper parts;
* `Decision.possible`: what the variable of a decision can be in a store, and `Decision.kept` the
  part of it that an alternative keeps;
* `Decision.Splits.isPartition`: the parts of a proper decision are a partition;
* `Decision.possible_eq_kept`, `Decision.agreeBeside`: to keep exactly the boxes that an alternative
  covers leaves its part, and no other variable is touched;
* `Space.Reachable.choice_partitions`: the statement about the nodes that have a choice.
-/

namespace ConstraintSearch

variable {δ : Prop}

/-- The sets `kept 0`, …, `kept (n - 1)` share out a set into proper parts. -/
structure IsPartition {α : Type} (whole : Set α) (n : Nat) (kept : Nat → Set α) : Prop where
  nonempty : ∀ i < n, (kept i).Nonempty
  smaller : ∀ i < n, kept i ⊂ whole
  disjoint : ∀ i < n, ∀ j < n, i ≠ j → Disjoint (kept i) (kept j)
  union : ⋃ i < n, kept i = whole

/-- The domains of `F`, except for the one of the variable `x`, which is that of `G`. -/
def Box.replacing (x : VarRef) (F G : Box) : Box where
  ints i := if .int i = x then G.ints i else F.ints i
  sets i := if .set i = x then G.sets i else F.sets i

/-- The stores differ in the domain of the variable `x` at most. -/
structure Store.AgreeBeside (x : VarRef) (s s' : Store) : Prop where
  ints : ∀ i, .int i ≠ x → s'.ints.get? i = s.ints.get? i
  sets : ∀ i, .set i ≠ x → s'.sets.get? i = s.sets.get? i
  floats : ∀ i, .float i ≠ x → s'.floats.get? i = s.floats.get? i

namespace Box

variable {x : VarRef} {F G : Box} {s : Store}

theorem Sound.replacing (hF : F.Sound) (hG : G.Sound) (x : VarRef) : (F.replacing x G).Sound where
  canonical i := by
    unfold Box.replacing
    dsimp only
    split
    · exact hG.canonical i
    · exact hF.canonical i
  normal i := by
    unfold Box.replacing
    dsimp only
    split
    · exact hG.normal i
    · exact hF.normal i

theorem Within.replacing (hF : F.Within s) (hG : G.Within s) (x : VarRef) :
    (F.replacing x G).Within s where
  ints i hi := by
    unfold Box.replacing
    dsimp only
    split
    · exact hG.ints i hi
    · exact hF.ints i hi
  sets i hi := by
    unfold Box.replacing
    dsimp only
    split
    · exact hG.sets i hi
    · exact hF.sets i hi

theorem ints_replacing {i : Nat} (h : .int i ≠ x) : (F.replacing x G).ints i = F.ints i := if_neg h

theorem sets_replacing {i : Nat} (h : .set i ≠ x) : (F.replacing x G).sets i = F.sets i := if_neg h

end Box

/-! ### What a decision is about -/

namespace Decision

/-- The values of the variable of a decision: integers, or sets in increasing order. Nothing is said
of floats. -/
def Subject : Decision → Type
  | int _ _ _ _ => Int
  | set _ _ => List Int
  | float _ _ => Unit

/-- The variable of a decision; that of a handle is the one it is built on. -/
def ref : Decision → VarRef
  | int _ x _ _ => x.ref
  | set i _ => .set i
  | float i _ => .float i

/-- The value of the handle or variable in an assignment. -/
def read (a : Assignment) : (d : Decision) → d.Subject
  | int _ x _ _ => a.value x
  | set i _ => a.sets i
  | float _ _ => ()

/-- What the handle or variable can be in a store. -/
def possible (s : Store) : (d : Decision) → Set d.Subject
  | int _ x _ _ => {v | x.Value s v}
  | set i _ => {l | l ∈ s.box.sets i}
  | float _ _ => Set.univ

/-- What it can be in the assignments that the alternative keeps. -/
def kept (s : Store) (d : Decision) (i : Nat) : Set d.Subject :=
  {v | ∃ a : Assignment, a.Within s ∧ d.Admits a i ∧ d.read a = v}

variable {d : Decision} {s s' : Store} {a b : Assignment} {v : d.Subject} {i : Nat}

theorem mem_possible_iff (hs : s.Sound) :
    v ∈ d.possible s ↔ ∃ a : Assignment, a.Within s ∧ d.read a = v := by
  cases d with
  | int position x split breaksSymmetries =>
    constructor
    · rintro ⟨u, hu, rfl⟩
      obtain ⟨a, ha, rfl⟩ := Store.exists_assignment_int hs hu
      exact ⟨a, ha, rfl⟩
    · rintro ⟨a, ha, rfl⟩
      exact ⟨a.ints x.index, ha.ints _, rfl⟩
  | set j w =>
    constructor
    · exact fun hv => Store.exists_assignment_set hs hv
    · rintro ⟨a, ha, rfl⟩
      exact ha.sets j
  | float j w =>
    obtain ⟨a, ha⟩ := Store.exists_assignment hs
    exact ⟨fun _ => ⟨a, ha, rfl⟩, fun _ => trivial⟩

/-- Whether an alternative keeps an assignment depends on the value of the variable only. -/
theorem admits_iff_of_read (h : d.read a = d.read b) (i : Nat) : d.Admits a i ↔ d.Admits b i := by
  cases d with
  | int position x split breaksSymmetries =>
    have heq : a.value x = b.value x := h
    simp only [Admits, heq]
  | set j w =>
    have heq : a.sets j = b.sets j := h
    cases i <;> simp only [Admits, heq]
  | float j w => exact Iff.rfl

theorem read_mem_kept (ha : a.Within s) : d.read a ∈ d.kept s i ↔ d.Admits a i := by
  constructor
  · rintro ⟨b, -, hb, heq⟩
    exact (admits_iff_of_read heq i).1 hb
  · exact fun h => ⟨a, ha, h, rfl⟩

theorem kept_subset (hs : s.Sound) (i : Nat) : d.kept s i ⊆ d.possible s := by
  rintro v ⟨a, ha, -, rfl⟩
  exact (mem_possible_iff hs).2 ⟨a, ha, rfl⟩

/-- **The alternatives of a proper decision are a partition.** -/
theorem Splits.isPartition (h : d.Splits s) (hs : s.Sound) :
    IsPartition (d.possible s) d.alternatives (d.kept s) where
  nonempty i hi := by
    obtain ⟨a, ha, hadmits⟩ := h.exists_assignment i hi
    exact ⟨d.read a, a, ha, hadmits, rfl⟩
  smaller i hi := by
    refine Set.ssubset_iff_subset_ne.2 ⟨kept_subset hs i, fun heq => ?_⟩
    obtain ⟨a, ha, hnot⟩ := h.exists_not_admits i hi
    have hmem : d.read a ∈ d.kept s i := heq ▸ (mem_possible_iff hs).2 ⟨a, ha, rfl⟩
    exact hnot ((read_mem_kept ha).1 hmem)
  disjoint i hi j hj hne := by
    refine Set.disjoint_left.2 ?_
    rintro v ⟨a, ha, hadmits, rfl⟩ hmem
    exact hne (h.unique a i j hi hj hadmits ((read_mem_kept ha).1 hmem))
  union := by
    refine Set.Subset.antisymm (Set.iUnion₂_subset fun i _ => kept_subset hs i) fun v hv => ?_
    obtain ⟨a, ha, rfl⟩ := (mem_possible_iff hs).1 hv
    obtain ⟨i, hi, hadmits⟩ := h.exists_admits a ha
    exact Set.mem_iUnion₂.2 ⟨i, hi, (read_mem_kept ha).2 hadmits⟩

/-! ### Stores that keep what an alternative covers -/

/-- Whether an alternative covers a box depends on the domain of the variable only. -/
theorem covers_replacing {F G : Box} : d.Covers (F.replacing d.ref G) i ↔ d.Covers G i := by
  cases d with
  | int position x split breaksSymmetries =>
    have heq : (F.replacing x.ref G).ints x.index = G.ints x.index := if_pos rfl
    simp only [Covers, ref, heq]
  | set j w =>
    have heq : (F.replacing (.set j) G).sets j = G.sets j := if_pos rfl
    cases i <;> simp only [Covers, ref, heq]
  | float j w => exact Iff.rfl

variable (hs' : s'.Sound) (hnarrows : s.Narrows s')
  (hiff : ∀ F : Box, F.Sound → (F.Within s' ↔ F.Within s ∧ d.Covers F i))

include hs' hnarrows hiff

/-- What is possible after a commitment. -/
theorem possible_eq_kept : d.possible s' = d.kept s i := by
  ext v
  rw [mem_possible_iff hs']
  constructor
  · rintro ⟨a, ha, rfl⟩
    exact ⟨a, ha.of_narrows hnarrows, covers_box.1 ((hiff a.box ha.sound).1 ha.box).2, rfl⟩
  · rintro ⟨a, ha, hadmits, rfl⟩
    have hbox := (hiff a.box ha.sound).2 ⟨ha.box, covers_box.2 hadmits⟩
    exact ⟨a, ha.of_box hnarrows hbox, rfl⟩

/-- A commitment touches one variable only: the old domains of all others together with the new one
of this variable make up a box that the alternative covers, so that they were kept. -/
theorem agreeBeside (hs : s.Sound) : s.AgreeBeside d.ref s' := by
  have hwithin : (s.box.replacing d.ref s'.box).Within s' := by
    refine (hiff _ (hs.box.replacing hs'.box _)).2 ⟨s.box_within.replacing hnarrows.within _, ?_⟩
    exact covers_replacing.2 ((hiff _ hs'.box).1 s'.box_within).2
  refine ⟨fun j hj => ?_, fun j hj => ?_, fun j _ => by rw [hnarrows.floats]⟩
  · by_cases hlt : j < s.ints.size
    · have hle := hwithin.ints j (hnarrows.size_ints ▸ hlt)
      rw [Box.ints_replacing hj] at hle
      have heq := IntDomain.le_antisymm (hs'.box.canonical j) (hs.box.canonical j)
        (hnarrows.within.ints j hlt) hle
      have hget := Store.int_of_lt (hnarrows.size_ints ▸ hlt : j < s'.ints.size)
      rw [heq] at hget
      exact (Table.fetch_eq_ok.1 hget).trans (Table.fetch_eq_ok.1 (Store.int_of_lt hlt)).symm
    · have hge : s'.ints.size ≤ j := hnarrows.size_ints ▸ not_lt.1 hlt
      exact (Array.getElem?_eq_none hge).trans (Array.getElem?_eq_none (not_lt.1 hlt)).symm
  · by_cases hlt : j < s.sets.size
    · have hle := hwithin.sets j (hnarrows.size_sets ▸ hlt)
      rw [Box.sets_replacing hj] at hle
      have heq := SetDomain.le_antisymm (hs'.box.normal j) (hs.box.normal j)
        (hnarrows.within.sets j hlt) hle
      have hget := Store.set_of_lt (hnarrows.size_sets ▸ hlt : j < s'.sets.size)
      rw [heq] at hget
      exact (Table.fetch_eq_ok.1 hget).trans (Table.fetch_eq_ok.1 (Store.set_of_lt hlt)).symm
    · have hge : s'.sets.size ≤ j := hnarrows.size_sets ▸ not_lt.1 hlt
      exact (Array.getElem?_eq_none hge).trans (Array.getElem?_eq_none (not_lt.1 hlt)).symm

end Decision

/-! ### Spaces -/

namespace Space

/-- From `s` to `s'` the domain of the variable `x` has changed at most, and the propagators that
wait to run. -/
structure AltersOnly (x : VarRef) (s s' : Space) : Prop where
  rest : s' = { s with
    state := { s.state with store := s'.state.store, queue := s'.state.queue } }
  store : s.store.AgreeBeside x s'.store

end Space

/-- The alternatives of a choice are a partition of a space: each of them can be committed, unless
arithmetic overflows, and keeps its part of what the variable can be and everything else. Its
literal holds of this part and of nothing else. -/
structure Choice.Partitions (c : Choice) (s : Space) : Prop where
  two_le : 2 ≤ c.alternatives
  isPartition :
    IsPartition (c.decision.possible s.store) c.alternatives (c.decision.kept s.store)
  commits : ∀ i < c.alternatives, Yields False (s.commit c i) fun s' =>
    s'.isFailed = false ∧ s.AltersOnly c.decision.ref s' ∧
      c.decision.possible s'.store = c.decision.kept s.store i
  literal : ∀ i < c.alternatives, ∃ l, c.literal? i = some l ∧ l.ref = c.decision.ref ∧
    ∀ a : Assignment, a.Within s.store →
      (l.Holds a.box ↔ c.decision.read a ∈ c.decision.kept s.store i)

namespace Choice

variable {c : Choice} {i : Nat} {l : Literal} {s : Space} {b : Brancher}

/-- The literals of a choice speak of its variable. -/
theorem ref_of_literal? (h : c.literal? i = some l) : l.ref = c.decision.ref := by
  obtain ⟨brancher, decision⟩ := c
  cases decision with
  | int position x split breaksSymmetries =>
    cases breaksSymmetries with
    | true => cases h
    | false =>
      obtain ⟨relation, v, rfl, -⟩ := Split.exists_of_literal? h
      rfl
  | set j v =>
    cases h
    rfl
  | float j v => cases h

/-- To commit an alternative of a proper decision keeps a part, and nothing else changes. -/
theorem commits_of_splits (hs : s.state.Ready) (hb : s.branchers.get? c.brancher = some b)
    (hplain : b.Plain s.store) (hmakes : b.Makes s.store c.decision)
    (hsplits : c.decision.Splits s.store) (hi : i < c.alternatives) :
    Yields δ (s.commit c i) fun s' =>
      s'.isFailed = false ∧ s.AltersOnly c.decision.ref s' ∧
        c.decision.possible s'.store = c.decision.kept s.store i := by
  unfold Space.commit
  have halive : s.isFailed = false := hs.alive
  rw [if_neg (not_le.2 hi), if_neg (by simp [halive]), Table.fetch_eq_ok.2 hb]
  rw [Choice.alternatives_eq] at hi
  have hcommit : Yields δ (b.commit c.decision i s.state) _ :=
    Brancher.commit_law hs hplain hmakes hi
  refine hcommit.bind fun r hr => ?_
  obtain ⟨outcome, state⟩ := r
  cases outcome with
  | error failure =>
    -- Some assignment is kept, and so the brancher has not failed.
    obtain ⟨a, ha, hadmits⟩ := hsplits.exists_assignment i hi
    exact absurd (Decision.covers_box.2 hadmits) (hr a.box ha.sound ha.box)
  | ok b' =>
    obtain ⟨rfl, hadvances, hiff⟩ := hr
    have hsound := hadvances.sound hs.sound
    refine Yields.pure ⟨hadvances.failed.trans halive, ⟨?_, ?_⟩, ?_⟩
    · obtain ⟨store, watches, queue, costs, failed⟩ := state
      obtain ⟨-, -, rfl, rfl, rfl⟩ := hadvances
      dsimp only
      rw [Table.set_of_get? hb]
    · exact Decision.agreeBeside hsound hadvances.store hiff hs.sound
    · exact Decision.possible_eq_kept hsound hadvances.store hiff

theorem partitions_of_splits (hs : s.state.Ready) (hb : s.branchers.get? c.brancher = some b)
    (hplain : b.Plain s.store) (hmakes : b.Makes s.store c.decision)
    (hexpressible : c.decision.Expressible) (hsplits : c.decision.Splits s.store) :
    c.Partitions s where
  two_le := c.alternatives_eq ▸ hsplits.two_le
  isPartition := c.alternatives_eq ▸ hsplits.isPartition hs.sound
  commits i hi := commits_of_splits hs hb hplain hmakes hsplits hi
  literal i hi := by
    obtain ⟨l, hl⟩ := exists_literal hexpressible hi
    refine ⟨l, hl, ref_of_literal? hl, fun a ha => ?_⟩
    rw [Decision.read_mem_kept ha, ← Decision.covers_box]
    exact (mem_keeps_iff hl).symm

end Choice

namespace Space

variable {s s₁ : Space} {b : Brancher}

/-- A brancher that has something to decide was asked for its status last. -/
theorem exists_of_advance {store : Store} {candidates : List (Brancher × Nat)}
    {branchers branchers' : Table Brancher} {active active' : Nat}
    (h : advance store candidates branchers active = .ok (true, branchers', active'))
    (hcandidates : ∀ i c, candidates[i]? = some c → c.2 = active + i ∧ c.2 < branchers.size) :
    ∃ b, branchers'.get? active' = some b ∧ b.status store = .ok (true, b) := by
  induction candidates generalizing branchers active with
  | nil => cases h
  | cons candidate rest ih =>
    obtain ⟨b, position⟩ := candidate
    obtain ⟨rfl, hlt⟩ := hcandidates 0 _ rfl
    obtain ⟨⟨isOpen, b'⟩, hstatus, h⟩ := Yields.exists_of_bind h
    cases isOpen with
    | true =>
      cases h
      refine ⟨b', ?_, Brancher.status_of_status hstatus⟩
      show (branchers.set position b').get? position = some b'
      rw [Table.get?_set, if_pos rfl, if_pos hlt]
    | false =>
      refine ih h fun i c hc => ?_
      obtain ⟨hposition, hlt'⟩ := hcandidates (i + 1) c hc
      exact ⟨by omega, by rwa [Table.size_set]⟩

/-- In a space that has to be split, the active brancher has something to decide. -/
theorem exists_of_status_branch (h : s.status.Returns (.branch, s₁)) :
    ∃ b, s₁.branchers.get? s₁.active = some b ∧ b.status s₁.store = .ok (true, b) := by
  obtain ⟨s', -, h⟩ := Journaled.exists_of_returns_bind h
  by_cases hf : s'.isFailed = true
  · rw [if_pos hf] at h
    cases Journaled.of_returns_pure h
  · rw [if_neg hf] at h
    obtain ⟨⟨isOpen, branchers, active⟩, hadvance, h⟩ := Journaled.exists_of_returns_bind h
    cases isOpen with
    | false => cases Journaled.of_returns_pure h
    | true =>
      cases Journaled.of_returns_pure h
      refine exists_of_advance (Journaled.of_returns_lift hadvance) fun i c hc => ?_
      rw [List.getElem?_drop] at hc
      have hposition := List.mem_zipIdx (List.mem_of_getElem? hc)
      have hindex : c.2 = s'.active + i := by
        rw [List.getElem?_zipIdx] at hc
        obtain ⟨b, -, rfl⟩ := Option.map_eq_some_iff.1 hc
        exact Nat.zero_add _
      have hsize : c.2 < s'.branchers.toList.length := by omega
      exact ⟨hindex, hsize⟩

/-- **Choices partition a node.** The choice of a brancher of integers without symmetries, or of
sets, shares out what its variable can be among its alternatives, both for the space that was asked
for the choice and for the one that the choice has left. -/
theorem Reachable.choice_partitions (hs : s.Reachable fun _ _ => True)
    (hstatus : s.status.Returns (.branch, s₁)) (hb : s₁.branchers.get? s₁.active = some b)
    (hplain : b.Plain s₁.store) :
    Yields False s₁.choice fun r => r.1.Partitions s₁ ∧ r.1.Partitions r.2 := by
  have hsound := ((hs.step (o := .status) trivial ⟨_, hstatus⟩).in_order).1
  have halive : s₁.isFailed = false := by
    by_contra hf
    cases (isFailed_of_status hstatus).1 (by simpa using hf)
  have hready : s₁.state.Ready := ⟨halive, hsound⟩
  have hlt : s₁.active < s₁.branchers.size := (Array.getElem?_eq_some_iff.1 hb).1
  obtain ⟨b', hb', hopen⟩ := exists_of_status_branch hstatus
  obtain rfl := Option.some.inj (hb'.symm.trans hb)
  have hopen := ((Brancher.yields_status (δ := False) hsound hplain).of_ok hopen).1 rfl
  unfold Space.choice
  rw [if_neg (by simp [halive, hlt]), Table.fetch_eq_ok.2 hb]
  refine (Brancher.yields_decide hsound hplain hopen).bind fun r hr => ?_
  obtain ⟨decision, b'⟩ := r
  obtain ⟨hmakes, hexpressible, hsplits, hbase, -⟩ := hr
  have halternatives := Choice.alternatives_eq ⟨s₁.active, decision⟩
  dsimp only at halternatives hbase ⊢
  rw [if_neg (by rw [halternatives]; exact not_lt.2 hsplits.two_le)]
  refine Yields.pure ⟨?_, ?_⟩
  · exact Choice.partitions_of_splits hready hb hplain hmakes hexpressible hsplits
  · have hset : (s₁.branchers.set s₁.active b').get? s₁.active = some b' := by
      rw [Table.get?_set, if_pos rfl, if_pos hlt]
    have hplain' : b'.Plain s₁.store :=
      Brancher.plain_base.1 (hbase ▸ Brancher.plain_base.2 hplain)
    exact Choice.partitions_of_splits hready hset hplain' (hmakes.congr hbase rfl rfl)
      hexpressible hsplits

instance (store : Store) (b : Brancher) : Decidable (b.Plain store) :=
  match b with
  | .int b => inferInstanceAs
      (Decidable (b.symmetries = [] ∧ ∀ x ∈ b.vars.toList, x.index < store.ints.size))
  | .set vars _ => inferInstanceAs (Decidable (∀ i ∈ vars.toList, i < store.sets.size))
  | .float _ _ _ => inferInstanceAs (Decidable False)

/-- A variable with holes in its domain, and a brancher on a view that turns its values around. -/
def turning : List Operation :=
  [.newIntOfValues [1, 4, 6, 9], .newInt 0 1,
    .branch (.int ⟨⟨#[.root 1, .affine (.root 0) (-2) 3]⟩, 0, .antiFirstFail, .reverseSplit, []⟩),
    .post (.notEquals (.root 0) (.root 1) 0)]

/-- The values of the view are split at one that it does not have. -/
theorem Reachable.choice_partitions_turning :
    ∃ (s s₁ : Space) (b : Brancher), s.Reachable (fun _ _ => True) ∧
      s.status.Returns (.branch, s₁) ∧ s₁.branchers.get? s₁.active = some b ∧
      b.Plain s₁.store ∧ (s₁.choice.toOption.map fun r => r.1.literal? 1) =
        some (some (.comparison (.affine (.root 0) (-2) 3) .atMost (-7))) ∧
      Yields False s₁.choice fun r => r.1.Partitions s₁ ∧ r.1.Partitions r.2 := by
  have hrun : ((ofPolicy .costOrdered).performAll? (fun _ _ => true) turning).any (fun s =>
      s.status.check fun r => r.1 = .branch && (r.2.branchers.get? r.2.active).any fun b =>
        decide (b.Plain r.2.store ∧ (r.2.choice.toOption.map fun r => r.1.literal? 1) =
          some (some (.comparison (.affine (.root 0) (-2) 3) .atMost (-7))))) = true := by
    decide +kernel
  obtain ⟨s, hs, hrun⟩ := (Option.any_eq_true ..).1 hrun
  obtain ⟨⟨status, s₁⟩, hstatus, hrun⟩ := Journaled.exists_of_check hrun
  obtain ⟨hbranch, hrun⟩ := Bool.and_eq_true_iff.1 hrun
  obtain rfl : status = .branch := of_decide_eq_true hbranch
  obtain ⟨b, hb, hproperty⟩ := (Option.any_eq_true ..).1 hrun
  obtain ⟨hplain, hliteral⟩ := of_decide_eq_true hproperty
  have hreachable : s.Reachable fun _ _ => True :=
    (Reachable.empty .costOrdered).performAll? (fun _ _ _ => trivial) hs
  exact ⟨s, s₁, b, hreachable, hstatus, hb, hplain, hliteral,
    hreachable.choice_partitions hstatus hb hplain⟩

end Space

end ConstraintSearch
