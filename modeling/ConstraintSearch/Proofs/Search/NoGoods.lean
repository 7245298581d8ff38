import ConstraintSearch.Proofs.Search.Frontier
import ConstraintSearch.Proofs.Search.Path

/-!
# The no-goods of a trail

What a path records of the explored part of the tree, as the levels of a constraint. The literals of
a choice say exactly what its alternatives keep, so that the levels refute what lies to the left of
the path and nothing else.

* `Choice.mem_keeps_iff`, `Choice.exists_literal`: the literals of a choice;
* `NoGoods.permits_levels`: what the levels of several edges permit;
* `Frontier.permits_of_pending`: no solution that is still to be found is excluded;
* `Frontier.pending_eq_permitted`: if all edges are recorded, then all others are excluded;
* `Trail.exists_not_permits`: the domains of a node with an explored alternative are excluded, also
  if all assignments below that alternative were excluded before.
-/

namespace ConstraintSearch

variable {δ : Prop}

/-! ### The literals of a choice -/

section Literals

variable {x : IntVar} {i : Nat} {l : Literal} {c : Choice} {F : Box}

/-- The literal of an alternative is a comparison that holds of the values that it keeps. -/
theorem Split.exists_of_literal? {split : Split} (h : split.literal? x i = some l) :
    ∃ relation v, l = .comparison x relation v ∧
      ∀ w, relation.Holds w v ↔ split.Admits w i := by
  cases split with
  | equal v => cases i <;> cases h <;> exact ⟨_, v, rfl, fun w => Iff.rfl⟩
  | atMost v =>
    cases i with
    | zero => cases h; exact ⟨_, v, rfl, fun w => Iff.rfl⟩
    | succ i =>
      obtain ⟨bound, hbound, rfl⟩ := Option.map_eq_some_iff.1 h
      obtain rfl := Option.some.inj (Option.ite_none_right_eq_some.1 hbound).2
      exact ⟨_, _, rfl, fun w => Int.add_one_le_iff⟩
  | atLeast v =>
    cases i with
    | zero => cases h; exact ⟨_, v, rfl, fun w => Iff.rfl⟩
    | succ i =>
      obtain ⟨bound, hbound, rfl⟩ := Option.map_eq_some_iff.1 h
      obtain rfl := Option.some.inj (Option.ite_none_right_eq_some.1 hbound).2
      exact ⟨_, _, rfl, fun w => Int.le_sub_one_iff⟩
  | values vs =>
    obtain ⟨v, hv, rfl⟩ := Option.map_eq_some_iff.1 h
    refine ⟨_, v, rfl, fun w => ?_⟩
    show w = v ↔ vs[i]? = some w
    rw [hv, Option.some.injEq, eq_comm]

theorem Split.exists_literal {split : Split} (h : split.Expressible) (hi : i < split.alternatives)
    (x : IntVar) : ∃ l, split.literal? x i = some l := by
  cases split with
  | equal v => cases i <;> exact ⟨_, rfl⟩
  | atMost v =>
    cases i with
    | zero => exact ⟨_, rfl⟩
    | succ i =>
      have hlt : v < Word.greatest := Int.add_one_le_iff.1 h.2
      exact ⟨.comparison x .atLeast (v + 1), by simp only [literal?, Word.succ?, if_pos hlt]; rfl⟩
  | atLeast v =>
    cases i with
    | zero => exact ⟨_, rfl⟩
    | succ i =>
      have hlt : Word.least < v := Int.le_sub_one_iff.1 h.1
      exact ⟨.comparison x .atMost (v - 1), by simp only [literal?, Word.pred?, if_pos hlt]; rfl⟩
  | values vs =>
    have hget : vs[i]? = some vs[i] := List.getElem?_eq_getElem hi
    exact ⟨.comparison x .equal vs[i], by simp only [literal?, hget]; rfl⟩

namespace Choice

/-- The literal of an alternative holds in the boxes that the alternative keeps. -/
theorem mem_keeps_iff (h : c.literal? i = some l) : F ∈ c.keeps i ↔ l.Holds F := by
  obtain ⟨brancher, decision⟩ := c
  cases decision with
  | int position x split breaksSymmetries =>
    cases breaksSymmetries with
    | true => cases h
    | false =>
      obtain ⟨relation, v, rfl, hiff⟩ := Split.exists_of_literal? h
      exact forall₂_congr fun u _ => (hiff _).symm
  | set j v =>
    cases h
    cases i <;> exact Iff.rfl
  | float j v => cases h

/-- The alternatives that can be written down as literals have one. -/
theorem exists_literal (h : c.decision.Expressible) (hi : i < c.alternatives) :
    ∃ l, c.literal? i = some l := by
  obtain ⟨brancher, decision⟩ := c
  cases decision with
  | int position x split breaksSymmetries =>
    obtain ⟨rfl, h⟩ := h
    exact Split.exists_literal h hi x
  | set j v => exact ⟨_, rfl⟩
  | float j v => exact h.elim

theorem admissible_of_literal? {s : Store} {b : Brancher} (hmakes : b.Makes s c.decision)
    (h : c.literal? i = some l) : l.Admissible δ s := by
  obtain ⟨brancher, decision⟩ := c
  cases decision with
  | int position x split breaksSymmetries =>
    cases breaksSymmetries with
    | true => cases h
    | false =>
      obtain ⟨relation, v, rfl, -⟩ := Split.exists_of_literal? h
      exact ⟨hmakes.2.1, .inl hmakes.2.2⟩
  | set j v =>
    cases h
    exact hmakes.2
  | float j v => cases h

end Choice

/-- An assignment decides every literal. -/
theorem Literal.refuted_box {a : Assignment} : l.Refuted a.box ↔ ¬l.Holds a.box := by
  cases l with
  | comparison x relation v =>
    refine ⟨fun h hholds => ?_, fun h u hu hholds => h ?_⟩
    · have hmem : a.ints x.index ∈ a.box.ints x.index := IntDomain.mem_singleton.2 rfl
      exact h _ hmem (hholds _ hmem)
    · intro w hw
      rwa [IntDomain.mem_singleton.1 hw, ← IntDomain.mem_singleton.1 hu]
  | membership j v included =>
    cases included with
    | true => exact Iff.rfl
    | false => exact not_not.symm

end Literals

/-! ### The levels of edges -/

namespace NoGoods

variable {levels tail tail' : List NoGoodLevel} {level : NoGoodLevel} {F : Box}
  {edges : List (Choice × Nat)}

theorem permits_append_congr (before : List NoGoodLevel)
    (h : Permits tail F ↔ Permits tail' F) :
    Permits (before ++ tail) F ↔ Permits (before ++ tail') F := by
  induction before with
  | nil => exact h
  | cons level before ih =>
    simp only [List.cons_append, Permits, ih]

/-- The levels that are cut off exclude nothing. -/
theorem permits_trimmed : Permits (trimmed levels) F ↔ Permits levels F := by
  induction levels using List.reverseRecOn with
  | nil => exact Iff.rfl
  | append_singleton levels level ih =>
    unfold trimmed at ih ⊢
    rw [List.reverse_concat, List.dropWhile_cons]
    by_cases hempty : level.explored = []
    · rw [hempty, List.isEmpty_nil, if_pos rfl, ih]
      have hnone : Permits [] F ↔ Permits [level] F := by simp [Permits, hempty]
      have happend := permits_append_congr levels hnone
      rwa [List.append_nil] at happend
    · rw [if_neg (by simpa using hempty)]
      dsimp only
      rw [List.reverse_cons, List.reverse_reverse]
      exact permits_append_congr levels (by simp [Permits])

/-- Below the alternatives that are taken, those that were explored are refuted. -/
theorem permits_levelsOf (h : ∀ e ∈ edges, ∃ l, e.1.literal? e.2 = some l) :
    Permits (levelsOf edges) F ↔ ∀ before c taken after, edges = before ++ (c, taken) :: after →
      (∀ e ∈ before, F ∈ e.1.keeps e.2) →
      ∀ l ∈ (List.range taken).filterMap c.literal?, l.Refuted F := by
  induction edges with
  | nil => simp [levelsOf, Permits]
  | cons e edges ih =>
    obtain ⟨c, taken⟩ := e
    obtain ⟨⟨l, hl⟩, hedges⟩ := List.forall_mem_cons.1 h
    -- The first edge is the one in question, or its taken alternative holds.
    have hsplit : (∀ before c' taken' after,
        (c, taken) :: edges = before ++ (c', taken') :: after →
        (∀ e ∈ before, F ∈ e.1.keeps e.2) →
        ∀ l ∈ (List.range taken').filterMap c'.literal?, l.Refuted F) ↔
        (∀ l ∈ (List.range taken).filterMap c.literal?, l.Refuted F) ∧
          (l.Holds F → Permits (levelsOf edges) F) := by
      rw [ih hedges]
      constructor
      · refine fun hall => ⟨hall [] c taken edges rfl (by simp), fun hholds before c' taken' after
          heq hbefore => ?_⟩
        refine hall ((c, taken) :: before) c' taken' after (by rw [heq]; rfl) ?_
        exact List.forall_mem_cons.2 ⟨(Choice.mem_keeps_iff hl).2 hholds, hbefore⟩
      · rintro ⟨hfirst, hrest⟩ before c' taken' after heq hbefore
        cases before with
        | nil =>
          cases heq
          exact hfirst
        | cons e before =>
          cases heq
          obtain ⟨hkeeps, hbefore⟩ := List.forall_mem_cons.1 hbefore
          exact hrest ((Choice.mem_keeps_iff hl).1 hkeeps) before c' taken' after rfl hbefore
    rw [hsplit]
    cases edges with
    | nil => simp [levelsOf, Permits]
    | cons e edges => simp [levelsOf, hl, Permits]

/-- What the levels of several edges permit. -/
theorem permits_levels {n : NoGoods} (h : ∀ e ∈ n.edges, ∃ l, e.1.literal? e.2 = some l) :
    Permits n.levels F ↔ ∀ before c taken after, n.edges = before ++ (c, taken) :: after →
      (∀ e ∈ before, F ∈ e.1.keeps e.2) →
      ∀ l ∈ (List.range taken).filterMap c.literal?, l.Refuted F :=
  permits_trimmed.trans (permits_levelsOf h)

/-- The literals of a level are those of an edge. -/
theorem exists_of_mem_levelsOf (h : level ∈ levelsOf edges) : ∃ e ∈ edges,
    (∀ l ∈ level.explored, ∃ i, e.1.literal? i = some l) ∧
      ∀ l ∈ level.taken, ∃ i, e.1.literal? i = some l := by
  induction edges with
  | nil => cases h
  | cons e edges ih =>
    obtain ⟨c, taken⟩ := e
    have hexplored : ∀ l ∈ (List.range taken).filterMap c.literal?, ∃ i, c.literal? i = some l :=
      fun l hl => (List.mem_filterMap.1 hl).imp fun i hi => hi.2
    have hlast : level = ⟨(List.range taken).filterMap c.literal?, none⟩ →
      ∃ e ∈ (c, taken) :: edges,
        (∀ l ∈ level.explored, ∃ i, e.1.literal? i = some l) ∧
          ∀ l ∈ level.taken, ∃ i, e.1.literal? i = some l := by
      rintro rfl
      exact ⟨_, List.mem_cons_self, hexplored, fun l hl => by cases hl⟩
    unfold levelsOf at h
    cases edges with
    | nil => exact hlast (List.mem_singleton.1 h)
    | cons e edges =>
      dsimp only at h
      cases hl : c.literal? taken with
      | none =>
        rw [hl] at h
        exact hlast (List.mem_singleton.1 h)
      | some l =>
        rw [hl] at h
        rcases List.mem_cons.1 h with rfl | h
        · refine ⟨_, List.mem_cons_self, hexplored, fun l' hl' => ⟨taken, ?_⟩⟩
          cases hl'
          exact hl
        · obtain ⟨e', he', hliterals⟩ := ih h
          exact ⟨e', List.mem_cons_of_mem _ he', hliterals⟩

theorem exists_of_mem_trimmed (h : level ∈ trimmed levels) : ∃ level' ∈ levels,
    level.explored = level'.explored ∧ ∀ l ∈ level.taken, l ∈ level'.taken := by
  have hsub : ∀ level' ∈ levels.reverse.dropWhile (·.explored.isEmpty), level' ∈ levels :=
    fun level' hlevel => List.mem_reverse.1 ((List.dropWhile_sublist _).subset hlevel)
  unfold trimmed at h
  cases hdrop : levels.reverse.dropWhile (·.explored.isEmpty) with
  | nil =>
    rw [hdrop] at h
    cases h
  | cons last before =>
    rw [hdrop] at h hsub
    rcases List.mem_cons.1 (List.mem_reverse.1 h) with rfl | h
    · exact ⟨last, hsub _ List.mem_cons_self, rfl, fun l hl => by cases hl⟩
    · exact ⟨level, hsub _ (List.mem_cons_of_mem _ h), rfl, fun l hl => hl⟩

/-- If the choices were made in stores of this size, the variables of the levels exist. -/
theorem admissible_levels {n : NoGoods} {s : Store}
    (h : ∀ e ∈ n.edges, ∃ b : Brancher, b.Makes s e.1.decision) :
    ∀ level ∈ n.levels, level.Admissible δ s := by
  intro level hlevel
  obtain ⟨level', hlevel', hexplored, htaken⟩ := exists_of_mem_trimmed hlevel
  obtain ⟨e, he, hexplored', htaken'⟩ := exists_of_mem_levelsOf hlevel'
  obtain ⟨b, hmakes⟩ := h e he
  refine ⟨fun l hl => ?_, fun l hl => ?_⟩
  · obtain ⟨i, hi⟩ := hexplored' l (hexplored ▸ hl)
    exact Choice.admissible_of_literal? hmakes hi
  · obtain ⟨i, hi⟩ := htaken' l (htaken l hl)
    exact Choice.admissible_of_literal? hmakes hi

end NoGoods

/-! ### The levels of a trail -/

section Trails

variable {t : Tree} {mark limit : Nat} {trail above deeper : List Fork} {f : Fork} {p : Path}
  {F : Frontier} {B : Box}

/-- The edges of the no-goods are those of the forks above the no-good depth. -/
theorem Path.Carries.edges_noGoods (h : p.Carries (some limit) trail) : p.noGoods.edges =
    (trail.reverse.take limit).map fun f => (f.edge.choice, f.edge.taken) := by
  unfold Path.noGoods
  rw [h.edges, h.noGoodDepth limit rfl, ← List.map_reverse, ← List.map_take, List.map_map]
  rfl

/-- The choices of a trail can be written down as literals, and were made for the tree. -/
theorem Path.Carries.of_mem_noGoods (h : p.Carries (some limit) trail)
    (htrail : Trail δ t mark trail) :
    ∀ e ∈ p.noGoods.edges, (∃ l, e.1.literal? e.2 = some l) ∧
      ∃ b : Brancher, b.Makes t.root e.1.decision := by
  rw [h.edges_noGoods]
  intro e he
  obtain ⟨f, hf, rfl⟩ := List.mem_map.1 he
  have hsound := htrail.sound f (List.mem_reverse.1 (List.mem_of_mem_take hf))
  obtain ⟨b, -, hmakes⟩ := hsound.offers.makes
  exact ⟨Choice.exists_literal hsound.offers.expressible hsound.taken_lt, b, hmakes⟩

/-- The no-goods of a trail refute the alternatives that were explored at a fork, where those above
it are taken. -/
theorem Path.Carries.permits_iff (h : p.Carries (some limit) trail)
    (htrail : Trail δ t mark trail) :
    NoGoods.Permits p.noGoods.levels B ↔ ∀ deeper f above, trail = deeper ++ f :: above →
      above.length < limit → (∀ g ∈ above, B ∈ g.edge.choice.keeps g.edge.taken) →
      ∀ l ∈ (List.range f.edge.taken).filterMap f.edge.choice.literal?, l.Refuted B := by
  rw [NoGoods.permits_levels fun e he => (h.of_mem_noGoods htrail e he).1, h.edges_noGoods]
  constructor
  · rintro hall deeper f above rfl hlength habove
    have htake : (deeper ++ f :: above).reverse.take limit =
        above.reverse ++ f :: deeper.reverse.take (limit - above.length - 1) := by
      have hcons : limit - above.length = limit - above.length - 1 + 1 := by omega
      rw [List.reverse_append, List.reverse_cons, List.append_assoc, List.take_append,
        List.take_of_length_le (by simp; omega), List.length_reverse, List.singleton_append, hcons,
        List.take_succ_cons, Nat.add_sub_cancel]
    rw [htake, List.map_append, List.map_cons] at hall
    refine hall _ _ _ _ rfl fun e he => ?_
    obtain ⟨g, hg, rfl⟩ := List.mem_map.1 he
    exact habove g (List.mem_reverse.1 hg)
  · intro hall before c taken after heq hbefore
    obtain ⟨above, behind, htake, rfl, hbehind⟩ := List.map_eq_append_iff.1 heq
    obtain ⟨f, after, rfl, hf, -⟩ := List.map_eq_cons_iff.1 hbehind
    cases hf
    have hlength := List.length_take_le limit trail.reverse
    rw [htake, List.length_append, List.length_cons] at hlength
    obtain ⟨rest, hrest⟩ : ∃ rest, trail.reverse = above ++ f :: rest := by
      refine ⟨after ++ trail.reverse.drop limit, ?_⟩
      rw [← List.cons_append, ← List.append_assoc, ← htake, List.take_append_drop]
    refine hall rest.reverse f above.reverse ?_ (by rw [List.length_reverse]; omega) fun g hg => ?_
    · rw [← trail.reverse_reverse, hrest]
      simp
    · exact hbefore _ (List.mem_map_of_mem (List.mem_reverse.1 hg))

/-- The variables of the no-goods exist, and their views can be read backwards. -/
theorem Path.Carries.admissible_noGoods {δ' : Prop} (h : p.Carries (some limit) trail)
    (htrail : Trail δ t mark trail) : ∀ level ∈ p.noGoods.levels, level.Admissible δ' t.root :=
  NoGoods.admissible_levels fun e he => (h.of_mem_noGoods htrail e he).2

/-- A solution that is still to be found below a fork, or left there, is not kept by the
alternatives that were explored. -/
theorem Fork.Sound.refuted {a : Assignment} (hf : f.Sound t) (hused : f.edge.isUsedUp = false)
    (ha : a.box ∈ f.below ∨ a.box ∈ f.left) :
    ∀ l ∈ (List.range f.edge.taken).filterMap f.edge.choice.literal?, l.Refuted a.box := by
  intro l hl
  obtain ⟨i, hi, hliteral⟩ := List.mem_filterMap.1 hl
  rw [List.mem_range, hf.taken_eq hused] at hi
  have hchosen := hf.chosen_lt
  rw [Literal.refuted_box, ← Choice.mem_keeps_iff hliteral]
  intro hkeeps
  rcases ha with ha | ⟨j, hlt, hj, ha⟩
  · have := hf.offers.unique (hi.trans hchosen) hchosen hkeeps ha.2
    omega
  · have := hf.offers.unique (hi.trans hchosen) (hj.trans_lt hf.last) hkeeps ha.2
    unfold Fork.chosen at hi
    omega

/-- No solution that is still to be found is excluded by the no-goods. -/
theorem Frontier.permits_of_pending {R : Set Box} (htrail : Trail δ t mark F.trail)
    (hlinked : Linked R limit F.trail) (hnested : ∀ Q ∈ F.ahead, Nested F.trail Q)
    (hp : p.Carries (some limit) F.trail) {a : Assignment} (ha : a ∈ F.pending t) :
    NoGoods.Permits p.noGoods.levels a.box := by
  rw [hp.permits_iff htrail]
  intro deeper f above heq hlength habove
  have hf : f.Sound t := htrail.sound f (by simp [heq])
  rw [heq] at hlinked
  obtain ⟨hused, hfresh⟩ := List.forall_mem_cons.1 (hlinked.of_append.fresh hlength)
  refine hf.refuted hused ?_
  rcases ha.2 with ⟨Q, hQ, hmem⟩ | ⟨g, hg, hleft⟩
  · exact .inl (htrail.subset_below (hnested Q hQ) f (by simp [heq]) hmem)
  · rw [heq] at hg htrail
    rcases List.mem_append.1 hg with hg | hg
    · obtain ⟨deeper, between, rfl⟩ := List.append_of_mem hg
      rw [List.append_assoc, List.cons_append] at htrail
      exact .inl (htrail.region_subset_below f (by simp) (g.left_subset hleft))
    rcases List.mem_cons.1 hg with rfl | hg
    · exact .inr hleft
    · -- What is left above the fork is not kept by the alternative that is taken there.
      have hsound : g.Sound t := htrail.sound g (by simp [hg])
      have hbelow : a.box ∈ g.below :=
        ⟨g.left_subset hleft, hsound.taken_eq (hfresh g hg) ▸ habove g hg⟩
      exact absurd hleft (hsound.not_mem_left hbelow)

/-- Down to the limit, a solution that the no-goods permit is in the region below the trail, or left
at one of its forks. -/
theorem Path.Carries.mem_of_permits {a : Assignment} (h : p.Carries (some limit) trail)
    (htrail : Trail δ t mark trail) (hlinked : Linked t.whole limit trail)
    (hlimit : trail.length ≤ limit) (ha : t.Solution a)
    (hpermits : NoGoods.Permits p.noGoods.levels a.box) (heq : trail = deeper ++ above)
    {Q : Set Box} (hQ : Leads t.whole above.reverse Q) :
    (a.box ∈ Q ∧ ∀ g ∈ above, a.box ∈ g.edge.choice.keeps g.edge.taken) ∨
      ∃ g ∈ above, a.box ∈ g.left := by
  rw [h.permits_iff htrail] at hpermits
  induction above generalizing deeper Q with
  | nil =>
    rw [← leads_nil.1 hQ]
    exact .inl ⟨ha.mem_whole, by simp⟩
  | cons f above ih =>
    subst heq
    have hlength : above.length < limit := by
      simp only [List.length_append, List.length_cons] at hlimit
      omega
    have hf : f.Sound t := htrail.sound f (by simp)
    obtain ⟨hused, hfull, hregion⟩ := hlinked.of_append.head hlength
    rw [List.reverse_cons] at hQ
    obtain ⟨M, -, hM⟩ := leads_append.1 hQ
    obtain rfl : f.below = Q := leads_nil.1 (leads_cons.1 hM).2
    have hsplit : deeper ++ f :: above = (deeper ++ [f]) ++ above := by simp
    rcases ih hsplit hregion with ⟨hmem, habove⟩ | ⟨g, hg, hleft⟩
    · -- The alternative that keeps the solution is not one of the explored ones.
      obtain ⟨i, hi, hkeeps⟩ := hf.offers.exists_keeps ha hmem
      have htaken := hf.taken_eq hused
      rcases Nat.lt_trichotomy i f.edge.taken with hlt | rfl | hlt
      · obtain ⟨l, hl⟩ := Choice.exists_literal hf.offers.expressible hi
        have hrefuted := hpermits deeper f above rfl hlength habove l
          (List.mem_filterMap.2 ⟨i, List.mem_range.2 hlt, hl⟩)
        exact absurd ((Choice.mem_keeps_iff hl).1 hkeeps) (Literal.refuted_box.1 hrefuted)
      · exact .inl ⟨⟨hmem, htaken ▸ hkeeps⟩, List.forall_mem_cons.2 ⟨hkeeps, habove⟩⟩
      · rw [htaken] at hlt
        unfold Fork.chosen at hlt
        exact .inr ⟨f, List.mem_cons_self, i, by omega, by omega, hmem, hkeeps⟩
    · exact .inr ⟨g, List.mem_cons_of_mem _ hg, hleft⟩

/-- **The no-goods exclude what was explored, and nothing else.** Down to the limit, the solutions
that they permit are those that are still to be found. -/
theorem Frontier.pending_eq_permitted {Q : Set Box} (htrail : Trail δ t mark F.trail)
    (hlinked : Linked t.whole limit F.trail) (hp : p.Carries (some limit) F.trail)
    (hlimit : F.trail.length ≤ limit) (hahead : F.ahead = some Q) (hnested : Nested F.trail Q)
    (hQ : Leads t.whole F.trail.reverse Q) :
    F.pending t = {a | t.Solution a ∧ NoGoods.Permits p.noGoods.levels a.box} := by
  refine Set.ext fun a => ⟨fun ha => ⟨ha.1, ?_⟩, fun ⟨ha, hpermits⟩ => ⟨ha, ?_⟩⟩
  · refine Frontier.permits_of_pending htrail hlinked (fun Q' hQ' => ?_) hp ha
    cases hahead.symm.trans hQ'
    exact hnested
  · rcases hp.mem_of_permits htrail hlinked hlimit ha hpermits (List.nil_append _).symm hQ with
      ⟨hmem, -⟩ | hleft
    · exact .inl ⟨Q, hahead, hmem⟩
    · exact .inr hleft

/-- The no-goods exclude the domains of a node with an explored alternative. -/
theorem Trail.exists_not_permits {R : Set Box} (h : Trail δ t mark trail)
    (hlinked : Linked R limit trail) (hp : p.Carries (some limit) trail)
    (hlimit : trail.length ≤ limit) (hf : f ∈ trail) (hpos : 1 ≤ f.edge.alternative) :
    ∃ T, t.Settles f.region T ∧ ¬NoGoods.Permits p.noGoods.levels T.box := by
  obtain ⟨deeper, above, rfl⟩ := List.append_of_mem hf
  have hsound := h.sound f hf
  obtain ⟨T, hsettles, hsplits⟩ := hsound.offers.node
  refine ⟨T, hsettles, fun hpermits => ?_⟩
  rw [hp.permits_iff h] at hpermits
  have htwo := hsound.offers.two_le
  have htaken : 0 < f.edge.taken := by
    unfold Edge.taken
    omega
  obtain ⟨l, hl⟩ := Choice.exists_literal hsound.offers.expressible (i := 0) (by omega)
  have hmem : T.box ∈ f.region := hsettles.within _ hsettles.sound.box T.box_within
  have hrefuted := hpermits deeper f above rfl (by simp at hlimit; omega)
    (fun g hg => (h.sound g (by simp [hg])).taken_eq (hlinked.fresh hlimit g (by simp [hg])) ▸
      (h.region_subset_below g hg hmem).2) l
    (List.mem_filterMap.2 ⟨0, List.mem_range.2 htaken, hl⟩)
  -- The first alternative keeps an assignment of the domains.
  obtain ⟨a, ha, hadmits⟩ := hsplits.exists_assignment 0 (by rw [← Choice.alternatives_eq]; omega)
  obtain ⟨b, -, hmakes⟩ := hsound.offers.makes
  have hadmissible : l.Admissible True T := Choice.admissible_of_literal?
    (hmakes.congr rfl hsettles.narrows.size_ints hsettles.narrows.size_sets) hl
  refine Literal.refuted_box.1 (hrefuted.of_within hadmissible ha.box) ?_
  exact (Choice.mem_keeps_iff hl).1 (Decision.covers_box.2 hadmits)

end Trails

end ConstraintSearch
