import Mathlib.Data.Set.Card
import ConstraintSearch.Proofs.Search.Trail

/-!
# Frontiers

What a depth-first search has still to explore: the node that is explored next, and the parts that
are left at the forks of the trail to it.

* `Frontier.pending`: the solutions that are not yet found;
* `Frontier.bound`: a bound for the number of nodes. A node has at most as many alternatives as
  there are values, and each of them keeps fewer assignments;
* `Frontier.Le`, `Frontier.Lt`: no solution is lost or found again, and not more, or fewer, nodes
  are left;
* `Frontier.Follows`: how a search gets to the node that it explores next.
-/

namespace ConstraintSearch

variable {δ : Prop} {t : Tree} {mark : Nat}

/-! ### The work below a node -/

/-- The assignments of the region. -/
def Tree.points (t : Tree) (Q : Set Box) : Set Assignment := {a | a.Within t.root ∧ a.box ∈ Q}

/-- A bound for the number of nodes of a subtree. -/
noncomputable def Tree.nodeBound (t : Tree) (Q : Set Box) : Nat :=
  (Word.count 32 + 1) ^ (t.points Q).ncard

theorem Tree.nodeBound_pos (t : Tree) (Q : Set Box) : 0 < t.nodeBound Q :=
  Nat.pow_pos (Nat.succ_pos _)

theorem Tree.finite_points (hroot : t.root.Sound) (Q : Set Box) : (t.points Q).Finite :=
  (Store.finite_assignments hroot).subset fun _ ha => ha.1

/-- An alternative leaves fewer assignments than there were before. -/
theorem Tree.Offers.ncard_points_lt {Q : Set Box} {c : Choice} (h : t.Offers Q c)
    (hroot : t.root.Sound) {i : Nat} (hi : i < c.alternatives) :
    (t.points (Q ∩ c.keeps i)).ncard < (t.points Q).ncard := by
  obtain ⟨a, ha, hmem, hnot⟩ := h.exists_not_keeps hi
  refine Set.ncard_lt_ncard ⟨fun b hb => ⟨hb.1, hb.2.1⟩, fun hsubset => hnot ?_⟩
    (t.finite_points hroot _)
  have hpart : a ∈ t.points (Q ∩ c.keeps i) := hsubset ⟨ha, hmem⟩
  exact hpart.2.2

namespace Fork

variable {f g : Fork}

/-- A bound for the number of nodes below alternatives that are not yet explored. -/
noncomputable def bound (t : Tree) (f : Fork) : Nat :=
  (f.edge.last - f.edge.alternative) * (Word.count 32 + 1) ^ ((t.points f.region).ncard - 1)

theorem Alike.bound (h : g.Alike f) : g.bound t = f.bound t := by
  unfold Fork.bound
  rw [h.remaining, h.region]

namespace Sound

/-- An alternative leaves less than there was before. -/
theorem nodeBound_part_le (h : f.Sound t) (hroot : t.root.Sound) {i : Nat}
    (hi : i < f.edge.choice.alternatives) :
    t.nodeBound (f.part i) ≤ (Word.count 32 + 1) ^ ((t.points f.region).ncard - 1) :=
  Nat.pow_le_pow_right (Nat.succ_pos _) (Nat.le_sub_one_of_lt (h.offers.ncard_points_lt hroot hi))

/-- The subtrees of a node together are smaller than the bound for the node. -/
theorem bound_add_lt (h : f.Sound t) (hroot : t.root.Sound) (h0 : f.edge.alternative = 0) :
    f.bound t + t.nodeBound f.below < t.nodeBound f.region := by
  obtain ⟨a, ha, hmem, -⟩ := h.offers.exists_not_keeps h.chosen_lt
  have hpos : 0 < (t.points f.region).ncard :=
    (Set.ncard_pos (t.finite_points hroot _)).2 ⟨a, ha, hmem⟩
  have hbelow := h.nodeBound_part_le hroot h.chosen_lt
  have hcount := h.offers.le_count
  have hlast := h.last
  have hpow : 0 < (Word.count 32 + 1) ^ ((t.points f.region).ncard - 1) :=
    Nat.pow_pos (Nat.succ_pos _)
  have hregion : t.nodeBound f.region =
      (Word.count 32 + 1) ^ ((t.points f.region).ncard - 1) * (Word.count 32 + 1) := by
    rw [← Nat.pow_succ, Nat.succ_eq_add_one, Nat.sub_add_cancel hpos]
    rfl
  unfold bound
  rw [h0, hregion, Nat.sub_zero]
  change t.nodeBound f.below ≤ _ at hbelow
  generalize (Word.count 32 + 1) ^ ((t.points f.region).ncard - 1) = m at *
  calc f.edge.last * m + t.nodeBound f.below
      ≤ f.edge.last * m + m := Nat.add_le_add_left hbelow _
    _ = m * (f.edge.last + 1) := by ring
    _ ≤ m * f.edge.choice.alternatives := Nat.mul_le_mul_left _ hlast
    _ ≤ m * Word.count 32 := Nat.mul_le_mul_left _ hcount
    _ < m * (Word.count 32 + 1) := Nat.mul_lt_mul_of_pos_left (Nat.lt_succ_self _) hpow

/-- The next alternative was counted. -/
theorem bound_next_add_le (h : f.Sound t) (hroot : t.root.Sound)
    (hr : f.edge.isRightmost = false) :
    f.next.bound t + t.nodeBound f.next.below ≤ f.bound t := by
  have hbelow := (h.next hr).nodeBound_part_le hroot (h.next hr).chosen_lt
  have hlt : f.edge.alternative < f.edge.last := not_le.1 (of_decide_eq_false hr)
  change t.nodeBound f.next.below ≤ (Word.count 32 + 1) ^ ((t.points f.region).ncard - 1) at hbelow
  show (f.edge.last - (f.edge.alternative + 1)) *
      (Word.count 32 + 1) ^ ((t.points f.region).ncard - 1) + t.nodeBound f.next.below ≤
    (f.edge.last - f.edge.alternative) * _
  have hsplit : f.edge.last - f.edge.alternative = f.edge.last - (f.edge.alternative + 1) + 1 := by
    omega
  rw [hsplit, Nat.succ_mul]
  exact Nat.add_le_add_left hbelow _

end Sound

end Fork

/-! ### What is left to explore -/

/-- The trail of a node, and the region of the node that is explored next. -/
structure Frontier where
  trail : List Fork
  ahead : Option (Set Box)

namespace Frontier

variable {f g : Fork} {trail trail' above deeper : List Fork} {Q : Set Box}
  {ahead : Option (Set Box)} {a : Assignment} {F G H : Frontier}

/-- The node below the first fork is explored next. -/
def ofTrail (trail : List Fork) : Frontier := ⟨trail, trail.head?.map Fork.below⟩

/-- The region ahead, and the parts that are left. -/
def region (F : Frontier) : Set Box :=
  {B | (∃ Q ∈ F.ahead, B ∈ Q) ∨ ∃ f ∈ F.trail, B ∈ f.left}

/-- The solutions that are not yet found. -/
def pending (t : Tree) (F : Frontier) : Set Assignment := {a | t.Solution a ∧ a.box ∈ F.region}

/-- A bound for the number of nodes that are not yet explored. -/
noncomputable def bound (t : Tree) (F : Frontier) : Nat :=
  (F.trail.map (Fork.bound t)).sum + (F.ahead.map t.nodeBound).getD 0

/-- No solution is lost or found again, and not more nodes are left. -/
structure Le (t : Tree) (F G : Frontier) : Prop where
  pending : F.pending t = G.pending t
  bound : F.bound t ≤ G.bound t

theorem Le.refl (t : Tree) (F : Frontier) : F.Le t F := ⟨rfl, le_refl _⟩

theorem Le.trans (h : F.Le t G) (h' : G.Le t H) : F.Le t H :=
  ⟨h.pending.trans h'.pending, h.bound.trans h'.bound⟩

/-- No solution is lost or found again, and fewer nodes are left. -/
structure Lt (t : Tree) (F G : Frontier) : Prop where
  pending : F.pending t = G.pending t
  bound : F.bound t < G.bound t

theorem Le.trans_lt (h : F.Le t G) (h' : G.Lt t H) : F.Lt t H :=
  ⟨h.pending.trans h'.pending, h.bound.trans_lt h'.bound⟩

theorem Lt.trans_le (h : F.Lt t G) (h' : G.Le t H) : F.Lt t H :=
  ⟨h.pending.trans h'.pending, h.bound.trans_le h'.bound⟩

theorem pending_congr (h : ∀ a : Assignment, t.Solution a → (a.box ∈ F.region ↔ a.box ∈ G.region)) :
    F.pending t = G.pending t :=
  Set.ext fun a => and_congr_right (h a)

theorem mem_pending (ha : t.Solution a) : a ∈ F.pending t ↔ a.box ∈ F.region := and_iff_right ha

theorem region_nil (ahead : Option (Set Box)) (B : Box) :
    B ∈ region ⟨[], ahead⟩ ↔ ∃ Q ∈ ahead, B ∈ Q := by
  refine or_iff_left ?_
  rintro ⟨f, hf, -⟩
  cases hf

/-- Nothing is left. -/
theorem not_mem_region (B : Box) : B ∉ region ⟨[], none⟩ := by
  rw [region_nil]
  rintro ⟨Q, hQ, -⟩
  cases hQ

/-- Nothing is pending once nothing is left. -/
theorem pending_nil (t : Tree) : pending t ⟨[], none⟩ = ∅ :=
  Set.eq_empty_of_forall_notMem fun a ha => not_mem_region a.box ha.2

/-- A fork without solutions may be left. -/
theorem le_cons (hleft : ∀ B ∈ f.left, ¬t.Wanted B) (ahead : Option (Set Box)) :
    Le t ⟨trail, ahead⟩ ⟨f :: trail, ahead⟩ := by
  refine ⟨pending_congr fun a ha => ?_, ?_⟩
  · have hnot : a.box ∉ f.left := fun hmem => hleft _ hmem ha.2
    simp [region, hnot]
  · simp only [bound, List.map_cons, List.sum_cons]
    omega

/-- To advance leaves the solutions behind the node that was explored. -/
theorem ofTrail_advanced_le (h : Trail δ t mark trail) (hroot : t.root.Sound) :
    (ofTrail (advanced trail)).Le t ⟨trail, none⟩ := by
  induction h with
  | nil => exact .refl t _
  | @cons f trail hf _ _ _ _ ih =>
    unfold advanced
    by_cases hr : f.edge.isRightmost = true
    · rw [if_pos hr]
      exact ih.trans (le_cons (fun B hB => absurd hB (Fork.not_mem_left_of_isRightmost hr)) none)
    · rw [if_neg hr]
      have hr : f.edge.isRightmost = false := by simpa using hr
      refine ⟨pending_congr fun a _ => ?_, ?_⟩
      · simp [region, ofTrail, Fork.mem_left_iff hr, or_assoc]
      · have hle := hf.bound_next_add_le hroot hr
        simp only [bound, ofTrail, List.map_cons, List.sum_cons, List.head?_cons, Option.map_some,
          Option.map_none, Option.getD_some, Option.getD_none]
        omega

theorem bound_lt_of_ahead (trail : List Fork) (Q : Set Box) :
    bound t ⟨trail, none⟩ < bound t ⟨trail, some Q⟩ :=
  Nat.add_lt_add_left (t.nodeBound_pos Q) _

/-- A node without solutions is explored. -/
theorem lt_of_failed (hnone : ∀ B ∈ Q, ¬t.Wanted B) : Lt t ⟨trail, none⟩ ⟨trail, some Q⟩ := by
  refine ⟨pending_congr fun a ha => ?_, bound_lt_of_ahead trail Q⟩
  have hnot : a.box ∉ Q := fun hmem => hnone _ hmem ha.2
  simp [region, hnot]

/-- A node with one solution is explored. -/
theorem pending_of_solved (h : Trail δ t mark trail) (hQ : Nested trail Q)
    (hsolution : ∀ b : Assignment, b.box ∈ Q ∧ t.Solution b ↔ b = a) :
    pending t ⟨trail, some Q⟩ = insert a (pending t ⟨trail, none⟩) ∧
      a ∉ pending t ⟨trail, none⟩ := by
  obtain ⟨hmem, ha⟩ := (hsolution a).2 rfl
  refine ⟨Set.ext fun b => ?_, ?_⟩
  · rw [Set.mem_insert_iff, ← hsolution b]
    simp only [pending, region, Set.mem_ofPred_eq, Option.mem_def, reduceCtorEq, false_and,
      exists_false, false_or, Option.some.injEq, exists_eq_left']
    tauto
  · rintro ⟨-, ⟨Q', hQ', -⟩ | ⟨f, hf, hleft⟩⟩
    · cases hQ'
    · exact (h.sound f hf).not_mem_left (h.subset_below hQ f hf hmem) hleft

/-- A node is split. -/
theorem lt_of_split (trail : List Fork) (hf : f.Sound t) (hroot : t.root.Sound)
    (h0 : f.edge.alternative = 0) (hfull : f.edge.last + 1 = f.edge.choice.alternatives) :
    Lt t ⟨f :: trail, some f.below⟩ ⟨trail, some f.region⟩ := by
  refine ⟨pending_congr fun a ha => ?_, ?_⟩
  · have hchosen : f.chosen = 0 := by
      unfold Fork.chosen
      omega
    have hregion : a.box ∈ f.region ↔ a.box ∈ f.below ∨ a.box ∈ f.left := by
      constructor
      · intro hmem
        obtain ⟨i, hi, hkeeps⟩ := hf.offers.exists_keeps ha hmem
        rcases Nat.eq_zero_or_pos i with rfl | hpos
        · left
          show a.box ∈ f.part f.chosen
          rw [hchosen]
          exact ⟨hmem, hkeeps⟩
        · exact .inr ⟨i, h0 ▸ hpos, by omega, hmem, hkeeps⟩
      · rintro (hmem | hmem)
        · exact f.below_subset hmem
        · exact f.left_subset hmem
    simp [region, hregion, or_assoc]
  · have hlt := hf.bound_add_lt hroot h0
    simp only [bound, List.map_cons, List.sum_cons, Option.map_some, Option.getD_some]
    omega

/-- A fork without solutions is left, with all that lies below it. -/
theorem le_of_failed (h : Trail δ t mark (deeper ++ f :: trail))
    (hnone : ∀ B ∈ f.region, ¬t.Wanted B) :
    Le t ⟨trail, none⟩ (ofTrail (deeper ++ f :: trail)) := by
  have hsubset := h.region_subset
  refine ⟨pending_congr fun a ha => ?_, ?_⟩
  · have hregion {g : Fork} (hg : g ∈ deeper ++ [f]) : a.box ∉ g.region := fun hmem =>
      hnone _ (hsubset g hg hmem) ha.2
    constructor
    · rintro (⟨Q, hQ, -⟩ | ⟨g, hg, hleft⟩)
      · cases hQ
      · exact .inr ⟨g, List.mem_append_right _ (List.mem_cons_of_mem _ hg), hleft⟩
    · rintro (⟨Q, hQ, hmem⟩ | ⟨g, hg, hleft⟩)
      · obtain ⟨g, hg, rfl⟩ := Option.map_eq_some_iff.1 hQ
        have hg : g ∈ deeper ++ [f] := by
          cases deeper with
          | nil =>
            cases hg
            simp
          | cons d deeper =>
            cases hg
            simp
        exact absurd (g.below_subset hmem) (hregion hg)
      · have hsplit : deeper ++ f :: trail = (deeper ++ [f]) ++ trail := by simp
        change g ∈ deeper ++ f :: trail at hg
        rw [hsplit] at hg
        rcases List.mem_append.1 hg with hg | hg
        · exact absurd (g.left_subset hleft) (hregion hg)
        · exact .inr ⟨g, hg, hleft⟩
  · simp only [bound, ofTrail, List.map_append, List.sum_append, List.map_cons, List.sum_cons,
      Option.map_none, Option.getD_none]
    omega

/-- Copies change nothing of what is left. -/
theorem le_of_alike (h : AlikeTrails trail' trail) (ahead : Option (Set Box)) :
    Le t ⟨trail', ahead⟩ ⟨trail, ahead⟩ := by
  have hleft (B : Box) : (∃ f ∈ trail', B ∈ f.left) ↔ ∃ f ∈ trail, B ∈ f.left := by
    unfold AlikeTrails at h
    induction h with
    | nil => exact Iff.rfl
    | cons hgf _ ih => simp only [List.exists_mem_cons_iff, hgf.left, ih]
  have hbound : trail'.map (Fork.bound t) = trail.map (Fork.bound t) := by
    unfold AlikeTrails at h
    clear hleft
    induction h with
    | nil => rfl
    | cons hgf _ ih => rw [List.map_cons, List.map_cons, hgf.bound, ih]
  refine ⟨pending_congr fun a _ => or_congr_right (hleft _), ?_⟩
  unfold bound
  dsimp only
  rw [hbound]

theorem vacated_le (h : Trail δ t mark trail) (ahead : Option (Set Box)) :
    Le t ⟨vacated trail, ahead⟩ ⟨trail, ahead⟩ := by
  cases trail with
  | nil => exact .refl t _
  | cons f trail =>
    by_cases hu : f.edge.isUsedUp = true
    · rw [vacated_of_isUsedUp hu]
      refine le_cons (fun B hB => absurd hB ?_) ahead
      have hlt : f.edge.last < f.edge.alternative := of_decide_eq_true hu
      exact Fork.not_mem_left_of_isRightmost (decide_eq_true hlt.le)
    · rw [vacated_of_not_isUsedUp hu]
      exact .refl t _

/-! ### On the way to the next node -/

/-- The trail says that something was explored, unless all was. -/
def Logged (F : Frontier) : Prop := F = ⟨[], none⟩ ∨ ∃ f ∈ F.trail, 1 ≤ f.edge.alternative

theorem logged_advanced (trail : List Fork) : (ofTrail (advanced trail)).Logged := by
  rcases advanced_cases trail with h | ⟨deeper, f, above, -, -, h⟩
  · left
    rw [h]
    rfl
  · exact .inr ⟨f.next, by simp [ofTrail, h], Nat.succ_le_succ (Nat.zero_le _)⟩

theorem Logged.of_alike (h : F.Logged) (halike : AlikeTrails G.trail F.trail)
    (hahead : G.ahead = F.ahead) : G.Logged := by
  obtain ⟨trail', ahead⟩ := G
  obtain rfl : ahead = F.ahead := hahead
  rcases h with rfl | ⟨f, hf, hpos⟩
  · cases halike
    exact .inl rfl
  · obtain ⟨g, hg, hgf⟩ := halike.exists_mem' hf
    exact .inr ⟨g, hg, hpos.trans hgf.le⟩

/-- The search has got from the frontier `F` to `G` without exploring a node. Either the next node
was rebuilt, or a fork above it turned out to be without solutions; this is counted as a failure. -/
structure Follows (t : Tree) (F : Frontier) (fails fails' : Nat) (G : Frontier) : Prop where
  le : G.Le t F
  cases : (AlikeTrails G.trail F.trail ∧ G.ahead = F.ahead ∧ fails' = fails) ∨
    ((∃ f ∈ F.trail, ∀ B ∈ f.region, ¬t.Wanted B) ∧ G.Logged)

/-- After a fork without solutions, the search follows the trail above it. -/
theorem Follows.of_skip {n n' n'' : Nat}
    (halike : AlikeTrails (deeper ++ f :: above) trail)
    (h : Trail δ t mark (deeper ++ f :: above)) (hnone : ∀ B ∈ f.region, ¬t.Wanted B)
    (hroot : t.root.Sound) (hfollows : Follows t (ofTrail (advanced above)) n' n'' G) :
    Follows t (ofTrail trail) n n'' G := by
  have hsame : (ofTrail (deeper ++ f :: above)).Le t (ofTrail trail) := by
    unfold ofTrail
    rw [halike.map_below]
    exact le_of_alike halike _
  have hle : (ofTrail (advanced above)).Le t (ofTrail trail) :=
    ((ofTrail_advanced_le h.of_append.tail hroot).trans (le_of_failed h hnone)).trans hsame
  refine ⟨hfollows.le.trans hle, .inr ⟨?_, ?_⟩⟩
  · obtain ⟨g, hg, hgf⟩ := halike.exists_mem (show f ∈ _ by simp)
    exact ⟨g, hg, hgf.region ▸ hnone⟩
  · rcases hfollows.cases with ⟨halike, hahead, -⟩ | ⟨-, hlogged⟩
    · exact (logged_advanced above).of_alike halike hahead
    · exact hlogged

end Frontier

end ConstraintSearch
