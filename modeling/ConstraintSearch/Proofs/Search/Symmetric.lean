import ConstraintSearch.Proofs.Search.Engine
import ConstraintSearch.Proofs.Search.Pruning

/-!
# Exploration that breaks symmetries

A depth-first exploration with symmetries for its brancher. Wherever a second alternative is
committed, be it for the first time or when a node is rebuilt, the first one is explored: all that
is still looked for lies in the frontier, and the first alternative does not.

* `Fork.plain`, `Frontier.plain`: what is left of a fork and of a frontier without symmetries;
* `Fork.Explored`: nothing that is looked for lies in the alternatives before the chosen one;
* `Route`: the trail of an exploration that breaks symmetries;
* `Explorer.Sustains`, `Explorer.Awaits`, `Explorer.Prunes`: the invariant of the exploration;
* `Explorer.Sustains.rebuild_law`, `Explorer.Prunes.nextNode_law`, `Explorer.Sustains.explore_law`:
  the next node, and what becomes of it.
-/

namespace ConstraintSearch

variable {δ : Prop} {t : Tree} {b : IntBrancher} {mark : Nat} {e e' : Explorer} {s : Space}
  {f g : Fork} {trail trail' above deeper : List Fork} {Q R : Set Box} {a : Assignment}
  {ahead : Option (Set Box)} {F G : Frontier}

/-! ### Forks without symmetries -/

namespace Fork

/-- The fork without symmetries for the copy and the choice. -/
def plain (f : Fork) : Fork :=
  { f with edge := { f.edge with
      space := f.edge.space.map (·.breaking [])
      choice := f.edge.choice.marked false } }

theorem part_plain (f : Fork) : f.plain.part = f.part := by
  funext i
  exact congrArg (f.region ∩ ·) (f.edge.choice.keeps_marked false i)

theorem below_plain (f : Fork) : f.plain.below = f.below := congrFun f.part_plain f.chosen

theorem left_plain (f : Fork) : f.plain.left = f.left := by
  unfold left
  rw [part_plain]
  rfl

end Fork

theorem advanced_plain (trail : List Fork) :
    advanced (trail.map Fork.plain) = (advanced trail).map Fork.plain := by
  induction trail with
  | nil => rfl
  | cons f trail ih =>
    rw [List.map_cons]
    unfold advanced
    by_cases hr : f.edge.isRightmost = true
    · rw [if_pos hr, if_pos (show f.plain.edge.isRightmost = true from hr), ih]
    · rw [if_neg hr, if_neg (show ¬f.plain.edge.isRightmost = true from hr)]
      rfl

theorem vacated_plain (trail : List Fork) :
    vacated (trail.map Fork.plain) = (vacated trail).map Fork.plain := by
  cases trail with
  | nil => rfl
  | cons f trail =>
    rw [List.map_cons]
    by_cases hu : f.edge.isUsedUp = true
    · rw [vacated_of_isUsedUp hu]
      exact vacated_of_isUsedUp (f := f.plain) hu
    · rw [vacated_of_not_isUsedUp hu]
      exact vacated_of_not_isUsedUp (f := f.plain) hu

theorem rebuildable_plain : Rebuildable (trail.map Fork.plain) ↔ Rebuildable trail := by
  induction trail with
  | nil => exact Iff.rfl
  | cons f trail ih =>
    have hcopy : f.plain.edge.space.isSome = f.edge.space.isSome := Option.isSome_map
    constructor
    · intro h
      cases trail with
      | nil =>
        cases h with
        | copy h => exact .copy (hcopy ▸ h)
      | cons g trail =>
        cases h with
        | copy h => exact .copy (hcopy ▸ h)
        | step hregion hg h => exact .step (hregion.trans g.below_plain) hg (ih.1 h)
    · intro h
      cases h with
      | copy h => exact .copy (hcopy.trans h)
      | @step _ g trail hregion hg h => exact .step (hregion.trans g.below_plain.symm) hg (ih.2 h)

theorem head?_below_plain (trail : List Fork) :
    (trail.map Fork.plain).head?.map Fork.below = trail.head?.map Fork.below := by
  cases trail with
  | nil => rfl
  | cons f trail => exact congrArg some f.below_plain

theorem nested_plain : Nested (trail.map Fork.plain) Q ↔ Nested trail Q := by
  cases trail with
  | nil => exact Iff.rfl
  | cons f trail =>
    refine ⟨fun h g hg => ?_, fun h g hg => ?_⟩
    · cases hg
      exact f.below_plain ▸ h f.plain rfl
    · cases hg
      exact f.below_plain ▸ h f rfl

theorem anchored_of_plain (h : Anchored (trail.map Fork.plain) Q) : Anchored trail Q := by
  refine ⟨(head?_below_plain trail).symm.trans h.below, fun f hf => ?_,
    rebuildable_plain.1 h.rebuildable⟩
  refine h.fresh f.plain ?_
  rw [List.head?_map, Option.mem_def.1 hf]
  rfl

namespace Frontier

/-- The frontier without symmetries. -/
def plain (F : Frontier) : Frontier := ⟨F.trail.map Fork.plain, F.ahead⟩

theorem ofTrail_plain (trail : List Fork) :
    ofTrail (trail.map Fork.plain) = (ofTrail trail).plain :=
  congrArg (Frontier.mk _) (head?_below_plain trail)

theorem pending_plain (t : Tree) (F : Frontier) : F.plain.pending t = F.pending t := by
  refine pending_congr fun a _ => or_congr_right ?_
  show (∃ f ∈ F.trail.map Fork.plain, a.box ∈ f.left) ↔ _
  simp only [List.mem_map, exists_exists_and_eq_and, Fork.left_plain]

theorem bound_plain (t : Tree) (F : Frontier) : F.plain.bound t = F.bound t := by
  show ((F.trail.map Fork.plain).map (Fork.bound t)).sum + _ = _
  rw [List.map_map]
  rfl

theorem Le.of_plain (h : F.plain.Le t G.plain) : F.Le t G :=
  ⟨(pending_plain t F).symm.trans (h.pending.trans (pending_plain t G)),
    (bound_plain t F).symm.trans_le (h.bound.trans_eq (bound_plain t G))⟩

theorem Lt.of_plain (h : F.plain.Lt t G.plain) : F.Lt t G :=
  ⟨(pending_plain t F).symm.trans (h.pending.trans (pending_plain t G)),
    (bound_plain t F).symm.trans_lt (h.bound.trans_eq (bound_plain t G))⟩

/-- What was explored at a fork of the trail is not left. -/
theorem not_mem_region_of_lt (h : Trail δ t mark trail) (hQ : ∀ Q ∈ ahead, Nested trail Q)
    (hf : f ∈ trail) {i : Nat} (hi : i < f.chosen) (hmem : a.box ∈ f.part i) :
    a.box ∉ region ⟨trail, ahead⟩ := by
  induction h generalizing ahead with
  | nil => cases hf
  | @cons g trail hg hcopy hnested hrebuild h ih =>
    -- The box lies behind the fork `g` that is removed, or at it.
    suffices hout : a.box ∉ g.below ∧ a.box ∉ g.left ∧ ∀ d ∈ trail, a.box ∉ d.left by
      rintro (⟨Q, hahead, hin⟩ | ⟨d, hd, hin⟩)
      · exact hout.1 (hQ Q hahead g rfl hin)
      · rcases List.mem_cons.1 hd with rfl | hd
        · exact hout.2.1 hin
        · exact hout.2.2 d hd hin
    rcases List.mem_cons.1 hf with rfl | hf
    · have hlt := hi.trans hg.chosen_lt
      refine ⟨fun hbelow => ?_, ?_, fun d hd hleft => ?_⟩
      · exact hi.ne (hg.offers.unique hlt hg.chosen_lt hmem.2 hbelow.2)
      · rintro ⟨j, hj, hlast, hin⟩
        have heq := hg.offers.unique hlt (hlast.trans_lt hg.last) hmem.2 hin.2
        unfold Fork.chosen at hi
        omega
      · have hbelow := h.subset_below hnested d hd hmem.1
        exact (h.sound d hd).not_mem_left hbelow hleft
    · have hahead : ∀ Q ∈ some g.region, Nested trail Q := by
        rintro Q ⟨⟩
        exact hnested
      have hnot := ih hahead hf
      refine ⟨fun hbelow => hnot (.inl ⟨_, rfl, g.below_subset hbelow⟩),
        fun hleft => hnot (.inl ⟨_, rfl, g.left_subset hleft⟩), fun d hd hleft => ?_⟩
      exact hnot (.inr ⟨d, hd, hleft⟩)

end Frontier

/-! ### Trails of forks with symmetries -/

namespace Fork

/-- Nothing that is looked for lies in the alternatives before the chosen one. -/
def Explored (t : Tree) (f : Fork) : Prop := ∀ i < f.chosen, ∀ F ∈ f.part i, ¬t.Wanted F

/-- A fork that asks whether a variable has a value. Its copy stands for its region. -/
structure Equates (δ : Prop) (t : Tree) (b : IntBrancher) (f : Fork) : Prop where
  choice : ∃ p v, f.edge.choice.Equates b p v
  last : f.edge.last = 1
  sound : f.plain.Sound t
  copy : ∀ s ∈ f.edge.space, t.Breaks δ b s f.region

namespace Equates

/-- The fork of a node that is split. -/
theorem of_split {copy : Option Space} {c : Choice} {memory : Nat} {id : NodeId} {p : Nat} {v : Int}
    (hc : c.Equates b p v) (hoffers : t.Offers Q (c.marked false))
    (hcopy : ∀ s ∈ copy, t.Breaks δ b s Q)
    (hf : f = ⟨⟨copy, memory, c, 0, c.alternatives - 1, id⟩, Q⟩) : f.Equates δ t b := by
  have htwo := hc.alternatives_eq
  have hlast : f.edge.last = 1 := by
    rw [hf]
    show c.alternatives - 1 = 1
    omega
  subst hf
  refine ⟨⟨p, v, hc⟩, hlast, ⟨?_, Nat.zero_le _, hoffers⟩, hcopy⟩
  show c.alternatives - 1 < (c.marked false).alternatives
  rw [Choice.alternatives_marked]
  omega

theorem last_lt (h : f.Equates δ t b) : f.edge.last < f.edge.choice.alternatives := by
  obtain ⟨p, v, hc⟩ := h.choice
  rw [h.last, hc.alternatives_eq]
  exact Nat.one_lt_two

theorem taken_eq (h : f.Equates δ t b) : f.edge.taken = f.chosen := by
  obtain ⟨p, v, hc⟩ := h.choice
  unfold Edge.taken chosen
  rw [h.last, hc.alternatives_eq]

/-- Once what lies before it is explored, the chosen alternative leads to the node below the
fork. -/
theorem commit_law (ht : t.Symmetric δ b) (h : f.Equates δ t b) (hexplored : f.Explored t)
    (hs : t.Breaks δ b s f.region) :
    Yields δ (s.commit f.edge.choice f.chosen) (t.Breaks δ b · f.below) := by
  obtain ⟨p, v, hc⟩ := h.choice
  refine hs.commit_law ht hc h.sound.offers ?_ hexplored
  exact (Nat.min_le_right _ _).trans_lt h.last_lt

theorem retarget {goal : Set Box} (hgoal : goal ⊆ t.goal)
    (hbreaks : ∀ s Q, t.Breaks δ b s Q → Tree.Breaks δ { t with goal } b s Q)
    (h : f.Equates δ t b) : f.Equates δ { t with goal } b :=
  ⟨h.choice, h.last, ⟨h.sound.last, h.sound.le, h.sound.offers.retarget hgoal⟩,
    fun s hs => hbreaks s _ (h.copy s hs)⟩

end Equates

end Fork

/-- What the forks lead to is rebuilt with the symmetries that were left. -/
theorem replay_breaks_law {forks : List Fork} (ht : t.Symmetric δ b) (h : Leads Q forks R)
    (hforks : ∀ f ∈ forks, f.Equates δ t b ∧ f.Explored t) (hs : t.Breaks δ b s Q) :
    Yields δ (replay s (forks.map Fork.edge)) (t.Breaks δ b · R) := by
  induction h generalizing s with
  | nil => exact Yields.pure hs
  | @cons f forks _ _ ih =>
    obtain ⟨⟨hf, hexplored⟩, hforks⟩ := List.forall_mem_cons.1 hforks
    rw [List.map_cons]
    unfold replay Edge.commit
    rw [hf.taken_eq]
    exact (hf.commit_law ht hexplored hs).bind fun s hs => ih hforks hs

/-- The trail of an exploration that breaks symmetries. -/
structure Route (δ : Prop) (t : Tree) (b : IntBrancher) (trail : List Fork) : Prop where
  valid : Trail δ t trail.length (trail.map Fork.plain)
  forks : ∀ f ∈ trail, f.Equates δ t b

namespace Route

theorem of_trail (h : Trail δ t mark (trail.map Fork.plain))
    (hforks : ∀ f ∈ trail, f.Equates δ t b) : Route δ t b trail := by
  have hvalid := h.weaken (le_refl _)
  rw [List.length_map] at hvalid
  exact ⟨hvalid, hforks⟩

theorem nil : Route δ t b [] := ⟨.nil, fun f hf => by cases hf⟩

theorem of_append (h : Route δ t b (deeper ++ trail)) : Route δ t b trail := by
  have hvalid := h.valid
  rw [List.map_append] at hvalid
  exact of_trail hvalid.of_append fun f hf => h.forks f (List.mem_append_right _ hf)

theorem tail (h : Route δ t b (f :: trail)) : Route δ t b trail := by
  change Route δ t b ([f] ++ trail) at h
  exact h.of_append

theorem advanced (h : Route δ t b trail) : Route δ t b (advanced trail) := by
  have hvalid := h.valid.advanced
  rw [advanced_plain] at hvalid
  refine of_trail hvalid fun f hf => ?_
  rcases advanced_cases trail with hnil | ⟨deeper, g, above, rfl, hg, hadvanced⟩
  · rw [hnil] at hf
    cases hf
  · rw [hadvanced] at hf
    rcases List.mem_cons.1 hf with rfl | hf
    · have hequates := h.forks g (by simp)
      exact ⟨hequates.choice, hequates.last, hequates.sound.next hg, hequates.copy⟩
    · exact h.forks f (by simp [hf])

theorem anchored_advanced (h : Route δ t b trail) :
    ∀ f ∈ (ConstraintSearch.advanced trail).head?,
      Anchored (ConstraintSearch.advanced trail) f.below := by
  intro f hf
  have hanchored := h.valid.anchored_advanced f.plain
  rw [advanced_plain, List.head?_map, Option.mem_def.1 hf, f.below_plain] at hanchored
  exact anchored_of_plain (hanchored rfl)

theorem vacated (h : Route δ t b trail) : Route δ t b (vacated trail) := by
  have hvalid := h.valid.vacated
  rw [vacated_plain] at hvalid
  exact of_trail hvalid fun f hf => h.forks f (mem_of_mem_vacated hf)

theorem retarget {goal : Set Box} (hgoal : goal ⊆ t.goal)
    (hbreaks : ∀ s Q, t.Breaks δ b s Q → Tree.Breaks δ { t with goal } b s Q)
    (h : Route δ t b trail) : Route δ { t with goal } b trail :=
  of_trail (h.valid.retarget hgoal (le_refl _)) fun f hf => (h.forks f hf).retarget hgoal hbreaks

/-- What lies below the first fork lies below all of them. -/
theorem nested_vacated (h : Route δ t b trail) (hQ : Nested trail Q) :
    Nested (ConstraintSearch.vacated trail) Q := by
  have hnested := h.valid.nested_vacated (nested_plain.2 hQ)
  rw [vacated_plain] at hnested
  exact nested_plain.1 hnested

/-- A fork below the trail. -/
theorem push (ht : t.Symmetric δ b) (h : Route δ t b trail) (hf : f.Equates δ t b)
    (hnested : Nested trail f.region)
    (hrebuild : f.edge.isRightmost = true ∨ Rebuildable (f :: trail)) :
    Route δ t b (f :: trail) := by
  have hlength : (trail.map Fork.plain).length ≤ trail.length + 1 := by
    rw [List.length_map]
    exact Nat.le_succ _
  refine of_trail (.cons hf.sound (fun s hs => ?_) (nested_plain.2 hnested)
    (hrebuild.imp_right rebuildable_plain.2) (h.valid.weaken hlength))
    (List.forall_mem_cons.2 ⟨hf, h.forks⟩)
  obtain ⟨s', hs', rfl⟩ := Option.map_eq_some_iff.1 hs
  have haim : t.aim (trail.length + 1) (trail.map Fork.plain).length = Set.univ := by
    rw [List.length_map]
    exact if_neg (not_le.2 (Nat.lt_succ_self _))
  rw [haim, Set.inter_univ]
  exact (hf.copy s' hs').represents ht

theorem nested_head (h : Route δ t b (f :: trail)) : Nested trail f.region :=
  nested_plain.1 h.valid.nested

/-- The last alternative may take the copy of its fork. -/
theorem spent (ht : t.Symmetric δ b) (h : Route δ t b (f :: above))
    (hr : f.edge.isRightmost = true) {alternative : Nat} (hge : f.edge.alternative ≤ alternative)
    (hle : alternative ≤ f.edge.last + 1) : Route δ t b (f.spent alternative :: above) := by
  have hlast : f.edge.last ≤ f.edge.alternative := of_decide_eq_true hr
  have hf := h.forks f List.mem_cons_self
  refine h.tail.push ht ⟨hf.choice, hf.last, Fork.Sound.spent (f := f.plain) hf.sound hle,
    fun s' hs' => by cases hs'⟩ h.nested_head (.inl ?_)
  exact decide_eq_true (hlast.trans hge)

/-- Another copy does no harm. -/
theorem stored (ht : t.Symmetric δ b) (h : Route δ t b (deeper ++ f :: above))
    (hs : t.Breaks δ b s f.region) (memory : Nat) :
    Route δ t b (deeper ++ f.stored s memory :: above) := by
  have hvalid := h.valid
  rw [List.map_append, List.map_cons] at hvalid
  have hcopy : t.Represents δ (s.breaking [])
      (f.region ∩ t.aim (deeper ++ f :: above).length (above.map Fork.plain).length) := by
    have hlt : (above.map Fork.plain).length < (deeper ++ f :: above).length := by
      simp only [List.length_map, List.length_append, List.length_cons]
      omega
    unfold Tree.aim
    rw [if_neg (not_le.2 hlt), Set.inter_univ]
    exact hs.represents ht
  have hstored : Trail δ t (deeper ++ f :: above).length
      ((deeper ++ f.stored s memory :: above).map Fork.plain) := by
    rw [List.map_append, List.map_cons]
    exact hvalid.stored hvalid.of_append.tail hcopy (.inl rfl)
  refine of_trail hstored fun g hg => ?_
  have hf := h.forks f (by simp)
  have hg : g ∈ deeper ∨ g = f.stored s memory ∨ g ∈ above := by simpa using hg
  rcases hg with hg | rfl | hg
  · exact h.forks g (by simp [hg])
  · exact ⟨hf.choice, hf.last, ⟨hf.sound.last, hf.sound.le, hf.sound.offers⟩, fun s' hs' => by
      cases hs'
      exact hs⟩
  · exact h.forks g (by simp [hg])

end Route

theorem statusOf_breaks_law (h : t.Breaks δ b s Q) (statistics : Statistics) :
    Journaled.Yields δ (statusOf s statistics) fun r => t.Reviewed δ b Q (r.1, r.2.1) :=
  h.status_law.bind fun _ hr => Journaled.Yields.pure hr

/-! ### Invariants -/

namespace Explorer

/-- The path carries a trail of forks with symmetries, and all that is looked for lies in the
frontier. -/
structure Sustains (δ : Prop) (t : Tree) (b : IntBrancher) (e : Explorer) (F : Frontier) :
    Prop where
  carries : e.path.Carries none F.trail
  route : Route δ t b F.trail
  nested : ∀ Q ∈ F.ahead, Nested F.trail Q
  pending : F.pending t = {a | t.Solution a}

/-- The space is the node of the region `Q`. If the next copy is not to be stored on the very next
edge, then there is one on the trail from which the node can be rebuilt. -/
structure Awaits (δ : Prop) (t : Tree) (b : IntBrancher) (e : Explorer) (trail : List Fork)
    (Q : Set Box) (s : Space) : Prop where
  breaks : t.Breaks δ b s Q
  anchored : e.distance = 0 ∨ Anchored trail Q

/-- The invariant of an exploration that breaks symmetries: the next node is at hand, or it is the
one that the path points to. -/
structure Prunes (δ : Prop) (t : Tree) (b : IntBrancher) (e : Explorer) (F : Frontier) : Prop
    extends e.Sustains δ t b F where
  current : ∀ s ∈ e.current, ∃ Q, F.ahead = some Q ∧ e.Awaits δ t b F.trail Q s
  rebuildable : e.current = none →
    F = .ofTrail F.trail ∧ ∀ f ∈ F.trail.head?, Anchored F.trail f.below

namespace Sustains

/-- The alternatives before the chosen ones are explored. -/
theorem explored (ht : t.Symmetric δ b) (h : e.Sustains δ t b F) : ∀ f ∈ F.trail, f.Explored t := by
  intro f hf i hi B hB hw
  obtain ⟨a, ha, rfl⟩ := ht.solution B hw
  have hmem : a ∈ F.plain.pending t := by
    rw [Frontier.pending_plain, h.pending]
    exact ha
  refine Frontier.not_mem_region_of_lt h.route.valid (fun Q hQ => nested_plain.2 (h.nested Q hQ))
    (List.mem_map_of_mem hf) (i := i) hi ?_ hmem.2
  rw [f.part_plain]
  exact hB

theorem forks (ht : t.Symmetric δ b) (h : e.Sustains δ t b F) :
    ∀ f ∈ F.trail, f.Equates δ t b ∧ f.Explored t :=
  fun f hf => ⟨h.route.forks f hf, h.explored ht f hf⟩

/-- The invariant depends on the path only. -/
theorem congr (h : e.Sustains δ t b F) (hpath : e'.path = e.path) : e'.Sustains δ t b F :=
  ⟨hpath ▸ h.carries, h.route, h.nested, h.pending⟩

/-- To advance leaves what is looked for behind the node that was explored. -/
theorem advanced_le (ht : t.Regular δ) (h : e.Sustains δ t b ⟨trail, none⟩) :
    (Frontier.ofTrail (advanced trail)).Le t ⟨trail, none⟩ := by
  refine .of_plain ?_
  rw [← Frontier.ofTrail_plain, ← advanced_plain]
  exact Frontier.ofTrail_advanced_le h.route.valid ht.root

/-- After advancing, the next node is the one that the path points to. -/
theorem advanced (ht : t.Regular δ) (h : e.Sustains δ t b ⟨trail, none⟩)
    (hcurrent : e'.current = none) (hpath : e'.path.Carries none (advanced trail)) :
    e'.Prunes δ t b (.ofTrail (advanced trail)) := by
  refine ⟨⟨hpath, h.route.advanced, fun Q hQ => ?_, (h.advanced_le ht).pending.trans h.pending⟩,
    fun s hs => ?_, fun _ => ⟨rfl, h.route.anchored_advanced⟩⟩
  · obtain ⟨f, hf, rfl⟩ := Option.map_eq_some_iff.1 hQ
    exact (h.route.anchored_advanced f hf).nested
  · rw [hcurrent] at hs
    cases hs

/-- If less is looked for, but whole orbits still, the invariant holds all the same. -/
theorem retarget {goal : Set Box} (hgoal : goal ⊆ t.goal)
    (hinvariant : ∀ a a', t.Solution a → t.Solution a' → b.Exchanges a a' → a.box ∈ goal →
      a'.box ∈ goal) (h : e.Sustains δ t b F) : e.Sustains δ { t with goal } b F where
  carries := h.carries
  route := h.route.retarget hgoal fun s Q hs => hs.retarget hgoal hinvariant
  nested := h.nested
  pending := by
    refine Set.ext fun a => ⟨And.left, fun ha => ⟨ha, ?_⟩⟩
    have hmem : a ∈ F.pending t := by
      rw [h.pending]
      exact ⟨ha.1, ha.2.of_goal hgoal⟩
    exact hmem.2

end Sustains

/-! ### Rebuilding -/

/-- What becomes of the node of the region `Q` below the trail. Either it is rebuilt, or a fork
turns out to have no solutions, and the path ends above it. -/
def Restored (δ : Prop) (t : Tree) (b : IntBrancher) (e : Explorer) (trail : List Fork)
    (Q : Set Box) : Option Space × Explorer × Option Bound → Prop
  | (node, e', bound) => bound = none ∧ e'.current = e.current ∧
      match node with
      | some s => ∃ trail', AlikeTrails trail' trail ∧ e'.Sustains δ t b ⟨trail', some Q⟩ ∧
          e'.Awaits δ t b trail' Q s
      | none => ∃ above, above.length < trail.length ∧
          Frontier.Le t ⟨above, none⟩ ⟨trail, some Q⟩ ∧ e'.Sustains δ t b ⟨above, none⟩

namespace Sustains

/-- A fork without solutions ends the path. -/
theorem failAt_law (h : e'.Sustains δ t b ⟨deeper ++ f :: above, some Q⟩)
    (hQ : Anchored (deeper ++ f :: above) Q) (hnone : ∀ B ∈ f.region, ¬t.Wanted B)
    (halike : AlikeTrails (deeper ++ f :: above) trail) (hcurrent : e'.current = e.current) :
    Journaled.Yields δ (e'.failAt above.length none) (Restored δ t b e trail Q) := by
  have hsplit : deeper ++ f :: above = (deeper ++ [f]) ++ above := by simp
  have hcarries := h.carries
  have hlast : ∀ d ∈ (deeper ++ [f]) ++ above, d.edge.last < d.edge.choice.alternatives :=
    fun d hd => (h.route.forks d (hsplit ▸ hd)).last_lt
  change e'.path.Carries none (deeper ++ f :: above) at hcarries
  rw [hsplit] at hcarries
  have hle : Frontier.Le t ⟨above, none⟩ ⟨deeper ++ f :: above, some Q⟩ := by
    have hvalid := h.route.valid
    have hahead : Frontier.ofTrail (deeper ++ f :: above) = ⟨deeper ++ f :: above, some Q⟩ :=
      congrArg (Frontier.mk _) hQ.below
    rw [← hahead]
    refine .of_plain ?_
    rw [← Frontier.ofTrail_plain, List.map_append, List.map_cons]
    change Trail δ t _ ((deeper ++ f :: above).map Fork.plain) at hvalid
    rw [List.map_append, List.map_cons] at hvalid
    exact Frontier.le_of_failed (f := f.plain) hvalid hnone
  have hlength := halike.length_eq
  simp only [List.length_append, List.length_cons] at hlength
  unfold failAt
  refine (Journaled.Yields.lift (Path.unwind_law hcarries hlast _)).bind fun r hr =>
    Journaled.Yields.pure ⟨rfl, hcurrent, above, by omega,
      hle.trans (Frontier.le_of_alike halike _), ?_⟩
  exact ⟨hr, h.route.of_append.tail, fun Q hQ => (by cases hQ), hle.pending.trans h.pending⟩

/-- A copy is stored at a fork. -/
theorem stored {memory total : Nat} (ht : t.Symmetric δ b)
    (h : e.Sustains δ t b ⟨deeper ++ f :: above, some Q⟩) (hs : t.Breaks δ b s f.region)
    (htotal : total + f.edge.memory = e.path.memory + memory) :
    Sustains δ t b
      { e with path := { e.path with
        edges := (deeper ++ f.stored s memory :: above).map Fork.edge
        memory := total } }
      ⟨deeper ++ f.stored s memory :: above, some Q⟩ := by
  have halike : AlikeTrails (deeper ++ f.stored s memory :: above) (deeper ++ f :: above) :=
    AlikeTrails.append deeper (f.alike_stored s memory)
  have hmemory := h.carries.memory
  have hwork := h.carries.work
  dsimp only at hmemory hwork
  refine ⟨⟨fun n hn => (by cases hn), rfl, ?_, ?_⟩, h.route.stored ht hs memory, fun Q hQ =>
    halike.nested (h.nested Q hQ), (Frontier.le_of_alike halike _).pending.trans h.pending⟩
  · simp only [List.map_append, List.sum_append, List.map_cons, List.sum_cons] at hmemory ⊢
    show total = _ + (memory + _)
    omega
  · rw [hwork, List.countP_append, List.countP_append, List.countP_cons, List.countP_cons]
    rfl

/-- The node is rebuilt as it is. -/
theorem restored (h : e'.Sustains δ t b ⟨above, some Q⟩) (halike : AlikeTrails above trail)
    (hQ : Anchored above Q) (hs : t.Breaks δ b s Q) (hcurrent : e'.current = e.current) :
    Restored δ t b e trail Q (some s, e', none) :=
  ⟨rfl, hcurrent, above, halike, h, hs, .inr hQ⟩

/-- The node is rebuilt from a copy far above it, and another copy is left halfway. -/
theorem replayHalfway_law {forks : List Fork} (ht : t.Symmetric δ b)
    (h : e'.Sustains δ t b ⟨forks.reverse ++ above, some Q⟩)
    (halike : AlikeTrails (forks.reverse ++ above) trail)
    (hQ : Anchored (forks.reverse ++ above) Q) (hleads : Leads R forks Q) (hs : t.Breaks δ b s R)
    (hcurrent : e'.current = e.current) :
    Journaled.Yields δ (e'.replayHalfway s (forks.map Fork.edge) (above.map Fork.edge) none)
      (Restored δ t b e trail Q) := by
  obtain ⟨upper, skipped, remaining, rfl, hupper, hskipped, hremaining⟩ := exists_halves forks
  obtain ⟨M, hM, hrest⟩ := leads_append.1 hleads
  have hforks {g : Fork} (hg : g ∈ upper ++ skipped ++ remaining) :
      g.Equates δ t b ∧ g.Explored t :=
    h.forks ht g (List.mem_append_left _ (List.mem_reverse.2 hg))
  unfold replayHalfway
  dsimp only
  rw [hupper, hskipped, hremaining, ← List.map_append]
  refine (Journaled.Yields.lift (replay_breaks_law ht hM
    (fun f hf => hforks (List.mem_append_left _ hf)) hs)).bind fun s₁ hs₁ => ?_
  have hreplay {s : Space} (hs : t.Breaks δ b s M) :=
    replay_breaks_law ht hrest (fun f hf => hforks (List.mem_append_right _ hf)) hs
  -- Unless two forks remain at least, no copy is stored.
  have hshort : Journaled.Yields δ (do
      let s ← replay s₁ (remaining.map Fork.edge)
      pure (some s, e', none)) (Restored δ t b e trail Q) :=
    (Journaled.Yields.lift (hreplay hs₁)).bind fun s₂ hs₂ => Journaled.Yields.pure
      (restored h halike hQ hs₂ hcurrent)
  match remaining, hrest with
  | [], _ => exact hshort
  | [f], _ => exact hshort
  | first :: second :: rest, hrest =>
    obtain ⟨rfl, -⟩ := leads_cons.1 hrest
    set kept := skipped.reverse ++ upper.reverse ++ above with hkept
    have htrail : (upper ++ skipped ++ first :: second :: rest).reverse ++ above =
        (second :: rest).reverse ++ first :: kept := by
      simp [hkept]
    rw [htrail] at h halike hQ
    simp only [List.map_cons]
    refine (statusOf_breaks_law hs₁ e'.statistics).bind ?_
    rintro ⟨status, s₂, statistics⟩ hreviewed
    dsimp only at hreviewed ⊢
    by_cases hfailed : status = .failed
    · subst hfailed
      have hdepth : (above.map Fork.edge).length + (upper.map Fork.edge).length +
          (skipped.map Fork.edge).length = kept.length := by
        simp only [hkept, List.length_map, List.length_append, List.length_reverse]
        omega
      rw [if_pos rfl, hdepth]
      have hcounted : Sustains δ t b { e' with statistics }
          ⟨(second :: rest).reverse ++ first :: kept, some Q⟩ := h.congr rfl
      exact hcounted.failAt_law hQ hreviewed.none_wanted halike hcurrent
    · rw [if_neg hfailed]
      have hmemory := h.carries.memory
      simp only [List.map_append, List.sum_append, List.map_cons, List.sum_cons] at hmemory
      refine (Journaled.Yields.lift (yields_lessen (by omega))).bind fun memory hm => ?_
      have hstored := h.stored ht hreviewed.breaks
        (show memory + s₂.memory + first.edge.memory = e'.path.memory + s₂.memory by omega)
      have hedges : (second.edge :: rest.map Fork.edge).reverse ++
          { first.edge with space := some s₂, memory := s₂.memory } ::
            ((skipped.map Fork.edge).reverse ++ (upper.map Fork.edge).reverse ++
              above.map Fork.edge) =
          ((second :: rest).reverse ++ first.stored s₂ s₂.memory :: kept).map Fork.edge := by
        rw [map_edge_stored]
        simp [hkept]
      rw [hedges]
      refine (Journaled.Yields.lift (hreplay hreviewed.breaks)).bind fun s₃ hs₃ =>
        Journaled.Yields.pure ?_
      refine restored (hstored.congr rfl) ?_ (hQ.stored _ _) hs₃ hcurrent
      exact (AlikeTrails.append _ (first.alike_stored _ _)).trans halike

/-- The last alternative of the top edge is explored in the copy of the edge itself. -/
theorem reuseTop_law (ht : t.Symmetric δ b) (h : e.Sustains δ t b ⟨f :: above, some Q⟩)
    (hQ : Anchored (f :: above) Q) (hs : f.edge.space = some s)
    (hr : f.edge.isRightmost = true) :
    Journaled.Yields δ (e.reuseTop f.edge s (above.map Fork.edge) none)
      (Restored δ t b e (f :: above) Q) := by
  obtain ⟨hf, hexplored⟩ := h.forks ht f List.mem_cons_self
  have hfresh : f.edge.isUsedUp = false := hQ.fresh f rfl
  have hlast : f.edge.last ≤ f.edge.alternative := of_decide_eq_true hr
  have hle : f.edge.alternative ≤ f.edge.last := not_lt.1 (of_decide_eq_false hfresh)
  have hchosen : f.chosen = f.edge.alternative := Nat.min_eq_left hle
  obtain rfl : f.below = Q := Option.some.inj hQ.below
  have hmemory := h.carries.memory
  rw [List.map_cons, List.sum_cons] at hmemory
  rw [reuseTop_eq, List.length_map]
  refine (Journaled.Yields.lift (yields_lessen (by omega))).bind fun memory hm => ?_
  have hcommit := hf.commit_law ht hexplored (hf.copy s hs)
  rw [hchosen] at hcommit
  refine (Journaled.Yields.lift hcommit).bind fun s₁ hs₁ => Journaled.Yields.pure ?_
  set alternative := if e.path.noGoodDepth < above.length + 1 then f.edge.alternative + 1
    else f.edge.alternative with halternative
  have hge : f.edge.alternative ≤ alternative := by
    rw [halternative]
    split <;> omega
  have hbound : alternative ≤ f.edge.last + 1 := by
    rw [halternative]
    split <;> omega
  have halike : AlikeTrails (f.spent alternative :: above) (f :: above) :=
    .cons (f.alike_spent hr hge) (AlikeTrails.refl above)
  refine ⟨rfl, rfl, f.spent alternative :: above, halike, ⟨?_, ?_, ?_, ?_⟩, hs₁, .inl rfl⟩
  · refine ⟨fun n hn => (by cases hn), rfl, ?_, ?_⟩
    · simp only [List.map_cons, List.sum_cons, Fork.spent]
      omega
    · have hwork := h.carries.work
      have hnone : f.edge.hasWork = false := decide_eq_false (not_lt.2 hlast)
      have hnone' : (f.spent alternative).edge.hasWork = false :=
        decide_eq_false (not_lt.2 (hlast.trans hge))
      rw [List.countP_cons, hnone] at hwork
      rw [List.countP_cons, hnone']
      exact hwork
  · exact h.route.spent ht hr hge hbound
  · exact fun Q hQ => halike.nested (h.nested Q hQ)
  · exact (Frontier.le_of_alike halike _).pending.trans h.pending

/-- The node that the path points to is rebuilt, or a fork above it turns out to have no
solutions. -/
theorem rebuild_law (ht : t.Symmetric δ b) (h : e.Sustains δ t b ⟨f :: above, some Q⟩)
    (hQ : Anchored (f :: above) Q) :
    Journaled.Yields δ (e.rebuild none) (Restored δ t b e (f :: above) Q) := by
  have hedges := h.carries.edges
  rw [List.map_cons] at hedges
  by_cases hreuse : f.edge.space.isSome = true ∧ f.edge.isRightmost = true
  · obtain ⟨hspace, hr⟩ := hreuse
    obtain ⟨s, hs⟩ := Option.isSome_iff_exists.1 hspace
    have hrebuild : e.rebuild none = e.reuseTop f.edge s (above.map Fork.edge) none := by
      unfold rebuild
      rw [hedges]
      dsimp only
      rw [hs, hr]
    rw [hrebuild]
    exact h.reuseTop_law ht hQ hs hr
  have hfar : f.edge.space.isSome = true → f.edge.isRightmost = false := fun hspace => by
    simpa [hspace] using hreuse
  obtain ⟨below, above', g, s, htrail, hs, -, -, hsplit, hleads⟩ :=
    hQ.rebuildable.exists_copy hQ.fresh
  obtain rfl : f.below = Q := Option.some.inj hQ.below
  have hleads := hleads f rfl
  rw [List.map_cons] at hsplit
  rw [htrail] at h hQ ⊢
  have hcopy := (h.route.forks g (by simp)).copy s hs
  have hsame : { g.edge with space := some s } = g.edge := by rw [← hs]
  have hsegment : { g.edge with space := some s } :: (below.map Fork.edge).reverse =
      (g :: below.reverse).map Fork.edge := by
    rw [List.map_cons, List.map_reverse, hsame]
  rw [rebuild_eq hedges hfar hsplit, List.length_map]
  unfold refreshCopy
  rw [pure_bind]
  dsimp only
  rw [if_neg (by decide), hsegment]
  have h' : Sustains δ t b { e with distance := below.length + 1 }
      ⟨below ++ g :: above', some f.below⟩ := h.congr rfl
  by_cases hnear : below.length + 1 < e.exploration.adaptiveDistance
  · rw [if_pos hnear]
    refine (Journaled.Yields.lift (replay_breaks_law ht hleads (fun d hd => ?_) hcopy)).bind
      fun s₁ hs₁ => Journaled.Yields.pure (restored h' (AlikeTrails.refl _) hQ hs₁ rfl)
    refine h.forks ht d ?_
    rcases List.mem_cons.1 hd with rfl | hd
    · simp
    · exact List.mem_append_left _ (List.mem_reverse.1 hd)
  · rw [if_neg hnear]
    have hreverse : (g :: below.reverse).reverse ++ above' = below ++ g :: above' := by simp
    exact replayHalfway_law ht (hreverse ▸ h') (hreverse ▸ AlikeTrails.refl _) (hreverse ▸ hQ)
      hleads hcopy rfl

end Sustains

/-! ### The next node -/

/-- What the next node is. -/
def Proceeds (δ : Prop) (t : Tree) (b : IntBrancher) (F : Frontier) :
    Option Space × Explorer × Option Bound → Prop
  | (node, e', bound) => bound = none ∧ e'.current = none ∧ ∃ G, G.Le t F ∧ e'.Sustains δ t b G ∧
      match node with
      | some s => ∃ Q, G.ahead = some Q ∧ e'.Awaits δ t b G.trail Q s
      | none => G = ⟨[], none⟩

theorem Prunes.nextNodeWithin_law {steps : Nat} (ht : t.Symmetric δ b) (hroot : t.Regular δ)
    (h : e.Prunes δ t b F) (hsteps : F.trail.length < steps) :
    Journaled.Yields δ (nextNodeWithin steps e none) (Proceeds δ t b F) := by
  induction steps generalizing e F with
  | zero => exact absurd hsteps (Nat.not_lt_zero _)
  | succ steps ih =>
    unfold nextNodeWithin
    cases hcurrent : e.current with
    | some s =>
      obtain ⟨Q, hahead, hawaits⟩ := h.current s hcurrent
      exact Journaled.Yields.pure ⟨rfl, rfl, F, .refl t F, h.toSustains.congr rfl, Q, hahead,
        hawaits.breaks, hawaits.anchored⟩
    | none =>
      obtain ⟨hF, hanchored⟩ := h.rebuildable hcurrent
      have hsustains := h.toSustains
      generalize F.trail = trail at hF hanchored hsteps
      subst hF
      have hempty : e.path.isEmpty = trail.isEmpty := by
        unfold Path.isEmpty
        rw [hsustains.carries.edges, List.isEmpty_map]
        rfl
      dsimp only
      rw [hempty]
      cases trail with
      | nil =>
        exact Journaled.Yields.pure ⟨rfl, hcurrent, _, .refl t _, hsustains, rfl⟩
      | cons f above =>
        rw [if_neg (by simp)]
        refine (hsustains.rebuild_law ht (hanchored f rfl)).bind ?_
        rintro ⟨node, e₁, bound⟩ ⟨rfl, hcurrent₁, hnode⟩
        rw [hcurrent] at hcurrent₁
        dsimp only
        cases node with
        | some s =>
          obtain ⟨trail', halike, hsustains', hawaits⟩ := hnode
          exact Journaled.Yields.pure ⟨rfl, hcurrent₁, _, Frontier.le_of_alike halike _, hsustains',
            f.below, rfl, hawaits⟩
        | none =>
          obtain ⟨above', hlength, hle, hsustains'⟩ := hnode
          refine (Journaled.Yields.lift (Path.advance_law hsustains'.carries)).bind fun p hp => ?_
          have hprunes : Prunes δ t b { e₁ with path := p } _ :=
            hsustains'.advanced hroot hcurrent₁ hp
          have hshort : (advanced above').length < steps :=
            (length_advanced_le above').trans_lt (hlength.trans_le (Nat.le_of_lt_succ hsteps))
          refine (ih hprunes hshort).mono ?_
          rintro ⟨node, e₂, bound⟩ ⟨hbound, hcurrent₂, G, hG, hrest⟩
          exact ⟨hbound, hcurrent₂, G, hG.trans ((hsustains'.advanced_le hroot).trans hle), hrest⟩

theorem Prunes.nextNode_law (ht : t.Symmetric δ b) (hroot : t.Regular δ) (h : e.Prunes δ t b F) :
    Journaled.Yields δ (e.nextNode none) (Proceeds δ t b F) := by
  refine h.nextNodeWithin_law ht hroot ?_
  rw [h.carries.length]
  exact Nat.lt_succ_self _

/-! ### Exploring a node -/

/-- What became of the node of the region `Q` below the trail. -/
def Met (δ : Prop) (t : Tree) (b : IntBrancher) (trail : List Fork) (Q : Set Box) :
    Explored × Explorer → Prop
  | (.solved s, e') => e'.current = none ∧ e'.path.Carries none (advanced trail) ∧
      ∃ s₀, s₀.store = s.store ∧ t.Rests δ s₀ Q ∧
        ∀ i row, s₀.branchers.get? i = some row → row.Done s₀.store
  | (_, e') => ∃ G, G.Lt t ⟨trail, some Q⟩ ∧ e'.Prunes δ t b G

/-- To report the node changes the trace only. -/
theorem Met.report {explored : Explored} (h : Met δ t b trail Q (explored, e'))
    (edge : Option EdgeInfo) (id : NodeId) (kind : NodeKind) :
    Met δ t b trail Q (explored, e'.reportNode edge id kind) := by
  obtain ⟨tracing, htracing⟩ := exists_reportNode e' edge id kind
  rw [htracing]
  cases explored with
  | solved s => exact h
  | failed | branched =>
    obtain ⟨G, hlt, hprunes⟩ := h
    refine ⟨G, hlt, hprunes.toSustains.congr rfl, fun s hs => ?_, hprunes.rebuildable⟩
    obtain ⟨Q, hahead, hawaits⟩ := hprunes.current s hs
    exact ⟨Q, hahead, hawaits.breaks, hawaits.anchored⟩

namespace Sustains

/-- A region without solutions need not be explored. -/
theorem skip (h : e.Sustains δ t b ⟨trail, some Q⟩) (hnone : ∀ B ∈ Q, ¬t.Wanted B) :
    e.Sustains δ t b ⟨trail, none⟩ :=
  ⟨h.carries, h.route, fun Q hQ => (by cases hQ),
    (Frontier.lt_of_failed hnone).pending.trans h.pending⟩

theorem yields_edgeInfo (h : e.Sustains δ t b F) : Yields δ e.edgeInfo fun _ => True := by
  refine Explorer.yields_edgeInfo_of_last fun top htop => ?_
  rw [h.carries.edges] at htop
  obtain ⟨f, hf, rfl⟩ := List.mem_map.1 (List.mem_of_mem_head? htop)
  exact (h.route.forks f hf).last_lt

/-- A node that is split leaves its two alternatives. -/
theorem split {p : Nat} {v : Int} {c : Choice} {s₁ s₂ : Space} {copied : Prop} [Decidable copied]
    {memory : Nat} {id : NodeId} (ht : t.Symmetric δ b) (hroot : t.Regular δ)
    (h : e.Sustains δ t b ⟨trail, some Q⟩) (hs : e.Awaits δ t b trail Q s) (hc : c.Equates b p v)
    (hoffers : t.Offers Q (c.marked false)) (hcopy : t.Breaks δ b s₁ Q)
    (hfirst : t.Breaks δ b s₂ (Q ∩ c.keeps 0)) (hcopied : e.distance = 0 → copied)
    (hf : f = ⟨⟨if copied then some s₁ else none, memory, c, 0, c.alternatives - 1, id⟩, Q⟩)
    (hpath : e'.path.Carries none (f :: vacated trail)) (hcurrent : e'.current = some s₂) :
    Frontier.Lt t ⟨f :: vacated trail, some f.below⟩ ⟨trail, some Q⟩ ∧
      e'.Prunes δ t b ⟨f :: vacated trail, some f.below⟩ := by
  have htwo := hc.alternatives_eq
  have hequates : f.Equates δ t b := by
    refine .of_split hc hoffers (fun s' hs' => ?_) hf
    split at hs'
    · cases hs'
      exact hcopy
    · cases hs'
  have hfresh : f.edge.isUsedUp = false := by
    rw [hf]
    exact decide_eq_false (Nat.not_lt_zero _)
  have hregion : f.region = Q := by rw [hf]
  have hbelow : f.below = Q ∩ c.keeps 0 := by
    rw [hf]
    exact congrArg (fun i => Q ∩ c.keeps i) (Nat.zero_min _)
  have hrebuildable : Rebuildable (f :: vacated trail) := by
    by_cases hcopies : copied
    · refine .copy ?_
      rw [hf]
      dsimp only
      rw [if_pos hcopies]
      rfl
    · -- Without a copy, the node itself can be rebuilt.
      have hanchored := hs.anchored.resolve_left fun h0 => hcopies (hcopied h0)
      exact hanchored.rebuildable_cons hregion
  have hlt : Frontier.Lt t ⟨f :: vacated trail, some f.below⟩ ⟨trail, some Q⟩ := by
    refine .of_plain ?_
    have hsplit := Frontier.lt_of_split ((vacated trail).map Fork.plain) hequates.sound hroot.root
      (show f.plain.edge.alternative = 0 by rw [hf]; rfl)
      (show f.edge.last + 1 = (f.edge.choice.marked false).alternatives by
        rw [Choice.alternatives_marked, hequates.last, hf]; exact htwo.symm)
    rw [f.below_plain, ← vacated_plain] at hsplit
    have hle := hsplit.trans_le (Frontier.vacated_le h.route.valid (some f.region))
    rw [hregion, vacated_plain] at hle
    exact hle
  have hnested : Nested (f :: vacated trail) f.below := fun g hg => by
    cases hg
    exact Set.Subset.refl _
  refine ⟨hlt, ⟨⟨hpath, ?_, fun Q hQ => ?_, hlt.pending.trans h.pending⟩, fun s' hs' => ?_,
    fun hnone => ?_⟩⟩
  · refine h.route.vacated.push ht hequates ?_ (.inr hrebuildable)
    rw [hregion]
    exact h.route.nested_vacated (h.nested Q rfl)
  · cases hQ
    exact hnested
  · rw [hcurrent] at hs'
    cases hs'
    refine ⟨f.below, rfl, ?_, .inr ⟨rfl, fun g hg => ?_, hrebuildable⟩⟩
    · rw [hbelow]
      exact hfirst
    · cases hg
      exact hfresh
  · rw [hcurrent] at hnone
    cases hnone

/-- What becomes of a node. -/
theorem explore_law (ht : t.Symmetric δ b) (hroot : t.Regular δ)
    (h : e.Sustains δ t b ⟨trail, some Q⟩) (hcurrent : e.current = none)
    (hs : e.Awaits δ t b trail Q s) :
    Journaled.Yields δ (e.explore s) (Met δ t b trail Q) := by
  unfold explore
  extract_lets statistics visit
  -- What becomes of the node does not depend on how it is reported.
  suffices hvisit : ∀ edge, Journaled.Yields δ (visit edge) (Met δ t b trail Q) by
    split
    · refine (Journaled.Yields.lift h.yields_edgeInfo).bind fun edge _ => ?_
      rw [pure_bind]
      exact hvisit (some edge)
    · rw [pure_bind]
      exact hvisit none
  intro edge
  refine (statusOf_breaks_law hs.breaks _).bind ?_
  rintro ⟨status, s₁, counted⟩ hreviewed
  dsimp only at hreviewed ⊢
  cases status with
  | failed =>
    refine (Journaled.Yields.lift (Path.advance_law h.carries)).bind fun p hp =>
      Journaled.Yields.pure (Met.report ?_ _ _ _)
    have hskip := h.skip hreviewed.none_wanted
    have hlt : Frontier.Lt t ⟨trail, none⟩ ⟨trail, some Q⟩ :=
      Frontier.lt_of_failed hreviewed.none_wanted
    exact ⟨_, (hskip.advanced_le hroot).trans_lt hlt, hskip.advanced hroot hcurrent hp⟩
  | solved =>
    refine (Journaled.Yields.lift (Path.advance_law h.carries)).bind fun p hp =>
      Journaled.Yields.pure (Met.report ?_ _ _ _)
    obtain ⟨τ, s₀, rfl, hjudged, -⟩ := hreviewed
    exact ⟨hcurrent, hp, s₀, rfl, hjudged.1, hjudged.2⟩
  | branch =>
    refine (Journaled.Yields.lift (Tree.Breaks.choice_law ht hreviewed)).bind ?_
    rintro ⟨choice, split⟩ ⟨⟨p, v, hc⟩, hoffers, hsplit⟩
    dsimp only at hc hoffers hsplit ⊢
    refine (Journaled.Yields.lift (Path.push_law h.carries choice _ _ Q)).bind fun path hpath => ?_
    have hpos : 0 < choice.alternatives := by
      rw [hc.alternatives_eq]
      exact Nat.zero_lt_two
    refine (Journaled.Yields.lift (hsplit.commit_law ht hc hoffers hpos
      (fun j hj => absurd hj (Nat.not_lt_zero j)))).bind fun first hfirst =>
      Journaled.Yields.pure (Met.report ?_ _ _ _)
    generalize hf : Fork.mk _ Q = f at hpath
    exact ⟨_, h.split ht hroot hs hc hoffers hreviewed.breaks hfirst (fun h0 => .inl h0) hf.symm
      hpath
      rfl⟩

end Sustains

end Explorer

end ConstraintSearch
