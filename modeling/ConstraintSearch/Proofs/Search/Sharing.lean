import ConstraintSearch.Proofs.Search.Engine
import ConstraintSearch.Proofs.Search.Model
import ConstraintSearch.Proofs.Search.Worker
import Mathlib.Order.CompletePartialOrder

/-!
# Sharing a search

A thief takes over a part of what an explorer has still to search. What the explorer would have
found is found by the two of them, each part by one of them.

* `Explorer.exhaust`: the spaces that an explorer returns from now on, if it is left alone;
* `Explorer.exhaust_law`: they have what is pending on its frontier;
* `Activity.Occurs`: the explorers that there are while a tree is searched, by a depth-first search
  or by a branch and bound, with any number of thieves;
* `Activity.Occurs.law`: each of them has a frontier;
* `Built.steal_divides`: to steal divides what is left.
-/

namespace ConstraintSearch

variable {δ : Prop} {t : Tree} {s : Space} {best : Option Space} {mark : Nat} {e : Explorer}
  {F G : Frontier} {a : Assignment}

/-! ### Exhausting a subtree -/

/-- The solutions that an explorer returns until nothing is left, if it has so few nodes to explore.
No better solution is taken up. -/
def Explorer.exhaust : Nat → Explorer → Option Bound → Journaled (List Space)
  | 0, _, _ => throw .unfinished
  | nodes + 1, e, bound => do
      let (node, e, bound) ← e.nextNode bound
      match node with
      | none => return []
      | some s =>
          let (explored, e) ← e.explore s
          match explored with
          | .solved s => return s :: (← exhaust nodes e bound)
          | .failed | .branched => exhaust nodes e bound

/-- The assignments of some spaces. -/
def assignmentsOf (found : List Space) : Set Assignment := {a | ∃ s ∈ found, a.box ∈ s.boxes}

/-- One space more, with an assignment of its own. -/
theorem Engine.Lists.cons {found : List Space} {Open Open' : Set Assignment}
    (h : Engine.Lists found Open) (hassigned : s.store.Assigned)
    (hnot : s.store.assignment ∉ Open) (heq : Open' = insert s.store.assignment Open) :
    Engine.Lists (s :: found) Open' where
  assigned := List.forall_mem_cons.2 ⟨hassigned, h.assigned⟩
  nodup := by
    rw [List.map_cons, List.nodup_cons, h.mem_iff]
    exact ⟨hnot, h.nodup⟩
  mem_iff a := by
    rw [List.map_cons, List.mem_cons, h.mem_iff, heq, Set.mem_insert_iff]

/-- The spaces have what is pending. If the branchers decide all variables, then each of them is one
solution, and each solution is found once. -/
structure Frontier.Gathers (t : Tree) (F : Frontier) (found : List Space) : Prop where
  mem_iff : ∀ a, t.Solution a → (a ∈ assignmentsOf found ↔ a.box ∈ F.region)
  lists : t.Exact → Engine.Lists found (F.pending t)

namespace Frontier

/-- What is gathered depends on what is pending only. -/
theorem Gathers.congr {found : List Space} (h : G.Gathers t found)
    (hpending : G.pending t = F.pending t) : F.Gathers t found where
  mem_iff a ha := by rw [h.mem_iff a ha, ← mem_pending ha, hpending, mem_pending ha]
  lists hexact := hpending ▸ h.lists hexact

theorem gathers_nil (t : Tree) : Gathers t ⟨[], none⟩ [] where
  mem_iff a _ := iff_of_false (fun ⟨_, hs, _⟩ => by cases hs) (not_mem_region a.box)
  lists _ := ⟨nofun, List.nodup_nil, fun a => by rw [pending_nil, List.map_nil]; simp⟩

/-- A node in which all branchers are done is returned. -/
theorem Gathers.cons {trail : List Fork} {Q : Set Box} {found : List Space}
    (h : (ofTrail (advanced trail)).Gathers t found) (hvalid : Trail δ t mark trail)
    (hnested : Nested trail Q) (hroot : t.root.Sound) (hrests : t.Rests δ s (Q ∩ t.goal))
    (hdone : ∀ i b, s.branchers.get? i = some b → b.Done s.store) :
    Gathers t ⟨trail, some Q⟩ (s :: found) where
  mem_iff a ha := by
    have hrepresents : t.Represents δ s (Q ∩ t.goal) := .stands hrests.toStands
    have hmem : a.box ∈ s.boxes ↔ a.box ∈ Q :=
      (hrepresents.mem_boxes ha.2).trans (and_iff_left ha.2.goal)
    have hrest := h.mem_iff a ha
    rw [← mem_pending ha, (ofTrail_advanced_le hvalid hroot).pending, mem_pending ha] at hrest
    unfold assignmentsOf at hrest ⊢
    simp only [Set.mem_ofPred_eq, List.exists_mem_cons_iff] at hrest ⊢
    rw [hmem, hrest]
    simp [region]
  lists hexact := by
    obtain ⟨hassigned, hpending, hnot⟩ :=
      Explorer.pending_of_found hvalid hnested hroot hexact hrests hdone
    exact (h.lists hexact).cons hassigned hnot hpending

end Frontier

namespace Explorer

/-- An explorer that is left alone returns what is pending on its frontier, and comes to an end. -/
theorem exhaust_law {nodes : Nat} (haims : t.Aims best mark) (ht : t.Regular δ)
    (h : e.Explores δ t none mark F) (hnodes : F.bound t < nodes) :
    Journaled.Yields δ (exhaust nodes e (boundOf best mark)) (F.Gathers t) := by
  induction nodes generalizing e mark F with
  | zero => exact absurd hnodes (Nat.not_lt_zero _)
  | succ nodes ih =>
    unfold exhaust
    refine (nextNode_law haims ht h).bind ?_
    rintro ⟨node, e₁, bound⟩ ⟨mark₁, G, haims₁, rfl, -, hcurrent, hfollows, hkeeps, hnode⟩
    cases node with
    | none =>
      obtain rfl : G = ⟨[], none⟩ := hnode
      exact Journaled.Yields.pure ((Frontier.gathers_nil t).congr hfollows.le.pending)
    | some s =>
      obtain ⟨trail, ahead⟩ := G
      obtain ⟨Q, rfl, hpoised⟩ := hnode
      have hbound : Frontier.bound t ⟨trail, some Q⟩ ≤ nodes :=
        Nat.le_of_lt_succ (hfollows.le.bound.trans_lt hnodes)
      have hadvanced : (Frontier.ofTrail (advanced trail)).Le t ⟨trail, none⟩ :=
        Frontier.ofTrail_advanced_le hkeeps.valid ht.root
      refine (explore_law hkeeps hcurrent hpoised).bind ?_
      rintro ⟨explored, e₂⟩ hvisited
      cases explored with
      | failed =>
        obtain ⟨-, -, hnone, hexplores⟩ := hvisited
        have hlt := hadvanced.trans_lt (Frontier.lt_of_failed hnone)
        refine (ih haims₁ hexplores (hlt.bound.trans_le hbound)).mono fun found hfound => ?_
        exact hfound.congr (hlt.pending.trans hfollows.le.pending)
      | branched =>
        obtain ⟨-, -, f, s', hsplits, hexplores⟩ := hvisited
        have hlt : Frontier.Lt t _ ⟨trail, some Q⟩ := hsplits.lt hkeeps.valid ht.root
        refine (ih haims₁ hexplores (hlt.bound.trans_le hbound)).mono fun found hfound => ?_
        exact hfound.congr (hlt.pending.trans hfollows.le.pending)
      | solved s' =>
        obtain ⟨-, -, hrests, hdone, -, hexplores⟩ := hvisited
        have hlt := hadvanced.bound.trans_lt (Frontier.bound_lt_of_ahead trail Q)
        refine (ih haims₁ hexplores (hlt.trans_le hbound)).bind fun found hfound =>
          Journaled.Yields.pure ?_
        exact (hfound.cons hkeeps.valid hpoised.nested ht.root hrests hdone).congr
          hfollows.le.pending

end Explorer

/-! ### What occurs while a tree is searched -/

/-- An explorer at work, with the best solution that it knows of and the mark of its copies, or a
space that was returned as a solution. -/
inductive Activity
  | exploring (best : Option Space) (mark : Nat) (e : Explorer)
  | solved (s : Space)

/-- What occurs while the tree below a root is searched by any number of explorers. A depth-first
search does not take up solutions. -/
inductive Activity.Occurs (root : Space) : Activity → Prop
  | start (e : Explorer) {e' : Explorer} (h : (e.start root).Returns e') :
      Occurs root (.exploring none 0 e')
  /-- The next node, which is put back. -/
  | next {best : Option Space} {mark : Nat} {e e' : Explorer} {node : Option Space}
      {bound : Option Bound} (h : Occurs root (.exploring best mark e))
      (hnext : (e.nextNode (boundOf best mark)).Returns (node, e', bound)) :
      Occurs root (.exploring best ((bound.map Bound.mark).getD mark) { e' with current := node })
  | explore {best : Option Space} {mark : Nat} {e e' : Explorer} {s : Space} {explored : Explored}
      (h : Occurs root (.exploring best mark e)) (hs : e.current = some s)
      (hexplore : (Explorer.explore { e with current := none } s).Returns (explored, e')) :
      Occurs root (.exploring best mark e')
  | solve {best : Option Space} {mark : Nat} {e e' : Explorer} {s s' : Space}
      (h : Occurs root (.exploring best mark e)) (hs : e.current = some s)
      (hexplore : (Explorer.explore { e with current := none } s).Returns (.solved s', e')) :
      Occurs root (.solved s')
  /-- A solution that is better than another one still. -/
  | confirm {b c s s' : Space} {status : SpaceStatus} (hb : Occurs root (.solved b))
      (hc : Occurs root (.solved c)) (hconstrain : b.constrain c = .ok s)
      (hstatus : s.status.Returns (status, s')) (halive : status ≠ .failed) :
      Occurs root (.solved s')
  /-- A better solution is taken up, by which the current node is constrained. -/
  | improve {best : Option Space} {mark : Nat} {e : Explorer} {b : Space} {current : Option Space}
      (h : Occurs root (.exploring best mark e)) (hb : Occurs root (.solved b))
      (hbetter : ∀ c ∈ best, ∀ o ∈ root.objective, o.Improves c.store b.store.box)
      (hcurrent : e.current.mapM (·.constrain b) = .ok current) :
      Occurs root (.exploring (some b) e.path.length { e with current })
  /-- The statistics are brought up to date. -/
  | count {best : Option Space} {mark : Nat} {e : Explorer} {statistics : Statistics}
      (h : Occurs root (.exploring best mark e))
      (hdepth : e.statistics.depth ≤ statistics.depth) :
      Occurs root (.exploring best mark { e with statistics })
  | rob {best : Option Space} {mark limit : Nat} {e : Explorer} {s : Space} {edge : EdgeInfo}
      {p : Path} (h : Occurs root (.exploring best mark e))
      (hsteal : e.path.steal? limit = .ok (some (s, edge, p))) :
      Occurs root (.exploring best mark { e with path := p })
  /-- The thief may have explored another part before. -/
  | adopt (thief : Explorer) {best : Option Space} {mark limit : Nat} {e : Explorer} {s : Space}
      {edge : EdgeInfo} {p : Path} (h : Occurs root (.exploring best mark e))
      (hsteal : e.path.steal? limit = .ok (some (s, edge, p))) :
      Occurs root (.exploring none 0 (thief.adopt s edge))

/-- An explorer has a frontier in the tree of what is better than its best solution, and a solution
is a node of the tree. -/
def Activity.Lawful (δ : Prop) (t : Tree) : Activity → Prop
  | exploring best mark e => (t.after best).Aims best mark ∧
      ∃ F, e.Explores δ (t.after best) none mark F
  | solved s => t.Stands δ s s.boxes

theorem Explorer.Explores.explore_law {limit : Option Nat} (h : e.Explores δ t limit mark F)
    (hs : e.current = some s) : ∃ Q, F.ahead = some Q ∧ Journaled.Yields δ
      (explore { e with current := none } s)
      (Visited δ t limit mark { e with current := none } F.trail Q) := by
  obtain ⟨Q, hahead, hpoised⟩ := h.current s hs
  exact ⟨Q, hahead, Explorer.explore_law (h.keeps.congr rfl (Nat.le_refl _)) rfl
    ⟨hpoised.represents, hpoised.nested, hpoised.anchored, hpoised.leads⟩⟩

theorem Explorer.Visited.exists_explores {limit : Option Nat} {trail : List Fork} {Q : Set Box}
    {explored : Explored} {e' : Explorer}
    (h : Visited δ t limit mark e trail Q (explored, e')) : ∃ G, e'.Explores δ t limit mark G := by
  cases explored with
  | failed => exact ⟨_, h.2.2.2⟩
  | solved s => exact ⟨_, h.2.2.2.2.2⟩
  | branched =>
    obtain ⟨-, -, f, s, -, hexplores⟩ := h
    exact ⟨_, hexplores⟩

/-- What is better than a solution that is better than the best one is better than that. -/
theorem Tree.improving_subset_beyond {b : Space} (hb : b.store.Sound)
    (hbetter : ∀ c ∈ best, ∀ o ∈ t.objective, o.Improves c.store b.store.box) :
    t.improving b.store ⊆ t.beyond best := by
  intro F hF
  cases best with
  | none => exact Set.mem_univ F
  | some c => exact fun o ho => (hbetter c rfl o ho).trans hb (hF o ho)

theorem Tree.aims_after {b : Space} {R : Set Box} (hb : t.Stands δ b R) (mark : Nat) :
    (t.after (some b)).Aims (some b) mark where
  mark hnone := by cases hnone
  all hnone := by cases hnone
  sound c hc := by
    cases hc
    exact hb.frames.sound
  size c hc := by
    cases hc
    exact hb.frames.narrows.size_ints
  goal c hc := by
    cases hc
    rfl

/-- An explorer takes up a better solution. -/
theorem Explorer.Explores.improve {b : Space} {R : Set Box} {current : Option Space}
    (h : e.Explores δ (t.after best) none mark F) (ht : t.Regular δ) (hb : t.Stands δ b R)
    (hsubset : t.improving b.store ⊆ t.beyond best)
    (hcurrent : e.current.mapM (·.constrain b) = .ok current) :
    Explores δ (t.after (some b)) none e.path.length { e with current } F := by
  have hretarget := h.retarget current hsubset
  rw [← h.keeps.carries.length] at hretarget
  cases hs : e.current with
  | none =>
    rw [hs] at hcurrent
    cases hcurrent
    exact hretarget (fun _ => hs) nofun
  | some s =>
    rw [hs] at hcurrent
    obtain ⟨s', hconstrain, hs'⟩ := Yields.exists_of_bind hcurrent
    cases hs'
    refine hretarget nofun fun s'' hs'' => ⟨s, hs, fun Q _ hrepresents => ?_⟩
    cases hs''
    exact (Worker.constrain_law ht hb hsubset hrepresents).of_ok hconstrain

/-- What occurs is lawful. -/
theorem Activity.Occurs.law {root : Space} {x : Activity} (h : x.Occurs root) (ht : t.Regular δ)
    (hgoal : t.goal = Set.univ) (hroot : t.Represents δ root t.whole) : x.Lawful δ t := by
  have hafter := Tree.after_none hgoal
  have haims : (t.after none).Aims none 0 :=
    ⟨fun _ => rfl, fun _ => rfl, nofun, nofun, nofun⟩
  induction h with
  | start e h =>
    have hwhole : t.Represents δ root (t.whole ∩ t.goal) := by rwa [hgoal, Set.inter_univ]
    obtain ⟨-, ahead, hexplores, -⟩ := (Explorer.start_law (e := e) 0 hwhole).of_returns h
    exact ⟨haims, _, hafter.symm ▸ hexplores.unlimited⟩
  | next h hnext ih =>
    obtain ⟨haims, F, hexplores⟩ := ih
    obtain ⟨mark', G, haims', rfl, -, hexplores'⟩ := Explorer.Arrives.explores
      ((Explorer.nextNode_law haims (ht.after _) hexplores).of_returns hnext)
    rw [haims.getD_boundOf haims']
    exact ⟨haims', G, hexplores'⟩
  | explore h hs hexplore ih =>
    obtain ⟨haims, F, hexplores⟩ := ih
    obtain ⟨Q, -, hlaw⟩ := hexplores.explore_law hs
    exact ⟨haims, (hlaw.of_returns hexplore).exists_explores⟩
  | solve h hs hexplore ih =>
    obtain ⟨-, F, hexplores⟩ := ih
    obtain ⟨Q, -, hlaw⟩ := hexplores.explore_law hs
    obtain ⟨-, -, hrests, -⟩ := hlaw.of_returns hexplore
    exact hrests.toStands.boxes
  | @confirm b c s s' status hb hc hconstrain hstatus halive ihb ihc =>
    have hrepresents : (t.after none).Represents δ b (b.boxes ∩ (t.after none).goal) := by
      rw [hafter, hgoal, Set.inter_univ]
      exact .stands ihb
    have hnarrowed := (Worker.constrain_law ht ihc (Set.subset_univ _) hrepresents).of_ok hconstrain
    have hjudged := (Tree.status_law hnarrowed).of_returns hstatus
    cases status with
    | failed => exact absurd rfl halive
    | solved => exact hjudged.1.toStands.boxes
    | branch => exact hjudged.1.toStands.boxes
  | improve h hb hbetter hcurrent ih ihb =>
    obtain ⟨-, F, hexplores⟩ := ih
    have hobjective : root.objective = t.objective := hroot.objective
    have hsubset := Tree.improving_subset_beyond (t := t) ihb.frames.sound (hobjective ▸ hbetter)
    exact ⟨Tree.aims_after ihb _, F, hexplores.improve ht ihb hsubset hcurrent⟩
  | count h hdepth ih =>
    obtain ⟨haims, F, hexplores⟩ := ih
    exact ⟨haims, F, hexplores.congr rfl rfl rfl hdepth⟩
  | rob h hsteal ih =>
    obtain ⟨haims, F, hexplores⟩ := ih
    obtain ⟨R, G, -, hrobbed, -⟩ := (Explorer.steal_law hexplores _).of_ok hsteal
    exact ⟨haims, G, hrobbed⟩
  | @adopt thief best mark limit e stolen edge p h hsteal ih =>
    obtain ⟨-, F, hexplores⟩ := ih
    obtain ⟨R, G, hstolen, -⟩ := (Explorer.steal_law hexplores _).of_ok hsteal
    have hboxes : (t.after none).Represents δ stolen (stolen.boxes ∩ (t.after none).goal) := by
      rw [hafter, hgoal, Set.inter_univ]
      exact Tree.Represents.boxes hstolen
    exact ⟨haims, _, Explorer.adopt_law thief hboxes edge⟩

/-! ### To steal divides what is left -/

/-- What the thief returns that begins with a stolen node. The node is constrained by the best
solution first. -/
def Explorer.exhaustStolen (nodes : Nat) (thief : Explorer) (stolen : Space) (edge : EdgeInfo)
    (best : Option Space) : Journaled (List Space) := do
  let s ← match best with
    | some b => stolen.constrain b
    | none => pure stolen
  exhaust nodes (thief.adopt s edge) (boundOf best 0)

theorem Tree.Aims.zero (h : t.Aims best mark) : t.Aims best 0 :=
  ⟨fun _ => rfl, h.all, h.sound, h.size, h.goal⟩

/-- The thief returns what lies below the stolen node. -/
theorem Explorer.exhaustStolen_law {nodes : Nat} {stolen : Space} {R : Set Box}
    (haims : t.Aims best mark) (ht : t.Regular δ) (hs : t.Represents δ stolen R)
    (hnodes : Frontier.bound t ⟨[], some R⟩ < nodes) (thief : Explorer) (edge : EdgeInfo) :
    Journaled.Yields δ (exhaustStolen nodes thief stolen edge best)
      (Frontier.Gathers t ⟨[], some R⟩) := by
  have hadopt {s : Space} (hs : t.Represents δ s (R ∩ t.goal)) :
      Journaled.Yields δ (exhaust nodes (thief.adopt s edge) (boundOf best 0))
        (Frontier.Gathers t ⟨[], some R⟩) :=
    exhaust_law haims.zero ht (adopt_law thief hs edge) hnodes
  unfold exhaustStolen
  cases hbest : best with
  | none =>
    subst hbest
    refine hadopt ?_
    rwa [haims.all rfl, Set.inter_univ]
  | some b =>
    subst hbest
    exact (Journaled.Yields.lift (haims.constrain_law ht rfl hs)).bind fun s hs => hadopt hs

/-- The solutions that a search looks for when it knows of a best one. -/
def Sought (statements : List Statement) (root : Space) (best : Option Space) : Set Assignment :=
  {a | SolutionOf statements root a ∧ ∀ b ∈ best, ∀ o ∈ root.objective, o.Improves b.store a.box}

/-- Of the assignments in `Open`, the spaces `found` have those that the spaces `left` or `taken`
have, and these have none in common. -/
structure Divides (Open : Set Assignment) (found left taken : List Space) : Prop where
  union : Open ∩ assignmentsOf found = Open ∩ assignmentsOf left ∪ Open ∩ assignmentsOf taken
  disjoint : Disjoint (Open ∩ assignmentsOf left) (Open ∩ assignmentsOf taken)

/-- What was gathered is divided as the regions are. -/
theorem Frontier.Gathers.divides {found left taken : List Space} {R : Set Box}
    {Open : Set Assignment} (hOpen : ∀ a, t.Solution a ↔ a ∈ Open)
    (hfound : F.Gathers t found) (hleft : G.Gathers t left)
    (htaken : ∀ a, t.Solution a → (a ∈ assignmentsOf taken ↔ a.box ∈ R))
    (hshared : SharedOut F.region G.region R) : Divides Open found left taken where
  union := by
    ext a
    simp only [Set.mem_inter_iff, Set.mem_union, ← hOpen, ← and_or_left]
    refine and_congr_right fun ha => ?_
    rw [hfound.mem_iff a ha, hleft.mem_iff a ha, htaken a ha]
    exact (hshared a).1
  disjoint := by
    refine Set.disjoint_left.2 fun a hl ht => ?_
    have ha := (hOpen a).2 hl.1
    exact (hshared a).2 ⟨(hleft.mem_iff a ha).1 hl.2, (htaken a ha).1 ht.2⟩

/-- Lists of solutions that are divided are, up to their order, one list. -/
theorem Engine.Lists.perm {found left taken : List Space} {P Q R : Set Assignment}
    (hfound : Engine.Lists found P) (hleft : Engine.Lists left Q) (htaken : Engine.Lists taken R)
    (hunion : ∀ a, a ∈ P ↔ a ∈ Q ∨ a ∈ R) (hdisjoint : ∀ a, ¬(a ∈ Q ∧ a ∈ R)) :
    (found.map (·.store.assignment)).Perm ((left ++ taken).map (·.store.assignment)) := by
  rw [List.map_append]
  refine (List.perm_ext_iff_of_nodup hfound.nodup ?_).2 fun a => ?_
  · rw [List.nodup_append]
    refine ⟨hleft.nodup, htaken.nodup, ?_⟩
    rintro a ha b hb rfl
    exact hdisjoint a ⟨(hleft.mem_iff a).1 ha, (htaken.mem_iff a).1 hb⟩
  · rw [List.mem_append, hfound.mem_iff, hleft.mem_iff, htaken.mem_iff, hunion]

/-- **To steal divides what is left.** Whenever a node is stolen from an explorer, it has still the
edges with alternatives that it is to keep. The solutions below the stolen node and those that the
explorer returns from now on have nothing in common, and together they are those that it would have
returned otherwise. The thief returns those below the stolen node. If the branchers decide all
variables, then the explorer and the thief together return the same solutions as the explorer would
have alone, each of them once. -/
theorem Built.steal_divides {policy : Policy} {statements : List Statement} {s stolen : Space}
    {objective : Option Objective} {limit : Nat} {edge : EdgeInfo} {p : Path}
    (h : Built policy statements s) (hw : Searchable δ statements)
    (ho : ∀ o ∈ objective, o.variable.Admissible δ s.store)
    (he : (Activity.exploring best mark e).Occurs { s with objective })
    (hsteal : e.path.steal? limit = .ok (some (stolen, edge, p))) (thief : Explorer) :
    limit ≤ p.edges.countP Edge.hasWork ∧ ∃ enough, ∀ nodes, enough ≤ nodes →
      Journaled.Yields δ (Explorer.exhaust nodes e (boundOf best mark)) fun found =>
      Journaled.Yields δ
        (Explorer.exhaust nodes { e with path := p } (boundOf best mark)) fun left =>
      Journaled.Yields δ (Explorer.exhaustStolen nodes thief stolen edge best) fun taken =>
        Divides (Sought statements { s with objective } best) found left [stolen] ∧
        Divides (Sought statements { s with objective } best) found left taken ∧
        (Covered statements s.store →
          (∀ s' ∈ found, s'.store.Assigned ∧
            s'.store.assignment ∈ Sought statements { s with objective } best) ∧
          (found.map (·.store.assignment)).Nodup ∧
          (found.map (·.store.assignment)).Perm ((left ++ taken).map (·.store.assignment))) := by
  obtain ⟨t, ht, hgoal, hobjective, hroot, hchain, hcompiles, hrepresents⟩ :=
    h.exists_tree hw.proper hw.branched ho
  obtain ⟨haims, F, hexplores⟩ := he.law ht hgoal hrepresents
  obtain ⟨R, G, hstolen, hrobbed, -, hshared⟩ := (Explorer.steal_law hexplores limit).of_ok hsteal
  have hSought (a : Assignment) :
      (t.after best).Solution a ↔ a ∈ Sought statements { s with objective } best := by
    rw [Tree.solution_after hgoal, Tree.solution_iff hcompiles hroot hgoal]
    refine and_congr_right fun _ => ?_
    rw [hobjective.symm]
    cases best with
    | none => exact iff_of_true (Set.mem_univ _) nofun
    | some b => exact ⟨fun hb c hc => by cases hc; exact hb, fun hb => hb b rfl⟩
  constructor
  · obtain ⟨below, d, above, -, -, hcount, hq⟩ :=
      Path.exists_of_steal hexplores.keeps.carries.balanced hsteal
    rw [hq.edges, List.countP_append, hcount]
    exact Nat.le_add_right _ _
  refine ⟨F.bound (t.after best) + G.bound (t.after best) +
    Frontier.bound (t.after best) ⟨[], some R⟩ + 1, fun nodes hnodes => ?_⟩
  have ht' := ht.after best
  refine (Explorer.exhaust_law haims ht' hexplores (by omega)).mono fun found hfound => ?_
  refine (Explorer.exhaust_law haims ht' hrobbed (by omega)).mono fun left hleft => ?_
  refine (Explorer.exhaustStolen_law haims ht' hstolen (by omega) thief edge).mono
    fun taken htaken => ⟨?_, ?_, fun hcovered => ?_⟩
  · refine hfound.divides hSought hleft (fun a ha => ?_) hshared
    rw [← hstolen.mem_boxes ha.2]
    simp [assignmentsOf]
  · refine hfound.divides hSought hleft (fun a ha => ?_) hshared
    rw [htaken.mem_iff a ha, Frontier.region_nil]
    simp
  · have hexact := (Tree.exact_of_covered hcompiles hw.distinct hchain hroot hcovered).after best
    have hlists := hfound.lists hexact
    refine ⟨fun s' hs' => ⟨hlists.assigned s' hs', ?_⟩, hlists.nodup, ?_⟩
    · exact (hSought _).1 ((hlists.mem_iff _).1 (List.mem_map_of_mem hs')).1
    · refine hlists.perm (hleft.lists hexact) (htaken.lists hexact) (fun a => ?_) fun a ha => ?_
      · have hregion : a.box ∈ Frontier.region ⟨[], some R⟩ ↔ a.box ∈ R := by
          rw [Frontier.region_nil]
          simp
        simp only [Frontier.pending, Set.mem_ofPred_eq, hregion, ← and_or_left, (hshared a).1]
      · have hmem := ha.2.2
        rw [Frontier.region_nil] at hmem
        obtain ⟨Q, hQ, hbox⟩ := hmem
        cases hQ
        exact (hshared a).2 ⟨ha.1.2, hbox⟩

/-- Whether an explorer has something to give away once it has explored the root. -/
def Explorer.parts (s : Space) : Bool :=
  ((ofExploration {} (Tracing.start 0 false)).start s).check fun e =>
    e.current.any fun root => (explore { e with current := none } root).check fun (_, e) =>
      match e.path.steal? 0 with
      | .ok (some _) => true
      | _ => false

/-- Some of the four solutions are stolen. -/
theorem Built.steal_divides_differing : ∃ s e stolen edge p,
    Built .costOrdered differing s ∧
      (Activity.exploring none 0 e).Occurs { s with objective := none } ∧
      e.path.steal? 0 = .ok (some (stolen, edge, p)) ∧ ∃ enough, ∀ nodes, enough ≤ nodes →
        Journaled.Yields False (Explorer.exhaust nodes e (boundOf none 0)) fun found =>
        Journaled.Yields False (Explorer.exhaust nodes { e with path := p } (boundOf none 0))
          fun left =>
        Journaled.Yields False (Explorer.exhaustStolen nodes e stolen edge none) fun taken =>
          (found.map (·.store.assignment)).Perm ((left ++ taken).map (·.store.assignment)) := by
  have hcheck : buildsTo .costOrdered differing (fun s =>
      Covered differing s.store && Explorer.parts { s with objective := none }) = true := by
    decide +kernel
  obtain ⟨s, hs, hproperty⟩ := exists_built_of_buildsTo hcheck
  obtain ⟨hcovered, hparts⟩ := Bool.and_eq_true_iff.1 hproperty
  obtain ⟨e₀, hstart, hparts⟩ := Journaled.exists_of_check hparts
  obtain ⟨hroot, hparts⟩ := (Option.any_eq_true_iff_get _ _).1 hparts
  obtain ⟨⟨explored, e⟩, hexplore, hparts⟩ := Journaled.exists_of_check hparts
  have he : (Activity.exploring none 0 e).Occurs { s with objective := none } :=
    (Activity.Occurs.start _ hstart).explore (Option.some_get hroot).symm hexplore
  dsimp only at hparts
  split at hparts <;> rename_i hsteal
  · rename_i stolen
    obtain ⟨stolen, edge, p⟩ := stolen
    obtain ⟨-, enough, hdivides⟩ := hs.steal_divides (δ := False) (by decide)
      (fun o ho => by cases ho) he hsteal e
    refine ⟨s, e, stolen, edge, p, hs, he, hsteal, enough, fun nodes hnodes => ?_⟩
    refine (hdivides nodes hnodes).mono fun found hfound => hfound.mono fun left hleft =>
      hleft.mono fun taken htaken => ?_
    exact (htaken.2.2 (of_decide_eq_true hcovered)).2.2
  · cases hparts

end ConstraintSearch
