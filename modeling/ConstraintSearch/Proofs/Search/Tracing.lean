import ConstraintSearch.Proofs.Search.SpaceTree

/-!
# The trace accounts for the whole tree

Every alternative of a split node is a slot of the tree, and so is the root. A trace fills slots by
nodes and by skipped edges, and the nodes that it splits offer new ones. At any time the slots on
offer are those that were filled and those that are left on the path.

* `filled`, `offered`: the slots of a trace;
* `settled`, `opened`, `due`: the slots that are left on a path;
* `Tracing.Ledger`: the balance of a trace, with the laws of its events;
* `Explorer.Balanced`: the invariant of an exploration;
* `Engine.trace_accounts`: the trace of an exhausted search.
-/

namespace ConstraintSearch

open Journaled (Ensures)

/-! ### Slots -/

/-- A place in the tree: an alternative of a node, or the root. -/
abbrev Slot : Type := Option NodeId × Nat

def EdgeInfo.slot (e : EdgeInfo) : Slot := (e.parent, e.alternative)

/-- The place of the root. -/
def rootSlot : Slot := (none, 0)

namespace TraceEvent

/-- The node that the event is about. -/
def id? : TraceEvent → Option NodeId
  | node _ id _ => some id
  | round _ | skip _ | done => none

/-- The slots that the event fills. -/
def fills : TraceEvent → Multiset Slot
  | node edge _ _ | skip edge => {edge.slot}
  | round _ | done => 0

/-- The slots that the event offers. -/
def offers : TraceEvent → Multiset Slot
  | node _ id (.branch alternatives) =>
      ((List.range alternatives).map fun a => ((some id, a) : Slot) : List Slot)
  | node _ _ .solved | node _ _ .failed | round _ | skip _ | done => 0

end TraceEvent

/-- The slots that the nodes and the skipped edges of a trace fill. -/
def filled (trace : List TraceEvent) : Multiset Slot := (trace.map TraceEvent.fills).sum

/-- The slots that the split nodes of a trace offer. -/
def offered (trace : List TraceEvent) : Multiset Slot := (trace.map TraceEvent.offers).sum

@[simp] theorem filled_append (trace : List TraceEvent) (event : TraceEvent) :
    filled (trace ++ [event]) = filled trace + event.fills := by
  simp [filled]

@[simp] theorem offered_append (trace : List TraceEvent) (event : TraceEvent) :
    offered (trace ++ [event]) = offered trace + event.offers := by
  simp [offered]

namespace Edge

/-- The slots of the edge from an alternative on. -/
def slots (e : Edge) (first : Nat) : Multiset Slot :=
  ((List.range' first (e.last + 1 - first)).map fun a => ((some e.node, a) : Slot) : List Slot)

/-- The slot of the alternative that is explored. -/
def slot (e : Edge) : Slot := (some e.node, e.taken)

/-- The edge holds all alternatives of its choice. -/
def Whole (e : Edge) : Prop := e.choice.alternatives = e.last + 1

/-- The edge without its copy. -/
def bare (e : Edge) : Edge := { e with space := none, memory := 0 }

variable {e : Edge} {first : Nat}

theorem slots_of_lt (h : e.last < first) : e.slots first = 0 := by
  unfold slots
  rw [Nat.sub_eq_zero_of_le (Nat.succ_le_of_lt h)]
  rfl

theorem slots_of_le (h : first ≤ e.last) :
    e.slots first = {(some e.node, first)} + e.slots (first + 1) := by
  unfold slots
  rw [show e.last + 1 - first = e.last + 1 - (first + 1) + 1 by omega, List.range'_succ,
    List.map_cons, ← Multiset.cons_coe]
  exact (Multiset.singleton_add _ _).symm

theorem Whole.taken_eq (h : e.Whole) : e.taken = min e.alternative e.last := by
  unfold taken
  rw [h, Nat.add_sub_cancel]

/-- The slots from the explored alternative on are its own and those behind it. -/
theorem Whole.slots_taken (h : e.Whole) :
    e.slots e.taken = {e.slot} + e.slots (e.alternative + 1) := by
  have htaken := h.taken_eq
  rw [slots_of_le (by omega)]
  unfold slot
  congr 1
  by_cases hle : e.alternative ≤ e.last
  · rw [htaken, Nat.min_eq_left hle]
  · rw [slots_of_lt (by omega), slots_of_lt (by omega)]

end Edge

/-- The slots left on a path whose deepest alternatives are done. -/
def settled (edges : List Edge) : Multiset Slot :=
  (edges.map fun e => e.slots (e.alternative + 1)).sum

/-- The slot of the node that a path leads to. -/
def topSlot : List Edge → Slot
  | [] => rootSlot
  | e :: _ => e.slot

/-- The slots left on a path if the node that it leads to is still to be explored. -/
def opened (edges : List Edge) : Multiset Slot := {topSlot edges} + settled edges

/-- The slots left on a path, of which none is left once it is empty. -/
def due : List Edge → Multiset Slot
  | [] => 0
  | e :: edges => opened (e :: edges)

@[simp] theorem settled_cons (e : Edge) (edges : List Edge) :
    settled (e :: edges) = e.slots (e.alternative + 1) + settled edges := by
  simp [settled]

theorem opened_cons (e : Edge) (edges : List Edge) :
    opened (e :: edges) = {e.slot} + (e.slots (e.alternative + 1) + settled edges) := by
  rw [opened, settled_cons]
  rfl

theorem settled_bare (edges : List Edge) : settled (edges.map Edge.bare) = settled edges := by
  unfold settled
  rw [List.map_map]
  rfl

theorem opened_bare (edges : List Edge) : opened (edges.map Edge.bare) = opened edges := by
  unfold opened
  rw [settled_bare]
  cases edges <;> rfl

/-- The slots left on a path do not depend on its copies. -/
theorem opened_congr {edges edges' : List Edge} (h : edges.map Edge.bare = edges'.map Edge.bare) :
    opened edges = opened edges' := by
  rw [← opened_bare edges, h, opened_bare]

theorem whole_congr {edges edges' : List Edge} (h : edges.map Edge.bare = edges'.map Edge.bare)
    (hwhole : ∀ e ∈ edges', e.Whole) : ∀ e ∈ edges, e.Whole := by
  intro e he
  have hmem : e.bare ∈ edges'.map Edge.bare := h ▸ List.mem_map_of_mem he
  obtain ⟨e', he', heq⟩ := List.mem_map.1 hmem
  have hwhole' : e'.bare.Whole := hwhole e' he'
  exact (heq ▸ hwhole' : e.bare.Whole)

theorem due_of_ne_nil {edges : List Edge} (h : edges ≠ []) : due edges = opened edges := by
  cases edges with
  | nil => exact absurd rfl h
  | cons e edges => rfl

/-! ### Traces -/

namespace Tracing

variable {t : Tracing} {root owed : Multiset Slot}

/-- The events so far. -/
def trace (t : Tracing) : List TraceEvent := (t.events.map Array.toList).getD []

theorem trace_record (h : t.isActive = true) (event : TraceEvent) :
    (t.record event).trace = t.trace ++ [event] := by
  obtain ⟨events, hevents⟩ := Option.isSome_iff_exists.1 h
  unfold trace record
  rw [hevents]
  simp

/-- The balance of a trace: the slots that are filled and those that are owed are the root's, if it
has one, and the slots on offer. -/
structure Ledger (t : Tracing) (root owed : Multiset Slot) : Prop where
  active : t.isActive = true
  /-- The next node has a name of its own. -/
  fresh : ∀ event ∈ t.trace, ∀ id ∈ event.id?, id.worker = t.worker ∧ id.index < t.next
  distinct : (t.trace.filterMap TraceEvent.id?).Nodup
  /-- The root is not skipped. -/
  skips : ∀ edge, .skip edge ∈ t.trace → edge.parent.isSome = true
  balance : filled t.trace + owed = root + offered t.trace

theorem Ledger.skip {edge : EdgeInfo} (h : t.Ledger root ({edge.slot} + owed))
    (hedge : edge.parent.isSome = true) : (t.skip edge).Ledger root owed := by
  have htrace : (t.skip edge).trace = t.trace ++ [.skip edge] := trace_record h.active _
  refine ⟨by simpa [Tracing.skip, record, isActive] using h.active, ?_, ?_, ?_, ?_⟩
  · rw [htrace]
    rintro event hevent id hid
    rcases List.mem_append.1 hevent with hevent | hevent
    · exact h.fresh event hevent id hid
    · rw [List.mem_singleton.1 hevent] at hid
      cases hid
  · rw [htrace, List.filterMap_append]
    exact (List.append_nil _).symm ▸ h.distinct
  · rw [htrace]
    intro edge' hedge'
    rcases List.mem_append.1 hedge' with hmem | hmem
    · exact h.skips edge' hmem
    · cases List.mem_singleton.1 hmem
      exact hedge
  · rw [htrace, filled_append, offered_append]
    show filled t.trace + {edge.slot} + owed = root + (offered t.trace + 0)
    rw [add_assoc, h.balance, add_zero]

/-- A node is reported under the next name. -/
theorem Ledger.node {edge : EdgeInfo} (h : t.Ledger root ({edge.slot} + owed)) (kind : NodeKind) :
    (t.nextNode.2.node edge t.nextNode.1 kind).Ledger root
      (owed + TraceEvent.offers (.node edge t.nextNode.1 kind)) := by
  have hactive : t.nextNode.2.isActive = true := h.active
  have htrace : (t.nextNode.2.node edge t.nextNode.1 kind).trace =
      t.trace ++ [.node edge t.nextNode.1 kind] := trace_record hactive _
  refine ⟨by simpa [Tracing.node, record, isActive] using hactive, ?_, ?_, ?_, ?_⟩
  · rw [htrace]
    rintro event hevent id hid
    rcases List.mem_append.1 hevent with hevent | hevent
    · obtain ⟨hworker, hindex⟩ := h.fresh event hevent id hid
      exact ⟨hworker, Nat.lt_succ_of_lt hindex⟩
    · rw [List.mem_singleton.1 hevent] at hid
      cases hid
      exact ⟨rfl, Nat.lt_succ_self _⟩
  · rw [htrace, List.filterMap_append]
    refine List.nodup_append.2 ⟨h.distinct, List.nodup_singleton _, ?_⟩
    rintro id hid id' hid' rfl
    cases List.mem_singleton.1 hid'
    obtain ⟨event, hevent, hid⟩ := List.mem_filterMap.1 hid
    exact absurd (h.fresh event hevent _ hid).2 (lt_irrefl _)
  · rw [htrace]
    intro edge' hedge'
    rcases List.mem_append.1 hedge' with hmem | hmem
    · exact h.skips edge' hmem
    · cases List.mem_singleton.1 hmem
  · rw [htrace, filled_append, offered_append, ← add_assoc root, ← h.balance]
    show filled t.trace + {edge.slot} + _ = _
    rw [add_assoc, add_assoc, add_assoc]

end Tracing

theorem EdgeInfo.slot_of_ofChoice {parent : NodeId} {choice : Choice} {alternative : Nat}
    {edge : EdgeInfo} (h : ofChoice parent choice alternative = .ok edge) :
    edge.slot = (some parent, alternative) ∧ edge.parent.isSome = true := by
  obtain ⟨text, -, h⟩ := Yields.exists_of_bind h
  cases h
  exact ⟨rfl, rfl⟩

/-! ### Paths -/

namespace Path

variable {p p' : Path} {t t' : Tracing} {root owed : Multiset Slot}

theorem edges_of_pop (h : p.pop = .ok p') : p'.edges = p.edges.tail := by
  unfold pop at h
  split at h
  · rename_i hedges
    cases h
    rw [hedges]
    rfl
  · rename_i e edges hedges
    obtain ⟨memory, -, h⟩ := Yields.exists_of_bind h
    rw [hedges]
    dsimp only at h
    split at h <;> obtain ⟨edgesWithWork, -, h⟩ := Yields.exists_of_bind h <;> cases h <;> rfl

/-- What is left on a path with its deepest alternative done, is left on the path to the next
node. -/
structure Advances (edges : List Edge) (p' : Path) : Prop where
  slots : due p'.edges = settled edges
  whole : ∀ e ∈ p'.edges, e.Whole
  ready : ∀ top ∈ p'.edges.head?, top.alternative ≤ top.last

theorem advanceWithin_edges {steps : Nat} (hsteps : p.length < steps)
    (hwhole : ∀ e ∈ p.edges, e.Whole) (h : advanceWithin steps p = .ok p') :
    Advances p.edges p' := by
  induction steps generalizing p with
  | zero => exact absurd hsteps (Nat.not_lt_zero _)
  | succ steps ih =>
    unfold advanceWithin at h
    split at h
    · rename_i hedges
      cases h
      refine ⟨by rw [hedges]; rfl, hwhole, fun top htop => ?_⟩
      rw [hedges] at htop
      cases htop
    · rename_i e edges hedges
      rw [hedges] at hwhole ⊢
      obtain ⟨he, hwhole⟩ := List.forall_mem_cons.1 hwhole
      split at h
      · rename_i hr
        obtain ⟨q, hpop, h⟩ := Yields.exists_of_bind h
        have hq : q.edges = edges := (edges_of_pop hpop).trans (by rw [hedges]; rfl)
        have hlength : q.length < steps := by
          unfold length at hsteps ⊢
          rw [hedges, List.length_cons] at hsteps
          rw [hq]
          omega
        have hadvances := ih hlength (hq ▸ hwhole) h
        rw [hq] at hadvances
        have hlast : e.last < e.alternative + 1 := by
          simpa [Edge.isRightmost, Nat.lt_succ_iff] using hr
        exact ⟨by rw [settled_cons, Edge.slots_of_lt hlast, zero_add, hadvances.slots],
          hadvances.whole, hadvances.ready⟩
      · rename_i hr
        obtain ⟨edgesWithWork, rfl⟩ : ∃ edgesWithWork, p' = { p with
            edges := { e with alternative := e.alternative + 1 } :: edges, edgesWithWork } := by
          dsimp only at h
          split at h <;> obtain ⟨edgesWithWork, -, h⟩ := Yields.exists_of_bind h <;> cases h <;>
            exact ⟨edgesWithWork, rfl⟩
        have hlt : e.alternative < e.last := by simpa [Edge.isRightmost] using hr
        have he' : Edge.Whole { e with alternative := e.alternative + 1 } := he
        refine ⟨?_, List.forall_mem_cons.2 ⟨he', hwhole⟩, ?_⟩
        · show {Edge.slot { e with alternative := e.alternative + 1 }} + settled _ = _
          have htaken : Edge.taken { e with alternative := e.alternative + 1 } =
            e.alternative + 1 :=
            he'.taken_eq.trans (Nat.min_eq_left hlt)
          have hslots := he'.slots_taken
          rw [htaken] at hslots
          rw [settled_cons, settled_cons, ← add_assoc, ← hslots]
          rfl
        · rintro _ ⟨⟩
          exact hlt

theorem advance_edges (hwhole : ∀ e ∈ p.edges, e.Whole) (h : p.advance = .ok p') :
    Advances p.edges p' :=
  advanceWithin_edges (Nat.lt_succ_self _) hwhole h

/-- A split node adds its slots to those that are left. -/
theorem push_edges {choice : Choice} {copy : Option Space} {id : NodeId}
    (hchoice : 2 ≤ choice.alternatives) (hwhole : ∀ e ∈ p.edges, e.Whole)
    (h : p.push choice copy id = .ok p') (edge : EdgeInfo) :
    opened p'.edges = settled p.edges +
        TraceEvent.offers (.node edge id (.branch choice.alternatives)) ∧
      (∀ top ∈ p'.edges.head?, top.alternative ≤ top.last) ∧ ∀ e ∈ p'.edges, e.Whole := by
  let top : Edge := ⟨copy, (copy.map (·.memory)).getD 0, choice, 0, choice.alternatives - 1, id⟩
  -- An edge that makes room is used up.
  obtain ⟨edges, hedges, hsettled, hrest⟩ : ∃ edges, p'.edges = top :: edges ∧
      settled edges = settled p.edges ∧ ∀ e ∈ edges, e.Whole := by
    unfold push at h
    dsimp only at h
    split at h
    · rename_i e edges hedges
      split at h
      · rename_i hu
        obtain ⟨q, hpop, h⟩ := Yields.exists_of_bind h
        cases h
        have hlast : e.last < e.alternative := of_decide_eq_true hu
        refine ⟨q.edges, rfl, ?_, fun e' he' => hwhole e' ?_⟩
        · rw [edges_of_pop hpop, hedges, settled_cons, Edge.slots_of_lt (by omega), zero_add]
          rfl
        · rw [edges_of_pop hpop] at he'
          exact List.mem_of_mem_tail he'
      · cases h
        exact ⟨p.edges, rfl, rfl, hwhole⟩
    · cases h
      exact ⟨p.edges, rfl, rfl, hwhole⟩
  have htop : top.Whole := by
    show choice.alternatives = choice.alternatives - 1 + 1
    omega
  have hslots : top.slots 0 = {top.slot} + top.slots (0 + 1) := by
    have htaken : top.taken = 0 := htop.taken_eq.trans (Nat.zero_min _)
    exact htaken ▸ htop.slots_taken
  have hoffers : top.slots 0 = TraceEvent.offers (.node edge id (.branch choice.alternatives)) := by
    unfold Edge.slots TraceEvent.offers
    dsimp only
    rw [List.range_eq_range', show top.last + 1 - 0 = choice.alternatives from htop.symm]
  rw [hedges]
  refine ⟨?_, ?_, List.forall_mem_cons.2 ⟨htop, hrest⟩⟩
  swap
  · rintro _ ⟨⟩
    exact Nat.zero_le _
  show {top.slot} + settled (top :: edges) = _
  rw [settled_cons, ← add_assoc, ← hslots, hoffers, hsettled, add_comm]

theorem ledger_skipFrom {e : Edge} {first : Nat} (h : skipFrom e first t = .ok t')
    (ht : t.Ledger root (e.slots first + owed)) : t'.Ledger root owed := by
  unfold skipFrom at h
  unfold Edge.slots at ht
  rw [List.range'_eq_map_range, List.map_map] at ht
  generalize List.range (e.last + 1 - first) = is at h ht
  induction is generalizing t with
  | nil =>
    cases h
    exact (zero_add owed) ▸ ht
  | cons i is ih =>
    rw [List.foldlM_cons] at h
    obtain ⟨_, hskip, h⟩ := Yields.exists_of_bind h
    obtain ⟨edge, hedge, hskip⟩ := Yields.exists_of_bind hskip
    cases hskip
    obtain ⟨hslot, hparent⟩ := EdgeInfo.slot_of_ofChoice hedge
    refine ih h (Tracing.Ledger.skip ?_ hparent)
    rw [hslot, ← add_assoc]
    exact ht

/-- Below the top, the alternatives behind the explored ones are skipped. -/
theorem ledger_unwindWithin {depth steps : Nat}
    (h : unwindWithin depth steps false p t = .ok (p', t'))
    (hwhole : ∀ e ∈ p.edges, e.Whole) (ht : t.Ledger root (settled p.edges)) :
    t'.Ledger root (settled p'.edges) ∧ ∀ e ∈ p'.edges, e.Whole := by
  induction steps generalizing p t with
  | zero =>
    cases h
    exact ⟨ht, hwhole⟩
  | succ steps ih =>
    unfold unwindWithin at h
    split at h
    · cases h
      exact ⟨ht, hwhole⟩
    · rename_i e edges hedges
      split at h
      · cases h
        exact ⟨ht, hwhole⟩
      · obtain ⟨q, hpop, h⟩ := Yields.exists_of_bind h
        have hq : q.edges = edges := (edges_of_pop hpop).trans (by rw [hedges]; rfl)
        rw [hedges] at hwhole ht
        rw [settled_cons] at ht
        dsimp only at h
        rw [if_pos ht.active] at h
        obtain ⟨t₁, hskip, h⟩ := Yields.exists_of_bind h
        refine ih h (hq ▸ (List.forall_mem_cons.1 hwhole).2) ?_
        rw [hq]
        exact ledger_skipFrom hskip ht

/-- To unwind a path skips what is left on it: at the top, the node that is not reached as well. -/
theorem ledger_unwind {depth : Nat} {top : Edge} {edges : List Edge}
    (h : p.unwind depth t = .ok (p', t')) (hedges : p.edges = top :: edges)
    (hdepth : depth ≤ edges.length) (hready : top.alternative ≤ top.last)
    (hwhole : ∀ e ∈ p.edges, e.Whole) (ht : t.Ledger root (opened p.edges)) :
    t'.Ledger root (settled p'.edges) ∧ ∀ e ∈ p'.edges, e.Whole := by
  unfold unwind length at h
  rw [hedges, List.length_cons] at h
  unfold unwindWithin at h
  rw [hedges] at h hwhole ht
  dsimp only at h
  rw [if_neg (not_lt.2 hdepth)] at h
  obtain ⟨q, hpop, h⟩ := Yields.exists_of_bind h
  have hq : q.edges = edges := (edges_of_pop hpop).trans (by rw [hedges]; rfl)
  obtain ⟨htop, hwhole⟩ := List.forall_mem_cons.1 hwhole
  have hslots := htop.slots_taken
  rw [htop.taken_eq, Nat.min_eq_left hready] at hslots
  rw [opened_cons, ← add_assoc, ← hslots] at ht
  rw [if_pos ht.active] at h
  obtain ⟨t₁, hskip, h⟩ := Yields.exists_of_bind h
  refine ledger_unwindWithin h (hq ▸ hwhole) ?_
  rw [hq]
  exact ledger_skipFrom hskip ht

end Path

/-! ### Explorations -/

namespace Explorer

variable {e e' : Explorer} {root owed : Multiset Slot} {bound : Option Bound}

/-- The trace of an exploration has a balance. -/
structure Accounts (root owed : Multiset Slot) (e : Explorer) : Prop where
  ledger : e.tracing.Ledger root owed
  whole : ∀ edge ∈ e.path.edges, edge.Whole
  rootEdge : e.rootEdge = .root

/-- The path leads to a node that is to be rebuilt. -/
structure Points (root : Multiset Slot) (e : Explorer) : Prop where
  accounts : e.Accounts root (opened e.path.edges)
  ready : ∀ top ∈ e.path.edges.head?, top.alternative ≤ top.last
  current : e.current = none

theorem Points.congr (h : e.Points root)
    (hedges : e'.path.edges.map Edge.bare = e.path.edges.map Edge.bare)
    (htracing : e'.tracing = e.tracing) (hroot : e'.rootEdge = e.rootEdge)
    (hcurrent : e'.current = e.current) : e'.Points root where
  accounts := ⟨by rw [htracing, opened_congr hedges]; exact h.accounts.ledger,
    whole_congr hedges h.accounts.whole, hroot.trans h.accounts.rootEdge⟩
  ready top htop := by
    have hhead := congrArg List.head? hedges
    rw [List.head?_map, List.head?_map, htop] at hhead
    obtain ⟨top', htop', heq⟩ := Option.map_eq_some_iff.1 hhead.symm
    have hready : top'.bare.alternative ≤ top'.bare.last := h.ready top' htop'
    exact (heq ▸ hready : top.bare.alternative ≤ top.bare.last)
  current := hcurrent.trans h.current

/-- What rebuilding a node leaves: the node, still to be explored, or a path whose deepest
alternatives are done. -/
def Balances (root : Multiset Slot) : Option Space × Explorer × Option Bound → Prop
  | (some _, e, _) => e.current = none ∧ e.Accounts root (opened e.path.edges)
  | (none, e, _) => e.current = none ∧ e.Accounts root (settled e.path.edges)

theorem Points.balances {s : Space} (h : e.Points root) : Balances root (some s, e, bound) :=
  ⟨h.current, h.accounts⟩

theorem Points.failAt (h : e.Points root) {depth : Nat} (hdepth : depth < e.path.edges.length)
    (bound : Option Bound) : (e.failAt depth bound).Ensures (Balances root) := by
  obtain ⟨top, edges, hedges⟩ := List.exists_cons_of_length_pos (Nat.zero_lt_of_lt hdepth)
  have hready : top.alternative ≤ top.last := h.ready top (by rw [hedges]; rfl)
  rw [hedges, List.length_cons] at hdepth
  refine (Ensures.lift fun _ hunwind => Path.ledger_unwind hunwind hedges
    (Nat.le_of_lt_succ hdepth) hready h.accounts.whole h.accounts.ledger).bind ?_
  exact fun r hr => .pure ⟨h.current, hr.1, hr.2, h.accounts.rootEdge⟩

theorem Points.reuseTop (h : e.Points root) {top : Edge} {edges : List Edge} (copy : Space)
    (hedges : e.path.edges = top :: edges) (hr : top.isRightmost = true) (bound : Option Bound) :
    (e.reuseTop top copy edges bound).Ensures (Balances root) := by
  have hready : top.alternative ≤ top.last := h.ready top (by rw [hedges]; rfl)
  have hlast : top.last ≤ top.alternative := of_decide_eq_true hr
  have hwhole := h.accounts.whole
  have hledger := h.accounts.ledger
  rw [hedges] at hwhole hledger
  obtain ⟨htop, hrest⟩ := List.forall_mem_cons.1 hwhole
  rw [reuseTop_eq]
  refine Ensures.trivial.bind fun memory _ => Ensures.trivial.bind fun s _ =>
    Ensures.trivial.bind fun r _ => .pure ⟨h.current, ?_⟩
  dsimp only
  generalize halternative : (if e.path.noGoodDepth < edges.length + 1 then top.alternative + 1
    else top.alternative) = alternative
  have hle : top.last ≤ alternative := by split at halternative <;> omega
  -- The last alternative is explored, however the edge is kept.
  let used : Edge := { top with space := none, memory := 0, alternative }
  have hused : used.Whole := htop
  have hopened : opened (used :: edges) = opened (top :: edges) := by
    have htaken : used.taken = top.taken := by
      rw [hused.taken_eq, htop.taken_eq]
      exact (Nat.min_eq_right hle).trans (Nat.min_eq_right hlast).symm
    have hslot : used.slot = top.slot := congrArg (Prod.mk (some top.node)) htaken
    have hnone : used.slots (used.alternative + 1) = 0 :=
      Edge.slots_of_lt (Nat.lt_succ_of_le hle)
    rw [opened_cons, opened_cons, hslot, hnone, Edge.slots_of_lt (Nat.lt_succ_of_le hlast)]
  exact ⟨hopened ▸ hledger, List.forall_mem_cons.2 ⟨hused, hrest⟩, h.accounts.rootEdge⟩

theorem Points.replayHalfway (h : e.Points root) {segment above : List Edge} (s : Space)
    (hedges : e.path.edges.map Edge.bare = (segment.reverse ++ above).map Edge.bare)
    (bound : Option Bound) : (e.replayHalfway s segment above bound).Ensures (Balances root) := by
  unfold Explorer.replayHalfway
  dsimp only
  generalize hupper : segment.take (segment.length / 2) = upper
  generalize hlower : segment.drop (segment.length / 2) = lower
  generalize hskipped : lower.takeWhile (·.isRightmost) = skipped
  have hsegment : segment = upper ++ (skipped ++ lower.dropWhile (·.isRightmost)) := by
    rw [← hskipped, List.takeWhile_append_dropWhile, ← hupper, ← hlower, List.take_append_drop]
  refine Ensures.trivial.bind fun s _ => ?_
  split
  · rename_i first second rest hremaining
    rw [hremaining] at hsegment
    refine Ensures.trivial.bind fun (status, s, statistics) _ => ?_
    dsimp only
    split
    · have hpoints : Points root { e with statistics } := h.congr rfl rfl rfl rfl
      refine hpoints.failAt ?_ bound
      have hlength := congrArg List.length hedges
      simp only [List.length_map, hsegment, List.length_append, List.length_reverse,
        List.length_cons] at hlength
      show _ < e.path.edges.length
      omega
    · refine Ensures.trivial.bind fun memory _ => Ensures.trivial.bind fun s' _ => .pure ?_
      refine Points.balances (h.congr ?_ rfl rfl rfl)
      rw [hedges, hsegment]
      simp [Edge.bare]
  · exact Ensures.trivial.bind fun s' _ => .pure h.balances

theorem Points.rebuild (h : e.Points root) (bound : Option Bound) :
    (e.rebuild bound).Ensures (Balances root) := by
  obtain ⟨fault, hrebuild⟩ | ⟨top, copy, edges, hedges, -, hr, hrebuild⟩ |
    ⟨top, edges, below, edge, copy, above, hedges, hfar, hsplit⟩ := e.rebuild_cases bound
  · rw [hrebuild]
    exact .throw _
  · rw [hrebuild]
    exact h.reuseTop copy hedges hr bound
  · rw [rebuild_eq hedges hfar hsplit]
    obtain ⟨hpath, -⟩ := Path.edges_of_splitAtCopy? hsplit
    have hrefresh : (refreshCopy { e with distance := below.length + 1 } below edge copy above
        bound).Ensures fun r => r.2.2.1.Points root ∧
          r.2.2.1.path.edges.map Edge.bare = (below ++ edge :: above).map Edge.bare := by
      have hpoints : Points root { e with distance := below.length + 1 } :=
        h.congr rfl rfl rfl rfl
      have hsame : e.path.edges.map Edge.bare = (below ++ edge :: above).map Edge.bare := by
        rw [hedges, hpath]
      unfold refreshCopy
      split
      · exact .pure ⟨hpoints, hsame⟩
      split
      · refine Ensures.trivial.bind fun copy _ => Ensures.trivial.bind fun r _ => .pure ?_
        have hstored : (below ++ { edge with space := some r.2.1 } :: above).map Edge.bare =
            (below ++ edge :: above).map Edge.bare := by
          simp [Edge.bare]
        exact ⟨h.congr (hstored.trans hsame.symm) rfl rfl rfl, hstored⟩
      · exact .pure ⟨hpoints, hsame⟩
    refine hrefresh.bind fun (status, copy, e', bound) ⟨hpoints, hsame⟩ => ?_
    dsimp only at hpoints hsame ⊢
    split
    · refine hpoints.failAt ?_ bound
      have hlength := congrArg List.length hsame
      simp only [List.length_map, List.length_append, List.length_cons] at hlength
      omega
    · split
      · exact Ensures.trivial.bind fun s _ => .pure hpoints.balances
      · refine hpoints.replayHalfway copy ?_ bound
        rw [hsame]
        simp [Edge.bare]

/-- Between two steps: the node that comes next is at hand, or has to be rebuilt, or there is
none. -/
structure Balanced (root : Multiset Slot) (e : Explorer) : Prop where
  accounts : e.Accounts root (if e.current.isSome then opened e.path.edges else due e.path.edges)
  ready : ∀ top ∈ e.path.edges.head?, top.alternative ≤ top.last

/-- The path has moved on from a node that is done. -/
theorem balanced_of_advances {edges : List Edge} (hpath : Path.Advances edges e.path)
    (hledger : e.tracing.Ledger root (settled edges)) (hroot : e.rootEdge = .root)
    (hcurrent : e.current = none) : e.Balanced root := by
  refine ⟨⟨?_, hpath.whole, hroot⟩, hpath.ready⟩
  rw [hcurrent]
  exact hpath.slots ▸ hledger

/-- What is found next: a node to explore, or the end of the tree. -/
def Finds (root : Multiset Slot) : Option Space × Explorer × Option Bound → Prop
  | (some _, e, _) => e.current = none ∧ e.Accounts root (opened e.path.edges)
  | (none, e, _) => e.Balanced root ∧ e.Accounts root 0

theorem Balanced.nextNodeWithin {steps : Nat} (h : e.Balanced root) (bound : Option Bound) :
    (nextNodeWithin steps e bound).Ensures (Finds root) := by
  induction steps generalizing e bound with
  | zero => exact .throw _
  | succ steps ih =>
    have haccounts := h.accounts
    unfold Explorer.nextNodeWithin
    split
    · rename_i s hcurrent
      rw [hcurrent] at haccounts
      exact .pure ⟨rfl, haccounts.ledger, haccounts.whole, haccounts.rootEdge⟩
    · rename_i hcurrent
      rw [hcurrent] at haccounts
      split
      · rename_i hempty
        have hnil : e.path.edges = [] := List.isEmpty_iff.1 hempty
        rw [hnil] at haccounts
        exact .pure ⟨h, haccounts⟩
      · rename_i hempty
        have hcons : e.path.edges ≠ [] := fun hnil => hempty (List.isEmpty_iff.2 hnil)
        have hpoints : e.Points root := ⟨due_of_ne_nil hcons ▸ haccounts, h.ready, hcurrent⟩
        refine (hpoints.rebuild bound).bind ?_
        rintro ⟨_ | s, e', bound'⟩ ⟨hcurrent', haccounts'⟩
        · refine (Ensures.lift fun p hp => Path.advance_edges haccounts'.whole hp).bind
            fun p hp => ih ?_ bound'
          exact balanced_of_advances hp haccounts'.ledger haccounts'.rootEdge hcurrent'
        · exact .pure ⟨hcurrent', haccounts'⟩

/-- The edge of a node that is explored fills the slot on top. -/
theorem slot_edgeInfo {edge : EdgeInfo} (hroot : e.rootEdge = .root) (h : e.edgeInfo = .ok edge) :
    edge.slot = topSlot e.path.edges := by
  unfold edgeInfo Path.topEdge? at h
  cases hedges : e.path.edges with
  | nil =>
    rw [hedges] at h
    cases h
    rw [hroot]
    rfl
  | cons top edges =>
    rw [hedges] at h
    obtain ⟨_, h', h⟩ := Yields.exists_of_bind h
    obtain ⟨edge', hedge', h'⟩ := Yields.exists_of_bind h'
    cases h'
    cases h
    exact (EdgeInfo.slot_of_ofChoice hedge').1

theorem Accounts.explore (h : e.Accounts root (opened e.path.edges)) (hcurrent : e.current = none)
    (s : Space) : (e.explore s).Ensures fun r => r.2.Balanced root := by
  unfold Explorer.explore
  rw [if_pos h.ledger.active]
  refine (Ensures.lift fun edge hedge => slot_edgeInfo h.rootEdge hedge).bind fun edge hslot => ?_
  rw [pure_bind]
  have hledger : e.tracing.Ledger root ({edge.slot} + settled e.path.edges) := hslot ▸ h.ledger
  refine Ensures.trivial.bind fun (status, s, statistics) _ => ?_
  -- A leaf is done.
  have hleaf (kind : NodeKind) (hkind : kind = .failed ∨ kind = .solved) {p : Path}
      (hp : Path.Advances e.path.edges p) (statistics : Statistics) :
      { e with
        tracing := e.tracing.nextNode.2.node edge e.tracing.nextNode.1 kind
        path := p
        statistics }.Balanced root := by
    have hnode := hledger.node kind
    rcases hkind with rfl | rfl
    all_goals
      rw [show TraceEvent.offers _ = 0 from rfl, add_zero] at hnode
      exact balanced_of_advances hp hnode h.rootEdge hcurrent
  cases status with
  | failed =>
    exact (Ensures.lift fun p hp => Path.advance_edges h.whole hp).bind
      fun p hp => .pure (hleaf .failed (.inl rfl) hp _)
  | solved =>
    exact (Ensures.lift fun p hp => Path.advance_edges h.whole hp).bind
      fun p hp => .pure (hleaf .solved (.inr rfl) hp _)
  | branch =>
    refine (Ensures.lift fun r hr => Space.two_le_alternatives hr).bind
      fun (choice, split) htwo => ?_
    refine (Ensures.lift fun p hp => Path.push_edges htwo h.whole hp edge).bind fun p hp => ?_
    refine Ensures.trivial.bind fun first _ => .pure ?_
    obtain ⟨hopened, hready, hwhole⟩ := hp
    refine ⟨⟨?_, hwhole, h.rootEdge⟩, hready⟩
    show (e.tracing.nextNode.2.node edge e.tracing.nextNode.1 _).Ledger root (opened p.edges)
    rw [hopened]
    exact hledger.node (.branch choice.alternatives)

/-- The slot of the root, unless it fails when the search begins. -/
def OffersRoot (s : Space) (root : Multiset Slot) : Prop :=
  (∃ s', s.status.Returns (.failed, s')) ∧ root = 0 ∨
    (¬∃ s', s.status.Returns (.failed, s')) ∧ root = {rootSlot}

theorem balanced_start (exploration : Exploration) (worker : Nat) (s : Space) :
    ((ofExploration exploration (Tracing.start worker true)).start s).Ensures fun e =>
      ∃ root, OffersRoot s root ∧ e.Balanced root := by
  have hledger : (Tracing.start worker true).round.Ledger 0 0 :=
    ⟨rfl, by simp [Tracing.trace, Tracing.start, Tracing.round, Tracing.record, TraceEvent.id?],
      List.nodup_nil, by simp [Tracing.trace, Tracing.start, Tracing.round, Tracing.record], rfl⟩
  have hroot : (Tracing.start worker true).round.Ledger {rootSlot} {rootSlot} :=
    ⟨hledger.active, hledger.fresh, hledger.distinct, hledger.skips, rfl⟩
  have hstatus (statistics : Statistics) : (statusOf s statistics).Ensures fun r =>
      s.status.Returns (r.1, r.2.1) :=
    (Ensures.self Ensures.trivial).bind fun r hr => .pure hr.2
  refine (hstatus _).bind fun (status, s', statistics) hr => ?_
  dsimp only
  split
  · rename_i hfailed
    subst hfailed
    exact .pure ⟨0, .inl ⟨⟨s', hr⟩, rfl⟩, ⟨hledger, List.forall_mem_nil _, rfl⟩,
      fun top htop => by cases htop⟩
  · rename_i hfailed
    refine .pure ⟨{rootSlot}, .inr ⟨?_, rfl⟩, ⟨?_, List.forall_mem_nil _, rfl⟩,
      fun top htop => by cases htop⟩
    · rintro ⟨s'', hs''⟩
      exact hfailed (congrArg Prod.fst (s.steady_status.unique hr hs''))
    · show Tracing.Ledger _ _ (({rootSlot} : Multiset Slot) + 0)
      rw [add_zero]
      exact hroot

end Explorer

/-! ### Searches -/

variable {σ ρ : Type} [StopCondition σ] [CutoffSequence ρ]

section Searches

variable {root : Multiset Slot}

/-- An explorer after a step of its search. -/
def Explorer.Traced (root : Multiset Slot) (outcome : Option Outcome) (e : Explorer) : Prop :=
  e.Balanced root ∧ (outcome = some .exhausted → e.Accounts root 0)

theorem Explorer.Balanced.traced {e : Explorer} {outcome : Option Outcome} (h : e.Balanced root)
    (houtcome : outcome ≠ some .exhausted) : e.Traced root outcome :=
  ⟨h, fun heq => absurd heq houtcome⟩

theorem DepthFirst.traced_step {d : DepthFirst σ} (h : d.explorer.Balanced root) :
    d.step.Ensures fun r => r.2.explorer.Traced root r.1 := by
  refine Ensures.trivial.bind fun (holds, stop) _ => ?_
  cases holds with
  | true => exact .pure (h.traced nofun)
  | false =>
    refine (h.nextNodeWithin none).bind ?_
    rintro ⟨_ | s, explorer, bound⟩ hfinds
    · exact .pure ⟨hfinds.1, fun _ => hfinds.2⟩
    · refine (hfinds.2.explore hfinds.1 s).bind fun (explored, explorer') hbalanced => ?_
      cases explored with
      | solved s' =>
        exact .pure ⟨⟨⟨hbalanced.accounts.ledger, hbalanced.accounts.whole,
          hbalanced.accounts.rootEdge⟩, hbalanced.ready⟩, nofun⟩
      | failed | branched => exact .pure (Explorer.Balanced.traced hbalanced nofun)

theorem BranchAndBound.traced_step {b : BranchAndBound σ} (h : b.explorer.Balanced root) :
    b.step.Ensures fun r => r.2.explorer.Traced root r.1 := by
  refine Ensures.trivial.bind fun (holds, stop) _ => ?_
  cases holds with
  | true => exact .pure (h.traced nofun)
  | false =>
    refine (h.nextNodeWithin b.bound).bind ?_
    rintro ⟨_ | s, explorer, bound⟩ hfinds
    · exact .pure ⟨hfinds.1, fun _ => hfinds.2⟩
    · refine (hfinds.2.explore hfinds.1 s).bind fun (explored, explorer') hbalanced => ?_
      cases explored with
      | solved s' =>
        exact .pure ⟨⟨⟨hbalanced.accounts.ledger, hbalanced.accounts.whole,
          hbalanced.accounts.rootEdge⟩, hbalanced.ready⟩, nofun⟩
      | failed | branched => exact .pure (Explorer.Balanced.traced hbalanced nofun)

/-- A search by one worker with an explorer that has the property. -/
def Search.Explores (P : Explorer → Prop) (search : Search σ ρ) : Prop :=
  ∃ c e, search = .complete c ∧ c.explorer? = some e ∧ P e

theorem Search.traced_step {search : Search σ ρ} (h : search.Explores (Explorer.Balanced root)) :
    search.step.Ensures fun r => r.2.Explores (Explorer.Traced root r.1) := by
  obtain ⟨c, e, rfl, hexplorer, he⟩ := h
  cases c with
  | depthFirst d =>
    cases hexplorer
    refine ((DepthFirst.traced_step he).bind fun r hr => ?_).bind fun r hr => .pure hr
    exact .pure ⟨_, r.2.explorer, rfl, rfl, hr⟩
  | branchAndBound b =>
    cases hexplorer
    refine ((BranchAndBound.traced_step he).bind fun r hr => ?_).bind fun r hr => .pure hr
    exact .pure ⟨_, r.2.explorer, rfl, rfl, hr⟩
  | parallel p => cases hexplorer

omit [StopCondition σ] [CutoffSequence ρ] in
theorem Search.Explores.mono {P Q : Explorer → Prop} {search : Search σ ρ} (h : search.Explores P)
    (hPQ : ∀ e, P e → Q e) : search.Explores Q := by
  obtain ⟨c, e, hsearch, hexplorer, he⟩ := h
  exact ⟨c, e, hsearch, hexplorer, hPQ e he⟩

end Searches

namespace Engine

variable {root : Multiset Slot} {e : Engine σ ρ}

theorem traced_next (h : e.search.Explores (Explorer.Balanced root)) (steps : Nat) :
    (e.next steps).Ensures fun r => r.2.search.Explores (Explorer.Balanced root) ∧
      (r.1 = none → r.2.hasStopped = false → r.2.search.Explores (Explorer.Accounts root 0)) := by
  have hsearch : (searchWithin Search.step steps e.search).Ensures fun r =>
      r.2.Explores (Explorer.Traced root (some r.1)) := by
    refine ensures_searchWithin (fun search hsearch => ?_) h
    refine (Search.traced_step hsearch).mono fun (outcome, search') hr => ?_
    cases outcome with
    | none => exact hr.mono fun _ htraced => htraced.1
    | some outcome => exact hr
  refine hsearch.bind fun (outcome, search) hr => ?_
  have hbalanced := hr.mono fun _ htraced => htraced.1
  cases outcome with
  | solution s => exact .pure ⟨hbalanced, nofun⟩
  | exhausted => exact .pure ⟨hbalanced, fun _ _ => hr.mono fun _ htraced => htraced.2 rfl⟩
  | stopped => exact .pure ⟨hbalanced, nofun⟩

theorem traced_take (h : e.search.Explores (Explorer.Balanced root)) (steps count : Nat) :
    (e.take steps count).Ensures fun (_, ended, e') => ended = true → e'.hasStopped = false →
      e'.search.Explores (Explorer.Accounts root 0) := by
  induction count generalizing e with
  | zero => exact .pure nofun
  | succ count ih =>
    unfold take
    refine (traced_next h steps).bind ?_
    rintro ⟨_ | s, e'⟩ ⟨hbalanced, hended⟩
    · exact .pure fun _ => hended rfl
    · exact (ih hbalanced).bind fun r hr => .pure hr

end Engine

/-! ### Accounts of a tree -/

namespace TraceEvent

/-- The edge that the event is about. -/
def edge? : TraceEvent → Option EdgeInfo
  | node edge _ _ | skip edge => some edge
  | round _ | done => none

/-- A node in a slot. -/
def isNodeAt (slot : Slot) : TraceEvent → Bool
  | node edge _ _ => edge.slot = slot
  | _ => false

/-- A skipped slot. -/
def isSkipAt (slot : Slot) : TraceEvent → Bool
  | skip edge => edge.slot = slot
  | _ => false

/-- A node without a parent. -/
def isRoot : TraceEvent → Bool
  | node edge _ _ => edge.parent.isNone
  | _ => false

end TraceEvent

/-- A trace accounts for a tree, of which there is a node unless its root fails: no two nodes have
one name, there is one root, which is not skipped, each alternative of a split node is either
explored or skipped, once, and there are no other edges. -/
structure AccountsForTree (trace : List TraceEvent) (fails : Prop) : Prop where
  distinct : (trace.filterMap TraceEvent.id?).Nodup
  failed : fails → trace.countP TraceEvent.isRoot = 0
  root : ¬fails → trace.countP TraceEvent.isRoot = 1
  skips : ∀ edge, .skip edge ∈ trace → edge.parent.isSome = true
  once : ∀ edge id alternatives, .node edge id (.branch alternatives) ∈ trace →
    ∀ a < alternatives,
      trace.countP (TraceEvent.isNodeAt (some id, a)) = 1 ∧
        trace.countP (TraceEvent.isSkipAt (some id, a)) = 0 ∨
      trace.countP (TraceEvent.isNodeAt (some id, a)) = 0 ∧
        trace.countP (TraceEvent.isSkipAt (some id, a)) = 1
  only : ∀ event ∈ trace, ∀ edge ∈ event.edge?, ∀ id ∈ edge.parent, ∃ edge' alternatives,
    .node edge' id (.branch alternatives) ∈ trace ∧ edge.alternative < alternatives

theorem count_filled (slot : Slot) (trace : List TraceEvent) : (filled trace).count slot =
    trace.countP (TraceEvent.isNodeAt slot) + trace.countP (TraceEvent.isSkipAt slot) := by
  induction trace with
  | nil => rfl
  | cons event trace ih =>
    have hfilled : filled (event :: trace) = event.fills + filled trace := by simp [filled]
    rw [hfilled, Multiset.count_add, ih, List.countP_cons, List.countP_cons]
    cases event with
    | node edge id kind =>
      simp only [TraceEvent.fills, TraceEvent.isNodeAt, TraceEvent.isSkipAt,
        Multiset.count_singleton, eq_comm (a := slot), decide_eq_true_eq, Bool.false_eq_true,
        if_false]
      omega
    | skip edge =>
      simp only [TraceEvent.fills, TraceEvent.isNodeAt, TraceEvent.isSkipAt,
        Multiset.count_singleton, eq_comm (a := slot), decide_eq_true_eq, Bool.false_eq_true,
        if_false]
      omega
    | round worker | done =>
      simp [TraceEvent.fills, TraceEvent.isNodeAt, TraceEvent.isSkipAt]

theorem exists_of_mem_offers {slot : Slot} {event : TraceEvent} (h : slot ∈ event.offers) :
    ∃ edge id alternatives, event = .node edge id (.branch alternatives) ∧ slot.1 = some id ∧
      slot.2 < alternatives := by
  rcases event with worker | ⟨edge, id, alternatives | _ | _⟩ | edge | _
  · cases Multiset.notMem_zero _ h
  · obtain ⟨a, ha, rfl⟩ := List.mem_map.1 (Multiset.mem_coe.1 h)
    exact ⟨edge, id, alternatives, rfl, rfl, List.mem_range.1 ha⟩
  all_goals cases Multiset.notMem_zero _ h

theorem mem_offered {edge : EdgeInfo} {id : NodeId} {alternatives a : Nat} {trace : List TraceEvent}
    (h : .node edge id (.branch alternatives) ∈ trace) (ha : a < alternatives) :
    ((some id, a) : Slot) ∈ offered trace := by
  induction trace with
  | nil => cases h
  | cons event trace ih =>
    have hoffered : offered (event :: trace) = event.offers + offered trace := by simp [offered]
    rw [hoffered, Multiset.mem_add]
    rcases List.mem_cons.1 h with rfl | h
    · exact .inl (Multiset.mem_coe.2 (List.mem_map.2 ⟨a, List.mem_range.2 ha, rfl⟩))
    · exact .inr (ih h)

theorem exists_of_mem_offered {slot : Slot} {trace : List TraceEvent} (h : slot ∈ offered trace) :
    ∃ edge id alternatives, .node edge id (.branch alternatives) ∈ trace ∧ slot.1 = some id ∧
      slot.2 < alternatives := by
  induction trace with
  | nil => cases Multiset.notMem_zero _ h
  | cons event trace ih =>
    have hoffered : offered (event :: trace) = event.offers + offered trace := by simp [offered]
    rw [hoffered, Multiset.mem_add] at h
    rcases h with h | h
    · obtain ⟨edge, id, alternatives, rfl, hslot⟩ := exists_of_mem_offers h
      exact ⟨edge, id, alternatives, List.mem_cons_self, hslot⟩
    · obtain ⟨edge, id, alternatives, hmem, hslot⟩ := ih h
      exact ⟨edge, id, alternatives, List.mem_cons_of_mem _ hmem, hslot⟩

/-- If the names of the nodes are distinct, no slot is offered twice. -/
theorem nodup_offered {trace : List TraceEvent} (h : (trace.filterMap TraceEvent.id?).Nodup) :
    (offered trace).Nodup := by
  induction trace with
  | nil => exact Multiset.nodup_zero
  | cons event trace ih =>
    have hoffered : offered (event :: trace) = event.offers + offered trace := by simp [offered]
    have hrest : (trace.filterMap TraceEvent.id?).Nodup :=
      h.sublist ((List.sublist_cons_self event trace).filterMap _)
    have hevent : event.offers.Nodup := by
      rcases event with worker | ⟨edge, id, alternatives | _ | _⟩ | edge | _
      · exact Multiset.nodup_zero
      · exact Multiset.coe_nodup.2 (List.nodup_range.map fun a b hab => (Prod.mk.inj hab).2)
      all_goals exact Multiset.nodup_zero
    rw [hoffered]
    refine (Multiset.Nodup.add_iff hevent (ih hrest)).2 (Multiset.disjoint_left.2 ?_)
    intro slot hslot hslot'
    obtain ⟨edge, id, alternatives, rfl, hid, -⟩ := exists_of_mem_offers hslot
    obtain ⟨edge', id', alternatives', hmem, hid', -⟩ := exists_of_mem_offered hslot'
    obtain rfl := Option.some.inj (hid.symm.trans hid')
    rw [List.filterMap_cons] at h
    exact (List.nodup_cons.1 h).1 (List.mem_filterMap.2 ⟨_, hmem, rfl⟩)

theorem countP_isRoot {trace : List TraceEvent}
    (h : ∀ edge, .skip edge ∈ trace → edge.parent.isSome = true) :
    trace.countP TraceEvent.isRoot = (filled trace).countP fun slot => slot.1 = none := by
  induction trace with
  | nil => rfl
  | cons event trace ih =>
    have hfilled : filled (event :: trace) = event.fills + filled trace := by simp [filled]
    rw [hfilled, Multiset.countP_add, List.countP_cons,
      ih fun edge hedge => h edge (List.mem_cons_of_mem _ hedge), add_comm]
    congr 1
    cases event with
    | node edge id kind =>
      cases hparent : edge.parent <;>
        simp [TraceEvent.isRoot, TraceEvent.fills, EdgeInfo.slot, hparent,
          ← Multiset.cons_zero]
    | skip edge =>
      have hparent : edge.slot.1 ≠ none := by
        have hsome := h edge List.mem_cons_self
        intro hnone
        rw [show edge.parent = none from hnone] at hsome
        cases hsome
      simp [TraceEvent.isRoot, TraceEvent.fills, hparent, ← Multiset.cons_zero]
    | round worker | done => rfl

/-- A trace whose balance is settled accounts for the tree. -/
theorem Tracing.Ledger.accountsForTree {t : Tracing} {root : Multiset Slot} {s : Space}
    (h : t.Ledger root 0) (hroot : Explorer.OffersRoot s root) :
    AccountsForTree t.trace (∃ s', s.status.Returns (.failed, s')) := by
  have hbalance : filled t.trace = root + offered t.trace := (add_zero _).symm.trans h.balance
  have hoffered := nodup_offered h.distinct
  have hnone : (offered t.trace).countP (fun slot => slot.1 = none) = 0 := by
    refine Multiset.countP_eq_zero.2 fun slot hslot hslot' => ?_
    obtain ⟨_, _, _, -, hid, -⟩ := exists_of_mem_offered hslot
    cases hid.symm.trans hslot'
  have hcount : t.trace.countP TraceEvent.isRoot = root.countP fun slot => slot.1 = none := by
    rw [countP_isRoot h.skips, hbalance, Multiset.countP_add, hnone, Nat.add_zero]
  -- The root has no parent.
  have hparent (slot : Slot) (hslot : slot ∈ root) : slot = rootSlot := by
    rcases hroot with ⟨-, rfl⟩ | ⟨-, rfl⟩
    · cases Multiset.notMem_zero _ hslot
    · exact Multiset.mem_singleton.1 hslot
  refine ⟨h.distinct, fun hfails => ?_, fun halive => ?_, h.skips, ?_, ?_⟩
  · rcases hroot with ⟨-, rfl⟩ | ⟨halive, -⟩
    · exact hcount
    · exact absurd hfails halive
  · rcases hroot with ⟨hfails, -⟩ | ⟨-, rfl⟩
    · exact absurd hfails halive
    · exact hcount
  · intro edge id alternatives hmem a ha
    have hslot := mem_offered hmem ha
    have hnot : ((some id, a) : Slot) ∉ root := fun hin => by cases hparent _ hin
    have hfilled : (filled t.trace).count (some id, a) = 1 := by
      rw [hbalance, Multiset.count_add, Multiset.count_eq_zero_of_notMem hnot, Nat.zero_add]
      exact Multiset.count_eq_one_of_mem hoffered hslot
    rw [count_filled] at hfilled
    omega
  · intro event hevent edge hedge id hid
    have hslot : edge.slot ∈ filled t.trace := by
      rw [← Multiset.count_pos, count_filled]
      rcases event with worker | ⟨edge', id', kind⟩ | edge' | _ <;> cases hedge
      · exact Nat.add_pos_left (List.countP_pos_iff.2 ⟨_, hevent, decide_eq_true rfl⟩) _
      · exact Nat.add_pos_right _ (List.countP_pos_iff.2 ⟨_, hevent, decide_eq_true rfl⟩)
    rw [hbalance, Multiset.mem_add] at hslot
    have hid : edge.slot.1 = some id := hid
    rcases hslot with hslot | hslot
    · rw [hparent _ hslot] at hid
      cases hid
    · obtain ⟨edge', id', alternatives, hmem, hid', hlt⟩ := exists_of_mem_offered hslot
      obtain rfl := Option.some.inj (hid.symm.trans hid')
      exact ⟨edge', alternatives, hmem, hlt⟩

namespace Engine

variable {kind : EngineKind} {s : Space} {options : SearchOptions σ ρ} {e e' : Engine σ ρ}

omit [StopCondition σ] in
theorem traced_start {rest : Space} (hkind : kind = .depthFirst ∨ kind = .branchAndBound)
    (hthreads : options.threads = 1) (htraced : options.isTraced = true)
    (h : (start kind s options).run.Returns (.ok (e, rest))) :
    ∃ root, Explorer.OffersRoot s root ∧ e.search.Explores (Explorer.Balanced root) := by
  obtain ⟨search, hsearch, rfl⟩ := exists_search_of_start hthreads h
  have hstart := Explorer.balanced_start options.exploration 0 s
  rw [← htraced] at hstart
  have hcomplete (optimising : Bool) : (CompleteSearch.start s options.threads optimising
      options.exploration options.isTraced options.stop).Ensures fun c =>
        ∃ root x, Explorer.OffersRoot s root ∧ c.explorer? = some x ∧ x.Balanced root := by
    unfold CompleteSearch.start
    rw [if_neg (by omega)]
    cases optimising with
    | true =>
      unfold BranchAndBound.start
      rw [bind_assoc]
      exact hstart.bind fun x ⟨root, hroot, hx⟩ => .pure ⟨root, x, hroot, rfl, hx⟩
    | false =>
      unfold DepthFirst.start
      rw [bind_assoc]
      exact hstart.bind fun x ⟨root, hroot, hx⟩ => .pure ⟨root, x, hroot, rfl, hx⟩
  have hsearches : (Search.start kind s options).Ensures fun search =>
      ∃ root, Explorer.OffersRoot s root ∧ search.Explores (Explorer.Balanced root) := by
    rcases hkind with rfl | rfl
    · exact (hcomplete false).bind fun c ⟨root, x, hroot, hexplorer, hx⟩ =>
        .pure ⟨root, hroot, c, x, rfl, hexplorer, hx⟩
    · exact (hcomplete true).bind fun c ⟨root, x, hroot, hexplorer, hx⟩ =>
        .pure ⟨root, hroot, c, x, rfl, hexplorer, hx⟩
  exact hsearches.of_returns hsearch

/-- **The trace accounts for the whole tree.** Once a depth-first search or a branch and bound by
one worker is exhausted, the nodes of its trace have distinct names, one of them is the root unless
that fails at once, and each alternative of a split node was explored or skipped, once. -/
theorem trace_accounts {rest : Space} {steps count : Nat} {found : List Space}
    (hkind : kind = .depthFirst ∨ kind = .branchAndBound) (hthreads : options.threads = 1)
    (htraced : options.isTraced = true)
    (hstart : (start kind s options).run.Returns (.ok (e, rest)))
    (htake : (e.take steps count).Returns (found, true, e')) (hended : e'.hasStopped = false) :
    AccountsForTree e'.trace (∃ s', s.status.Returns (.failed, s')) := by
  obtain ⟨root, hroot, hbalanced⟩ := traced_start hkind hthreads htraced hstart
  obtain ⟨c, x, hsearch, hexplorer, hx⟩ := (traced_take hbalanced _ _).of_returns htake rfl hended
  have htrace : e'.trace = x.tracing.trace := by
    unfold trace
    rw [hsearch]
    cases c <;> cases hexplorer <;> rfl
  rw [htrace]
  exact hx.ledger.accountsForTree hroot

/-- The first solution is the best one: two alternatives of a branch and bound are skipped. -/
theorem trace_accounts_differing : ∃ s, ∃ e : Engine, ∃ rest found e',
    Built .costOrdered differing s ∧
    (start .branchAndBound { s with objective := some (.minimise (.root 0)) }
      { isTraced := true }).run.Returns (.ok (e, rest)) ∧
    (e.take 9 9).Returns (found, true, e') ∧ e'.hasStopped = false ∧
    e'.trace.countP (fun event => event matches .skip _) = 2 ∧
    AccountsForTree e'.trace (∃ s', Journaled.Returns
      { s with objective := some (.minimise (.root 0)) : Space }.status (.failed, s')) := by
  have hcheck : buildsTo .costOrdered differing (fun s =>
      runsTo .branchAndBound { isTraced := true } 9 9 (fun _ ended e' => ended &&
        !e'.hasStopped && e'.trace.countP (fun event => event matches .skip _) == 2)
        { s with objective := some (.minimise (.root 0)) }) = true := by
    decide +kernel
  obtain ⟨s, hs, hruns⟩ := exists_built_of_buildsTo hcheck
  obtain ⟨e, rest, found, ended, e', hstart, htake, hproperty⟩ := exists_of_runsTo hruns
  rw [Bool.and_eq_true, Bool.and_eq_true, Bool.not_eq_true', beq_iff_eq] at hproperty
  obtain ⟨⟨rfl, hstopped⟩, hskips⟩ := hproperty
  exact ⟨s, e, rest, found, e', hs, hstart, htake, hstopped, hskips,
    trace_accounts (.inr rfl) rfl rfl hstart htake hstopped⟩

end Engine

end ConstraintSearch
