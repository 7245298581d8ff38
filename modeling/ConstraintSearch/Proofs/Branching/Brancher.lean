import ConstraintSearch.Branching.Brancher
import ConstraintSearch.Proofs.State
import ConstraintSearch.Proofs.Branching.Selection

/-!
# The laws of branchers

A brancher passes over variables that are decided, and makes decisions about the first or another
one that is not. Narrowing variables never undoes this.

* `Brancher.base`: the brancher as it was created, up to its generators;
* `Brancher.Plain`: its variables exist, and it breaks no symmetries;
* `Brancher.Settled`, `Brancher.Done`: the variables it has passed over, or all variables, are
  decided;
* `Brancher.status_law`, `Brancher.decide_law`, `Brancher.commit_law`: what its three operations
  do. To commit an alternative keeps exactly the boxes that the alternative covers;
* `Brancher.readsStore`, `Brancher.decide_congr`: the decisions of most branchers depend on the
  domains only.
-/

namespace ConstraintSearch

variable {δ : Prop} {s s' : Store}

/-! ### Counting decided variables -/

theorem yields_countDecided {α : Type} {decided : α → Except Fault Bool} {P : α → Prop}
    {xs : List α} (h : ∀ x ∈ xs, Yields δ (decided x) fun b => b = true ↔ P x) :
    Yields δ (countDecided decided xs) fun n =>
      (∀ x ∈ xs.take n, P x) ∧ ∀ x, xs[n]? = some x → ¬P x := by
  induction xs with
  | nil => exact Yields.pure ⟨by simp, by simp⟩
  | cons x xs ih =>
    have ih := ih fun y hy => h y (by simp [hy])
    unfold countDecided
    refine (h x (by simp)).bind fun b hb => ?_
    cases b with
    | false =>
      refine Yields.pure ⟨by simp, fun y hy hPy => ?_⟩
      cases hy
      exact absurd (hb.2 hPy) (by decide)
    | true =>
      refine ih.bind fun n hn => Yields.pure ⟨fun y hy => ?_, fun y hy => hn.2 y hy⟩
      rw [List.take_succ_cons] at hy
      rcases List.mem_cons.1 hy with rfl | hy
      · exact hb.1 rfl
      · exact hn.1 y hy

/-- From a number of decided variables on, more are passed over. -/
theorem forall_take_add {α : Type} {P : α → Prop} {xs : List α} {n m : Nat}
    (h : ∀ x ∈ xs.take n, P x) (h' : ∀ x ∈ (xs.drop n).take m, P x) :
    ∀ x ∈ xs.take (n + m), P x := by
  intro x hx
  rw [List.take_add] at hx
  rcases List.mem_append.1 hx with hx | hx
  · exact h x hx
  · exact h' x hx

/-- Behind the decided variables at the front, none is counted. -/
theorem countDecided_drop {α : Type} {decided : α → Except Fault Bool} {xs : List α} {n : Nat}
    (h : countDecided decided xs = .ok n) : countDecided decided (xs.drop n) = .ok 0 := by
  induction xs generalizing n with
  | nil =>
    cases h
    rfl
  | cons x xs ih =>
    unfold countDecided at h
    obtain ⟨b, hb, hrest⟩ := Yields.exists_of_bind h
    cases b with
    | false =>
      cases hrest
      exact h
    | true =>
      obtain ⟨m, hm, heq⟩ := Yields.exists_of_bind hrest
      cases heq
      exact ih hm

namespace Brancher

/-! ### What branchers know -/

/-- The integer variables of the brancher. -/
def ints : Brancher → List IntVar
  | int b => b.vars.toList
  | set _ _ | float _ _ _ => []

/-- The set variables of the brancher. -/
def sets : Brancher → List Nat
  | set vars _ => vars.toList
  | int _ | float _ _ _ => []

/-- The brancher before it has passed over variables, without its generators. -/
def base : Brancher → Brancher
  | int b => int { b with start := 0, select := b.select.unseeded, value := b.value.unseeded }
  | set vars _ => set vars 0
  | float vars precision _ => float vars precision 0

/-- A brancher of integers or sets that exist, without symmetries. -/
def Plain (s : Store) : Brancher → Prop
  | int b => b.symmetries = [] ∧ ∀ x ∈ b.vars.toList, x.index < s.ints.size
  | set vars _ => ∀ i ∈ vars.toList, i < s.sets.size
  | float _ _ _ => False

/-- The variables that the brancher has passed over are decided. -/
def Settled (s : Store) : Brancher → Prop
  | int b => ∀ x ∈ b.vars.toList.take b.start, (x.fixedAt s.box).isSome = true
  | set vars start => ∀ i ∈ vars.toList.take start, (s.box.sets i).isAssigned = true
  | float _ _ _ => True

/-- All variables of the brancher are decided. -/
structure Done (s : Store) (b : Brancher) : Prop where
  ints : ∀ x ∈ b.ints, (x.fixedAt s.box).isSome = true
  sets : ∀ i ∈ b.sets, (s.box.sets i).isAssigned = true

/-- The next variable is open. -/
def HasOpen (s : Store) : Brancher → Prop
  | int b => OpenAt s b.vars b.start
  | set vars start => ∃ i, vars.get? start = some i ∧ (s.box.sets i).isAssigned = false
  | float _ _ _ => False

variable {b b' : Brancher}

theorem base_base (b : Brancher) : b.base.base = b.base := by
  cases b with
  | int b => simp only [base, VariableSelection.unseeded_unseeded, ValueSelection.unseeded_unseeded]
  | set vars start => rfl
  | float vars precision start => rfl

theorem ints_base (b : Brancher) : b.base.ints = b.ints := by
  cases b <;> rfl

theorem sets_base (b : Brancher) : b.base.sets = b.sets := by
  cases b <;> rfl

theorem plain_base : b.base.Plain s ↔ b.Plain s := by
  cases b <;> exact Iff.rfl

/-- Variables that exist still exist later. -/
theorem Plain.of_evolves (hb : b.Plain s) (he : s.Evolves s') : b.Plain s' := by
  cases b with
  | int b => exact ⟨hb.1, fun x hx => (hb.2 x hx).trans_le he.size_ints⟩
  | set vars start => exact fun i hi => (hb i hi).trans_le he.size_sets
  | float vars precision start => exact hb

theorem isSome_fixedAt_of_evolves {x : IntVar} (hx : x.index < s.ints.size) (hs : s.Sound)
    (hs' : s'.Sound) (he : s.Evolves s') (h : (x.fixedAt s.box).isSome = true) :
    (x.fixedAt s'.box).isSome = true := by
  obtain ⟨v, hv⟩ := Option.isSome_iff_exists.1 h
  rw [IntVar.fixedAt_of_le (hs'.box.canonical _) (hs.box.canonical _) (he.within.ints _ hx) hv]
  rfl

theorem isAssigned_set_of_evolves {i : Nat} (hi : i < s.sets.size) (hs : s.Sound) (hs' : s'.Sound)
    (he : s.Evolves s') (h : (s.box.sets i).isAssigned = true) :
    (s'.box.sets i).isAssigned = true := by
  have heq := (hs.box.normal i).isAssigned_iff.1 h
  obtain ⟨hreq, hpos, -⟩ := he.within.sets i hi
  have hnormal := hs'.box.normal i
  rw [hnormal.isAssigned_iff]
  have hsub : (s'.box.sets i).possible ⊆ (s'.box.sets i).required := fun v hv =>
    hreq (heq ▸ hpos hv)
  exact SetDomain.eq_of_subset_of_length_le hnormal.pairwise_required hnormal.pairwise_possible
    hnormal.required_subset (SetDomain.length_le_of_subset hnormal.pairwise_possible hsub)

theorem Settled.of_evolves (h : b.Settled s) (hb : b.Plain s) (hs : s.Sound) (hs' : s'.Sound)
    (he : s.Evolves s') : b.Settled s' := by
  cases b with
  | int b =>
    exact fun x hx =>
      isSome_fixedAt_of_evolves (hb.2 x (List.mem_of_mem_take hx)) hs hs' he (h x hx)
  | set vars start =>
    exact fun i hi => isAssigned_set_of_evolves (hb i (List.mem_of_mem_take hi)) hs hs' he (h i hi)
  | float vars precision start => trivial

theorem Done.of_evolves (h : b.Done s) (hb : b.Plain s) (hs : s.Sound) (hs' : s'.Sound)
    (he : s.Evolves s') : b.Done s' := by
  cases b with
  | int b =>
    exact ⟨fun x hx => isSome_fixedAt_of_evolves (hb.2 x hx) hs hs' he (h.ints x hx),
      fun i hi => absurd hi List.not_mem_nil⟩
  | set vars start =>
    exact ⟨fun x hx => absurd hx List.not_mem_nil,
      fun i hi => isAssigned_set_of_evolves (hb i hi) hs hs' he (h.sets i hi)⟩
  | float vars precision start => exact hb.elim

/-! ### Status -/

/-- What the status of a brancher says. -/
structure Reports (s : Store) (b : Brancher) (r : Bool × Brancher) : Prop where
  base : r.2.base = b.base
  settled : r.2.Settled s
  hasOpen : r.1 = true → r.2.HasOpen s
  done : r.1 = false → r.2.Done s

/-- A status that says so is right about the next variable, and about the others if the variables
that were passed over before are decided. -/
theorem yields_status (hs : s.Sound) (hb : b.Plain s) :
    Yields δ (b.status s) fun r =>
      (r.1 = true → r.2.HasOpen s) ∧ (b.Settled s → b.Reports s r) := by
  cases b with
  | int b =>
    have hfixed (x) (hx : x ∈ b.vars.toList.drop b.start) :
        Yields δ (x.isFixed s) fun fixed => fixed = true ↔ (x.fixedAt s.box).isSome = true := by
      refine (IntVar.yields_isFixed hs (hb.2 x (List.mem_of_mem_drop hx))).mono fun fixed h => ?_
      rw [h.1]
    refine (yields_countDecided hfixed).bind fun n hn => Yields.pure ?_
    have hopen (hlt : b.start + n < b.vars.toList.length) :
        (int { b with start := b.start + n }).HasOpen s := by
      have hget : b.vars.toList[b.start + n]? = some _ := List.getElem?_eq_getElem hlt
      refine ⟨_, (Array.getElem?_toList).symm.trans hget, ?_⟩
      have := hn.2 _ ((List.getElem?_drop).trans hget)
      rwa [Option.not_isSome_iff_eq_none] at this
    refine ⟨fun hlt => hopen (of_decide_eq_true hlt), fun h => ?_⟩
    have hsettled := forall_take_add h hn.1
    refine ⟨rfl, hsettled, fun hlt => hopen (of_decide_eq_true hlt), fun hdone => ?_⟩
    have hle : b.vars.toList.length ≤ b.start + n := not_lt.1 (of_decide_eq_false hdone)
    rw [List.take_of_length_le hle] at hsettled
    exact ⟨hsettled, fun i hi => absurd hi List.not_mem_nil⟩
  | set vars start =>
    have hassigned (i) (hi : i ∈ vars.toList.drop start) :
        Yields δ (do return (← s.set i).isAssigned) fun b =>
          b = true ↔ (s.box.sets i).isAssigned = true := by
      refine (Store.yields_set (hb i (List.mem_of_mem_drop hi))).bind fun d hd => Yields.pure ?_
      rw [hd]
    refine (yields_countDecided hassigned).bind fun n hn => Yields.pure ?_
    have hopen (hlt : start + n < vars.toList.length) :
        (set vars (start + n)).HasOpen s := by
      have hget : vars.toList[start + n]? = some _ := List.getElem?_eq_getElem hlt
      refine ⟨_, (Array.getElem?_toList).symm.trans hget, ?_⟩
      have := hn.2 _ ((List.getElem?_drop).trans hget)
      rwa [Bool.not_eq_true] at this
    refine ⟨fun hlt => hopen (of_decide_eq_true hlt), fun h => ?_⟩
    have hsettled := forall_take_add h hn.1
    refine ⟨rfl, hsettled, fun hlt => hopen (of_decide_eq_true hlt), fun hdone => ?_⟩
    have hle : vars.toList.length ≤ start + n := not_lt.1 (of_decide_eq_false hdone)
    rw [List.take_of_length_le hle] at hsettled
    exact ⟨fun x hx => absurd hx List.not_mem_nil, hsettled⟩
  | float vars precision start => exact hb.elim

theorem status_law (hs : s.Sound) (hb : b.Plain s) (h : b.Settled s) :
    Yields δ (b.status s) (b.Reports s) :=
  (yields_status hs hb).mono fun _ hr => hr.2 h

/-- A status that is asked for again is the same. -/
theorem status_of_status {s : Store} {b b' : Brancher} {isOpen : Bool}
    (h : b.status s = .ok (isOpen, b')) : b'.status s = .ok (isOpen, b') := by
  cases b with
  | int b =>
    obtain ⟨n, hn, heq⟩ := Yields.exists_of_bind h
    cases heq
    have hagain := countDecided_drop hn
    rw [List.drop_drop] at hagain
    show (countDecided _ (b.vars.toList.drop (b.start + n)) >>= _) = _
    rw [hagain]
    rfl
  | set vars start =>
    obtain ⟨n, hn, heq⟩ := Yields.exists_of_bind h
    cases heq
    have hagain := countDecided_drop hn
    rw [List.drop_drop] at hagain
    show (countDecided _ (vars.toList.drop (start + n)) >>= _) = _
    rw [hagain]
    rfl
  | float vars precision start =>
    obtain ⟨n, hn, heq⟩ := Yields.exists_of_bind h
    cases heq
    have hagain := countDecided_drop hn
    rw [List.drop_drop] at hagain
    show (countDecided _ (vars.toList.drop (start + n)) >>= _) = _
    rw [hagain]
    rfl

/-! ### Decisions -/

/-- The decision is one of the brancher, about a variable that can be narrowed. -/
def Makes (s : Store) (b : Brancher) : Decision → Prop
  | .int _ x _ _ => (∃ b', b = int b') ∧ x.index < s.ints.size ∧ x.Proper
  | .set i _ => (∃ vars start, b = set vars start) ∧ i < s.sets.size
  | .float _ _ => False

/-- Decisions are made again by what the brancher has become, and in stores of the same size. -/
theorem Makes.congr {b b' : Brancher} {d : Decision} (h : b.Makes s d) (hbase : b'.base = b.base)
    (hints : s'.ints.size = s.ints.size) (hsets : s'.sets.size = s.sets.size) : b'.Makes s' d := by
  cases d with
  | int position x split breaksSymmetries =>
    obtain ⟨⟨b, rfl⟩, hx, hproper⟩ := h
    refine ⟨?_, hints ▸ hx, hproper⟩
    cases b' with
    | int b' => exact ⟨b', rfl⟩
    | set vars start => cases hbase
    | float vars precision start => cases hbase
  | set i v =>
    obtain ⟨⟨vars, start, rfl⟩, hi⟩ := h
    refine ⟨?_, hsets ▸ hi⟩
    cases b' with
    | int b' => cases hbase
    | set vars start => exact ⟨vars, start, rfl⟩
    | float vars precision start => cases hbase
  | float i v => exact h

/-- What the next decision of a brancher is like. -/
structure Decides (s : Store) (b : Brancher) (r : Decision × Brancher) : Prop where
  base : r.2.base = b.base
  settled : r.2.Settled s
  makes : b.Makes s r.1
  expressible : r.1.Expressible
  splits : r.1.Splits s

end Brancher

namespace IntVar

variable {x : IntVar}

/-- A view that tells all values apart is proper. -/
theorem proper_of_injective (h : Function.Injective x.eval) : x.Proper := by
  induction x with
  | root i => trivial
  | bool inner ih => exact ih h
  | affine inner scale offset ih =>
    refine ⟨fun hzero => ?_, ih fun u v huv => h ?_⟩
    · have heq : (affine inner scale offset).eval 0 = (affine inner scale offset).eval 1 := by
        simp [eval, hzero]
      exact absurd (h heq) (by decide)
    · simp only [eval, huv]

theorem Proper.injective (h : x.Proper) : Function.Injective x.eval := by
  induction x with
  | root i => exact fun u v huv => huv
  | bool inner ih => exact ih h
  | affine inner scale offset ih =>
    intro u v huv
    simp only [eval] at huv
    exact ih h.2 (Int.eq_of_mul_eq_mul_left h.1 (add_right_cancel huv))

/-- A variable is decided with its proper views. -/
theorem Proper.isAssigned (h : x.Proper) (hs : s.Sound) (hfixed : (x.fixedAt s.box).isSome = true) :
    (s.box.ints x.index).isAssigned = true := by
  have hcanonical := hs.box.canonical x.index
  obtain ⟨v, hv⟩ := Option.isSome_iff_exists.1 hfixed
  obtain ⟨hl, hu⟩ := fixedAt_eq_some.1 hv
  have heq {w : Int} (hw : w ∈ s.box.ints x.index) : x.eval w = v :=
    le_antisymm (hu ▸ eval_le_edge hcanonical hw) (hl ▸ edge_le_eval hcanonical hw)
  refine hcanonical.isAssigned_iff.2 (h.injective ?_)
  rw [heq hcanonical.min_mem, heq hcanonical.max_mem]

end IntVar

namespace Brancher

variable {b b' : Brancher} {state : State}

/-- The decision that is made of an open variable is a proper one, whatever was passed over. -/
theorem yields_decide (hs : state.store.Sound) (hb : b.Plain state.store)
    (hopen : b.HasOpen state.store) :
    Yields δ (b.decide state) fun r =>
      b.Makes state.store r.1 ∧ r.1.Expressible ∧ r.1.Splits state.store ∧
        r.2.base = b.base ∧ (b.Settled state.store → r.2.Settled state.store) := by
  cases b with
  | int b =>
    have hselect := VariableSelection.select_law (δ := δ) hs hb.2 hopen b.select
    refine Yields.bind ?_ fun r hr => Yields.pure hr
    refine hselect.bind fun r hr => ?_
    obtain ⟨position, select⟩ := r
    obtain ⟨⟨x, hget, hfixed⟩, hunseeded⟩ := hr
    have hmem : x ∈ b.vars.toList := List.mem_of_getElem? ((Array.getElem?_toList).trans hget)
    have hx := hb.2 x hmem
    dsimp only
    rw [Table.fetch_eq_ok.2 hget]
    refine (IntVar.yields_isFixed hs hx).bind fun fixed hisFixed => ?_
    obtain ⟨rfl, -⟩ := hisFixed
    rw [hfixed]
    refine (ValueSelection.select_law hs hx hfixed b.value).bind fun r hr => Yields.pure ?_
    have hproper := IntVar.proper_of_injective (IntVar.eval_injective_of_open hs hfixed)
    refine ⟨⟨⟨b, rfl⟩, hx, hproper⟩, ⟨by rw [hb.1]; rfl, hr.expressible⟩,
      hr.divides.splits hs _ _, ?_, id⟩
    dsimp only at hunseeded
    simp only [base, hunseeded, hr.unseeded]
  | set vars start =>
    obtain ⟨i, hget, ha⟩ := hopen
    have hi := hb i (List.mem_of_getElem? ((Array.getElem?_toList).trans hget))
    unfold decide
    dsimp only
    rw [Table.fetch_eq_ok.2 hget]
    refine (Store.yields_set hi).bind fun d hd => ?_
    subst hd
    obtain ⟨v, hv, hpossible, hrequired⟩ := (hs.box.normal i).exists_unknown ha
    rw [hv]
    exact Yields.pure ⟨⟨⟨vars, start, rfl⟩, hi⟩, trivial,
      Decision.splits_set hs hpossible hrequired, rfl, id⟩
  | float vars precision start => exact hb.elim

theorem decide_law (hs : state.store.Sound) (hb : b.Plain state.store)
    (hsettled : b.Settled state.store) (hopen : b.HasOpen state.store) :
    Yields δ (b.decide state) (b.Decides state.store) :=
  (yields_decide hs hb hopen).mono fun _ ⟨hmakes, hexpressible, hsplits, hbase, hkept⟩ =>
    ⟨hbase, hkept hsettled, hmakes, hexpressible, hsplits⟩

end Brancher

/-! ### Commitments -/

namespace Propagation

/-- The action keeps exactly the boxes with the property `P`. It is inconsistent only if there are
none. -/
def Cuts (δ : Prop) {α : Type} (m : Propagation α) (s : State) (P : Box → Prop)
    (post : α → Prop) : Prop :=
  Yields δ (m s) fun
    | (.ok r, s') => post r ∧ s.Advances s' ∧
        ∀ F : Box, F.Sound → (F.Within s'.store ↔ F.Within s.store ∧ P F)
    | (.error _, _) => ∀ F : Box, F.Sound → F.Within s.store → ¬P F

/-- A law for the stable boxes, if all boxes that are left are stable. -/
theorem Cuts.of_law {α : Type} {m : Propagation α} {s : State} {P : Box → Prop} {post : α → Prop}
    (h : Law δ P m s fun r s' => post r ∧ ∀ F : Box, F.Within s'.store → P F) :
    Cuts δ m s P post := by
  refine Yields.mono h fun r hr => ?_
  obtain ⟨outcome, s'⟩ := r
  cases outcome with
  | error i => exact fun F hF hle hP => hr F hF hP hle
  | ok r =>
    obtain ⟨hstep, hpost, hkeeps⟩ := hr
    refine ⟨hpost, hstep.advances, fun F hF => ⟨fun hle => ?_, fun ⟨hle, hP⟩ => ?_⟩⟩
    · exact ⟨hstep.advances.store.within_of_within hle, hkeeps F hle⟩
    · exact hstep.kept F hF hP hle

variable {s : State} {P : Box → Prop} {α : Type} {r : α}

theorem discard_bind {β : Type} (m : Propagation β) (r : α) :
    (do discard m; return r : Propagation α) = do let _ ← m; return r := by
  unfold Functor.discard
  rw [map_const]
  simp

/-- A computation, and then an action. -/
theorem Cuts.lift {β : Type} {c : Except Fault β} {Q : β → Prop} {f : β → Propagation α}
    {post : α → Prop} (hc : Yields δ c Q) (hf : ∀ v, Q v → Cuts δ (f v) s P post) :
    Cuts δ ((liftM c : Propagation β) >>= f) s P post := by
  cases c with
  | ok v => exact hf v hc
  | error fault => exact hc

theorem Cuts.map {β : Type} {m : Propagation α} {f : α → β} (h : Cuts δ m s P (· = r)) :
    Cuts δ (do return f (← m)) s P (· = f r) := by
  unfold Cuts
  rw [bind_apply]
  refine Yields.bind h fun q hq => ?_
  obtain ⟨outcome, s'⟩ := q
  cases outcome with
  | error i => exact hq
  | ok b => exact ⟨congrArg f hq.1, hq.2⟩

/-- A restriction, and then a result. -/
theorem Cuts.restrict (hs : s.Ready) {x : IntVar} (hx : x.index < s.store.ints.size)
    (hproper : x.Proper) (relation : Relation) (v : Int)
    (hP : ∀ F : Box, P F ↔ x.Restricted relation v F) {m : Propagation α}
    (hm : m = do let _ ← Propagation.restrict x relation v; return r) :
    Cuts δ m s P (· = r) := by
  subst hm
  obtain rfl : P = x.Restricted relation v := funext fun F => propext (hP F)
  refine Cuts.of_law ((Law.restrict hs hx (.inl hproper) fun F _ h _ => h).bind ?_)
  rintro event s' hstep ⟨hnarrowed, -, -⟩
  refine Law.pure ⟨rfl, fun F hle u hu => ?_⟩
  exact hnarrowed.holds u (hle.ints _ (hstep.advances.store.size_ints ▸ hx) u hu)

/-- A narrowing of a set, and then a result. -/
theorem Cuts.narrowSet (hs : s.Ready) {i : Nat} (hi : i < s.store.sets.size)
    (narrowing : SetDomain → Narrowing SetDomain) (condition : SetDomain → Prop)
    (h : Narrowed SetDomain.Normal condition SetDomain.freedom (s.store.box.sets i)
      (narrowing (s.store.box.sets i)))
    (hmono : ∀ d d' : SetDomain, d ≤ d' → condition d' → condition d)
    (hP : ∀ F : Box, P F ↔ condition (F.sets i)) {m : Propagation α}
    (hm : m = do let _ ← Propagation.narrowing (·.narrowSet i narrowing); return r) :
    Cuts δ m s P (· = r) := by
  subst hm
  obtain rfl : P = fun F => condition (F.sets i) := funext fun F => propext (hP F)
  refine Cuts.of_law ((Law.narrowing (State.yields_narrowSet hs hi narrowing condition h)
    fun F _ h _ => h).bind ?_)
  rintro event s' hstep ⟨hnarrowed, -, -⟩
  refine Law.pure ⟨rfl, fun F hle => ?_⟩
  exact hmono _ _ (hle.sets i (hstep.advances.store.size_sets ▸ hi)) hnarrowed.holds

end Propagation

namespace Brancher

open Propagation

variable {b : Brancher} {state : State}

theorem commit_int_law (hs : state.Ready) {b : IntBrancher} (hb : b.symmetries = []) {x : IntVar}
    (hx : x.index < state.store.ints.size) (hproper : x.Proper) {split : Split} {i : Nat}
    (hi : i < split.alternatives) (position : Nat) :
    Cuts δ (b.commit position x split i) state
      (fun F => ∀ u ∈ F.ints x.index, split.Admits (x.eval u) i) (· = b) := by
  obtain ⟨vars, start, select, value, symmetries⟩ := b
  dsimp only at hb
  subst hb
  cases split with
  | equal v =>
    cases i with
    | zero => exact Cuts.restrict hs hx hproper .equal v (fun _ => Iff.rfl) rfl
    | succ i => exact Cuts.restrict hs hx hproper .notEqual v (fun _ => Iff.rfl) rfl
  | atMost v =>
    cases i with
    | zero =>
      refine Cuts.restrict hs hx hproper .atMost v (fun _ => Iff.rfl) ?_
      exact discard_bind _ _
    | succ i =>
      refine Cuts.lift (Word.yields_checked _ _) fun w hw => ?_
      obtain ⟨rfl, -⟩ := hw
      refine Cuts.restrict hs hx hproper .atLeast (v + 1) (fun F => ?_) ?_
      · exact forall₂_congr fun u _ => Int.add_one_le_iff.symm
      · exact discard_bind _ _
  | atLeast v =>
    cases i with
    | zero =>
      refine Cuts.restrict hs hx hproper .atLeast v (fun _ => Iff.rfl) ?_
      exact discard_bind _ _
    | succ i =>
      refine Cuts.lift (Word.yields_checked _ _) fun w hw => ?_
      obtain ⟨rfl, -⟩ := hw
      refine Cuts.restrict hs hx hproper .atMost (v - 1) (fun F => ?_) ?_
      · exact forall₂_congr fun u _ => Int.le_sub_one_iff.symm
      · exact discard_bind _ _
  | values vs =>
    have hlt : i < (Table.mk vs.toArray).size := hi
    refine Cuts.lift (Table.yields_fetch hlt) fun w hw => ?_
    have hw : vs[i]? = some w := (List.getElem?_toArray).symm.trans hw
    refine Cuts.restrict hs hx hproper .equal w (fun F => ?_) rfl
    refine forall₂_congr fun u _ => ?_
    show vs[i]? = some (x.eval u) ↔ x.eval u = w
    rw [hw, Option.some.injEq]
    exact eq_comm

/-- To commit an alternative keeps exactly the boxes that the alternative covers. -/
theorem commit_law (hs : state.Ready) (hb : b.Plain state.store) {decision : Decision}
    (hmakes : b.Makes state.store decision) {i : Nat} (hi : i < decision.alternatives) :
    Cuts δ (b.commit decision i) state (decision.Covers · i) (· = b) := by
  cases decision with
  | int position x split breaksSymmetries =>
    obtain ⟨⟨b, rfl⟩, hx, hproper⟩ := hmakes
    exact (commit_int_law hs hb.1 hx hproper hi position).map
  | set j v =>
    obtain ⟨⟨vars, start, rfl⟩, hj⟩ := hmakes
    have hnormal := hs.sound.box.normal j
    cases i with
    | zero =>
      refine Cuts.narrowSet hs hj (·.including v) (v ∈ ·.required) (hnormal.including v)
        (fun d d' hle hv => hle.1 hv) (fun F => Iff.rfl) ?_
      exact discard_bind _ _
    | succ i =>
      refine Cuts.narrowSet hs hj (·.excluding v) (v ∉ ·.possible) (hnormal.excluding v)
        (fun d d' hle hv hmem => hv (hle.2.1 hmem)) (fun F => Iff.rfl) ?_
      exact discard_bind _ _
  | float j v => exact hmakes.elim

end Brancher

/-! ### Decisions that depend on the domains only -/

/-- The selection depends on the domains only. -/
def VariableSelection.readsStore : VariableSelection → Bool
  | maxDegree | random _ => false
  | inputOrder | firstFail | antiFirstFail | smallest | largest => true

/-- The selection depends on the domains only. -/
def ValueSelection.readsStore : ValueSelection → Bool
  | random _ => false
  | min | max | median | split | reverseSplit | all => true

theorem VariableSelection.unseeded_of_readsStore {selection : VariableSelection}
    (h : selection.readsStore = true) : selection.unseeded = selection := by
  cases selection with
  | random generator => cases h
  | _ => rfl

theorem VariableSelection.readsStore_unseeded (selection : VariableSelection) :
    selection.unseeded.readsStore = selection.readsStore := by
  cases selection <;> rfl

theorem ValueSelection.unseeded_of_readsStore {selection : ValueSelection}
    (h : selection.readsStore = true) : selection.unseeded = selection := by
  cases selection with
  | random generator => cases h
  | _ => rfl

theorem ValueSelection.readsStore_unseeded (selection : ValueSelection) :
    selection.unseeded.readsStore = selection.readsStore := by
  cases selection <;> rfl

theorem VariableSelection.select_congr {state state' : State} {selection : VariableSelection}
    (h : selection.readsStore = true) (hstore : state'.store = state.store) (vars : Table IntVar)
    (start : Nat) : selection.select state' vars start = selection.select state vars start := by
  cases selection with
  | maxDegree => cases h
  | random generator => cases h
  | inputOrder => rfl
  | firstFail | antiFirstFail | smallest | largest =>
    unfold select key?
    rw [hstore]

namespace Brancher

variable {b b' : Brancher} {state state' : State}

/-- The decisions of the brancher depend on the domains only. -/
def readsStore : Brancher → Bool
  | int b => b.select.readsStore && b.value.readsStore
  | set _ _ | float _ _ _ => true

theorem readsStore_base (b : Brancher) : b.base.readsStore = b.readsStore := by
  cases b with
  | int b =>
    simp only [base, readsStore, VariableSelection.readsStore_unseeded,
      ValueSelection.readsStore_unseeded]
  | set vars start => rfl
  | float vars precision start => rfl

theorem decide_congr (h : b.readsStore = true) (hstore : state'.store = state.store) :
    b.decide state' = b.decide state := by
  cases b with
  | int b =>
    have hselect :=
      VariableSelection.select_congr (Bool.and_eq_true_iff.1 h).1 hstore b.vars b.start
    simp only [decide, IntBrancher.decide, hselect, hstore]
  | set vars start | float vars precision start =>
    unfold decide
    rw [hstore]

theorem HasOpen.not_done (h : b.HasOpen s) : ¬b.Done s := by
  intro hdone
  cases b with
  | int b =>
    obtain ⟨x, hget, hopen⟩ := h
    have hsome := hdone.ints x (List.mem_of_getElem? ((Array.getElem?_toList).trans hget))
    rw [hopen] at hsome
    cases hsome
  | set vars start =>
    obtain ⟨i, hget, hopen⟩ := h
    have hassigned := hdone.sets i (List.mem_of_getElem? ((Array.getElem?_toList).trans hget))
    rw [hopen] at hassigned
    cases hassigned
  | float vars precision start => exact h

theorem done_base : b.base.Done s ↔ b.Done s :=
  ⟨fun h => ⟨fun x hx => h.ints x (b.ints_base ▸ hx), fun i hi => h.sets i (b.sets_base ▸ hi)⟩,
    fun h => ⟨fun x hx => h.ints x (b.ints_base ▸ hx), fun i hi => h.sets i (b.sets_base ▸ hi)⟩⟩

/-- What was passed over lies before what is open. -/
theorem le_of_settled {α : Type} {vars : Table α} {P : α → Prop} {start start' : Nat} {x : α}
    (hsettled : ∀ x ∈ vars.toList.take start, P x) (hget : vars.get? start' = some x)
    (hopen : ¬P x) : start ≤ start' := by
  by_contra hlt
  have hget : vars.toList[start']? = some x := (Array.getElem?_toList).trans hget
  refine hopen (hsettled x (List.mem_of_getElem? (i := start') ?_))
  rw [List.getElem?_take_of_lt (not_le.1 hlt), hget]

/-- A brancher that has passed over the variables that are decided is determined by what it was at
the beginning. -/
theorem eq_of_base (h : b.readsStore = true) (hbase : b'.base = b.base) (hsettled : b.Settled s)
    (hopen : b.HasOpen s) (hsettled' : b'.Settled s) (hopen' : b'.HasOpen s) : b' = b := by
  have h' : b'.readsStore = true := by rw [← readsStore_base, hbase, readsStore_base, h]
  cases b with
  | int b =>
    cases b' with
    | int b' =>
      obtain ⟨hselect, hvalue⟩ := Bool.and_eq_true_iff.1 h
      obtain ⟨hselect', hvalue'⟩ := Bool.and_eq_true_iff.1 h'
      obtain ⟨vars, start, select, value, symmetries⟩ := b
      obtain ⟨vars', start', select', value', symmetries'⟩ := b'
      simp only [base, int.injEq, IntBrancher.mk.injEq, true_and] at hbase
      dsimp only at hselect hvalue hselect' hvalue'
      rw [VariableSelection.unseeded_of_readsStore hselect,
        VariableSelection.unseeded_of_readsStore hselect',
        ValueSelection.unseeded_of_readsStore hvalue,
        ValueSelection.unseeded_of_readsStore hvalue'] at hbase
      obtain ⟨rfl, rfl, rfl, rfl⟩ := hbase
      obtain ⟨x, hget, hx⟩ := hopen
      obtain ⟨x', hget', hx'⟩ := hopen'
      have hle : start ≤ start' := le_of_settled hsettled hget' (by simp [hx'])
      have hle' : start' ≤ start := le_of_settled hsettled' hget (by simp [hx])
      rw [le_antisymm hle hle']
    | set vars start => cases hbase
    | float vars precision start => cases hbase
  | set vars start =>
    cases b' with
    | int b' => cases hbase
    | set vars' start' =>
      cases hbase
      obtain ⟨i, hget, hi⟩ := hopen
      obtain ⟨i', hget', hi'⟩ := hopen'
      have hle : start ≤ start' := le_of_settled hsettled hget' (by simp [hi'])
      have hle' : start' ≤ start := le_of_settled hsettled' hget (by simp [hi])
      rw [le_antisymm hle hle']
    | float vars precision start => cases hbase
  | float vars precision start => exact hopen.elim

end Brancher

end ConstraintSearch
