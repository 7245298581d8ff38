import ConstraintSearch.Branching.Brancher
import ConstraintSearch.Propagator.Execution
import ConstraintSearch.Proofs.Faults

/-!
# The faults of reading a store

A computation on the variables of a space faults because arithmetic overflows, a handle names
nothing, or something is asked that the domains cannot answer. It neither counts what is left on the
path of a search nor builds a view.

* `Fault.IsLocal`: the faults that a space can end in;
* `Local r`: the computation `r` ends in no other fault;
* `IntVar.local_bound`, `IntVar.local_restrict`, …: so do all computations on variables and views,
  whatever handles they are given;
* `Brancher.local_status`, `Brancher.local_decide`, `Choice.local_describe`: and those of branchers.
-/

namespace ConstraintSearch

/-- A fault of an operation of a space. The other faults belong to the path of a search, or are met
when views and branchers are built. -/
def Fault.IsLocal : Fault → Prop
  | .negativeCounter | .missingCopy | .zeroScale | .nonPositivePrecision => False
  | _ => True

/-- The computation has a result, or ends in a fault of an operation of a space. -/
def Local {α : Type} (r : Except Fault α) : Prop := Meets Fault.IsLocal r fun _ => True

namespace Local

variable {α β : Type} {r : Except Fault α} {f : α → Except Fault β} {xs : List α}

theorem meets (h : Local r) : Meets Fault.IsLocal r fun _ => True := h

theorem pure (a : α) : Local (Pure.pure a : Except Fault α) := True.intro

theorem bind (hr : Local r) (hf : ∀ a, Local (f a)) : Local (r >>= f) :=
  Meets.bind hr fun a _ => hf a

theorem mapM (h : ∀ x, Local (f x)) : Local (xs.mapM f) := by
  induction xs with
  | nil => exact pure _
  | cons x xs ih =>
    rw [List.mapM_cons]
    exact (h x).bind fun _ => ih.bind fun _ => pure _

end Local

/-! ### Words and tables -/

namespace Word

theorem local_checked (operation : Operation) (v : Int) : Local (checked operation v) := by
  unfold checked
  split <;> exact True.intro

theorem local_quot (a b : Int) : Local (quot a b) := by
  unfold quot
  split
  · exact True.intro
  · exact local_checked _ _

theorem local_rem (a b : Int) : Local (rem a b) := by
  unfold rem
  split
  · exact True.intro
  · split <;> exact True.intro

theorem local_floorDiv (a b : Int) : Local (floorDiv a b) :=
  (local_quot a b).bind fun _ => .pure _

theorem local_ceilDiv (a b : Int) : Local (ceilDiv a b) :=
  (local_quot a b).bind fun _ => .pure _

end Word

theorem Table.local_fetch {α : Type} (t : Table α) (key : Nat) : Local (t.fetch key) := by
  unfold fetch
  split <;> exact True.intro

theorem Generator.local_index (low high : Nat) (g : Generator) : Local (g.index low high) := by
  unfold index
  split <;> exact True.intro

namespace Store

theorem local_narrowInt (s : Store) (index : Nat) (narrowing : IntDomain → Narrowing IntDomain) :
    Local (s.narrowInt index narrowing) := by
  refine (Table.local_fetch _ _).bind fun d => ?_
  cases narrowing d <;> exact .pure _

theorem local_narrowSet (s : Store) (index : Nat) (narrowing : SetDomain → Narrowing SetDomain) :
    Local (s.narrowSet index narrowing) := by
  refine (Table.local_fetch _ _).bind fun d => ?_
  cases narrowing d <;> exact .pure _

theorem local_narrowFloat (s : Store) (index : Nat)
    (narrowing : FloatDomain → Narrowing FloatDomain) : Local (s.narrowFloat index narrowing) := by
  refine (Table.local_fetch _ _).bind fun d => ?_
  cases narrowing d <;> exact .pure _

end Store

/-! ### Variables -/

namespace IntVar

variable (s : Store) (x : IntVar)

theorem local_image (scale offset v : Int) : Local (image scale offset v) :=
  (Word.local_checked _ _).bind fun _ => Word.local_checked _ _

theorem local_preimage (scale offset v : Int) : Local (preimage scale offset v) := by
  refine (Word.local_checked _ _).bind fun difference => (Word.local_rem _ _).bind fun r => ?_
  split
  · exact (Word.local_quot _ _).bind fun _ => .pure _
  · exact .pure _

theorem local_bound (side : Side) : Local (x.bound s side) := by
  induction x generalizing side with
  | root index => cases side <;> exact (Table.local_fetch _ _).bind fun _ => .pure _
  | affine inner scale offset ih => exact (ih _).bind fun _ => local_image _ _ _
  | bool inner ih => exact ih side

theorem local_contains (v : Int) : Local (x.contains s v) := by
  induction x generalizing v with
  | root index => exact (Table.local_fetch _ _).bind fun _ => .pure _
  | affine inner scale offset ih =>
    refine (local_preimage _ _ _).bind fun w => ?_
    cases w with
    | none => exact .pure _
    | some w => exact ih w
  | bool inner ih => exact ih v

theorem local_size : Local (x.size s) := (Table.local_fetch _ _).bind fun _ => .pure _

theorem local_isFixed : Local (x.isFixed s) :=
  (local_bound s x _).bind fun _ => (local_bound s x _).bind fun _ => .pure _

theorem local_value? : Local (x.value? s) :=
  (local_bound s x _).bind fun _ => (local_bound s x _).bind fun _ => .pure _

theorem local_imageOf (v : Int) : Local (x.imageOf v) := by
  induction x generalizing v with
  | root index => exact .pure v
  | affine inner scale offset ih => exact (ih v).bind fun _ => local_image _ _ _
  | bool inner ih => exact ih v

theorem local_values : Local (x.values s) :=
  (Table.local_fetch _ _).bind fun _ => .mapM x.local_imageOf

theorem local_nth (i : Nat) : Local (x.nth s i) := by
  refine (Table.local_fetch _ _).bind fun d => ?_
  cases d.nth? i with
  | none => exact local_bound s x _
  | some v => exact x.local_imageOf v

theorem local_median : Local (x.median s) := (local_size s x).bind fun _ => local_nth s x _

theorem local_pullOnce (scale offset : Int) (relation : Relation) (v : Int) :
    Local (pullOnce scale offset relation v) := by
  cases relation with
  | equal | notEqual => exact (local_preimage _ _ _).bind fun _ => .pure _
  | atMost =>
    refine (Word.local_checked _ _).bind fun difference => ?_
    split
    · exact (Word.local_ceilDiv _ _).bind fun _ => .pure _
    · exact (Word.local_floorDiv _ _).bind fun _ => .pure _
  | atLeast =>
    refine (Word.local_checked _ _).bind fun difference => ?_
    split
    · exact (Word.local_floorDiv _ _).bind fun _ => .pure _
    · exact (Word.local_ceilDiv _ _).bind fun _ => .pure _

theorem local_pull (relation : Relation) (v : Int) : Local (x.pull relation v) := by
  induction x generalizing relation v with
  | root index => exact .pure _
  | affine inner scale offset ih =>
    refine (local_pullOnce _ _ _ _).bind fun pulled => ?_
    cases pulled with
    | none => exact .pure _
    | some pulled => exact ih pulled.1 pulled.2
  | bool inner ih => exact ih relation v

theorem local_restrict (relation : Relation) (v : Int) : Local (x.restrict relation v s) := by
  refine (x.local_pull relation v).bind fun pulled => ?_
  cases pulled with
  | root index relation w => exact s.local_narrowInt index _
  | never | always => exact .pure _

theorem local_text : Local x.text := by
  induction x with
  | root index => exact .pure _
  | affine inner scale offset ih =>
    refine ih.bind fun text => ?_
    unfold viewText
    dsimp only
    split
    · exact (Word.local_checked _ _).bind fun _ => .pure _
    · split <;> exact .pure _
  | bool inner ih => exact ih.bind fun _ => .pure _

end IntVar

theorem Literal.local_truth? (s : Store) (l : Literal) : Local (l.truth? s) := by
  cases l with
  | comparison x relation v =>
    refine (x.local_bound s _).bind fun _ => (x.local_bound s _).bind fun _ => ?_
    cases relation with
    | equal | notEqual => exact (x.local_contains s v).bind fun _ => .pure _
    | atMost | atLeast => exact .pure _
  | membership i v included => exact (Table.local_fetch _ _).bind fun _ => .pure _

/-! ### Lists of variables -/

theorem Linear.local_sum (side : Side) (s : Store) (terms : List IntVar) :
    Local (sum side s terms) := by
  induction terms with
  | nil => exact .pure _
  | cons x terms ih => exact (x.local_bound s side).bind fun _ => ih.bind fun _ => .pure _

theorem Linear.local_sums (s : Store) (terms : List IntVar) : Local (sums s terms) := by
  induction terms with
  | nil => exact .pure _
  | cons x terms ih =>
    exact (x.local_bound s _).bind fun _ => (x.local_bound s _).bind fun _ => ih.bind fun _ =>
      .pure _

theorem local_firstOpen (s : Store) (vars : List IntVar) (count : Nat) :
    Local (firstOpen s vars count) := by
  induction vars generalizing count with
  | nil => exact .pure _
  | cons x vars ih =>
    cases count with
    | zero => exact .pure _
    | succ count =>
      refine (x.local_isFixed s).bind fun fixed => ?_
      cases fixed with
      | false => exact (ih count).bind fun _ => .pure _
      | true => exact ih (count + 1)

theorem AllDifferent.local_firstFixed? (s : Store) (vars : List (IntVar × Bool)) (position : Nat) :
    Local (firstFixed? s vars position) := by
  induction vars generalizing position with
  | nil => exact .pure _
  | cons x vars ih =>
    obtain ⟨x, _ | _⟩ := x
    · refine (x.local_value? s).bind fun v => ?_
      cases v with
      | none => exact ih _
      | some v => exact .pure _
    · exact ih _

/-! ### Branchers -/

theorem local_countDecided {α : Type} {decided : α → Except Fault Bool}
    (h : ∀ x, Local (decided x)) (xs : List α) : Local (countDecided decided xs) := by
  induction xs with
  | nil => exact .pure _
  | cons x xs ih =>
    refine (h x).bind fun d => ?_
    cases d with
    | false => exact .pure _
    | true => exact ih.bind fun _ => .pure _

theorem local_leastKey (s : Store) {key : IntVar → Except Fault Int} (h : ∀ x, Local (key x))
    (candidates : List (IntVar × Nat)) (best : Option (Nat × Int)) :
    Local (leastKey s key candidates best) := by
  induction candidates generalizing best with
  | nil => exact .pure _
  | cons candidate candidates ih =>
    refine (candidate.1.local_isFixed s).bind fun fixed => ?_
    cases fixed with
    | true => exact ih best
    | false =>
      refine (h candidate.1).bind fun k => ?_
      cases best with
      | none => exact ih _
      | some best => exact ih _

theorem local_openPositions (s : Store) (candidates : List (IntVar × Nat)) :
    Local (openPositions s candidates) := by
  induction candidates with
  | nil => exact .pure _
  | cons candidate candidates ih =>
    refine (candidate.1.local_isFixed s).bind fun fixed => ?_
    cases fixed with
    | true => exact ih
    | false => exact ih.bind fun _ => .pure _

theorem VariableSelection.local_key? (s : State) (selection : VariableSelection)
    {key : IntVar → Except Fault Int} (h : selection.key? s = some key) (x : IntVar) :
    Local (key x) := by
  cases selection with
  | inputOrder | random => cases h
  | firstFail | antiFirstFail =>
    cases h
    exact (x.local_size s.store).bind fun _ => .pure _
  | smallest =>
    cases h
    exact x.local_bound s.store _
  | largest =>
    cases h
    exact (x.local_bound s.store _).bind fun _ => .pure _
  | maxDegree =>
    cases h
    exact .pure _

theorem VariableSelection.local_select (s : State) (vars : Table IntVar) (start : Nat)
    (selection : VariableSelection) : Local (selection.select s vars start) := by
  unfold select
  dsimp only
  split
  · exact (local_openPositions _ _).bind fun _ => (Generator.local_index _ _ _).bind fun _ =>
      .pure _
  · rename_i key hkey
    exact (local_leastKey _ (local_key? s _ hkey) _ _).bind fun _ => .pure _
  · exact .pure _

theorem ValueSelection.local_middle (s : Store) (x : IntVar) : Local (middle s x) :=
  (x.local_bound s _).bind fun _ => (x.local_bound s _).bind fun _ => .pure _

theorem ValueSelection.local_select (s : Store) (x : IntVar) (selection : ValueSelection) :
    Local (selection.select s x) := by
  cases selection with
  | min | max => exact (x.local_bound s _).bind fun _ => .pure _
  | median => exact (x.local_median s).bind fun _ => .pure _
  | split => exact (local_middle s x).bind fun _ => .pure _
  | reverseSplit =>
    exact (local_middle s x).bind fun _ => (Word.local_checked _ _).bind fun _ => .pure _
  | random generator =>
    exact (x.local_size s).bind fun _ => (Generator.local_index _ _ _).bind fun _ =>
      (x.local_nth s _).bind fun _ => .pure _
  | all => exact (x.local_values s).bind fun _ => .pure _

theorem IntBrancher.local_decide (s : State) (b : IntBrancher) : Local (b.decide s) := by
  refine (VariableSelection.local_select _ _ _ _).bind fun r =>
    (Table.local_fetch _ _).bind fun x => (x.local_isFixed _).bind fun fixed => ?_
  have hrest := (ValueSelection.local_select s.store x b.value).bind fun r' =>
    Local.pure (Decision.int r.1 x r'.1 (!b.symmetries.isEmpty),
      { b with select := r.2, value := r'.2 })
  cases fixed with
  | true => exact True.intro
  | false => exact hrest

namespace Brancher

/-- A brancher is asked for what is left to decide. -/
theorem local_status (s : Store) (b : Brancher) : Local (b.status s) := by
  cases b with
  | int b => exact (local_countDecided (IntVar.local_isFixed s) _).bind fun _ => .pure _
  | set vars start | float vars precision start =>
    exact (local_countDecided (fun _ => (Table.local_fetch _ _).bind fun _ => .pure _) _).bind
      fun _ => .pure _

/-- A brancher is asked for a decision. -/
theorem local_decide (s : State) (b : Brancher) : Local (b.decide s) := by
  cases b with
  | int b => exact (b.local_decide s).bind fun _ => .pure _
  | set vars start =>
    refine (Table.local_fetch _ _).bind fun x => (Table.local_fetch _ _).bind fun d => ?_
    cases d.leastUnknown? <;> exact True.intro
  | float vars precision start =>
    exact (Table.local_fetch _ _).bind fun _ => (Table.local_fetch _ _).bind fun _ => .pure _

end Brancher

/-- An alternative is described. -/
theorem Choice.local_describe (c : Choice) (alternative : Nat) :
    Local (c.describe alternative) := by
  obtain ⟨brancher, decision⟩ := c
  cases decision with
  | int position x split breaksSymmetries =>
    refine x.local_text.bind fun text => ?_
    cases split with
    | equal v | atMost v | atLeast v => cases alternative <;> exact .pure _
    | values vs => exact (Table.local_fetch _ _).bind fun _ => .pure _
  | set index v | float index v => exact .pure _

end ConstraintSearch
