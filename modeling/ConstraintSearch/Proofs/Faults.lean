import Mathlib.Data.List.Forall2
import ConstraintSearch.Journal
import ConstraintSearch.Table
import ConstraintSearch.Word

/-!
# Computations that may fault

`Yields δ r post` says that `r` has a result with the property `post`, or that 32-bit arithmetic
has overflowed. The parameter `δ` says whether a division by zero counts as a fault of arithmetic
as well: it can only happen to views that multiply by zero.

* `Yields.bind`, `Yields.mono`, `Yields.of_ok`;
* `Word.yields_checked`, `Word.yields_quot`, …: the operations on words are exact where they have a
  result;
* `Request.exists_of_bind`: the steps of a request that was granted;
* `Journaled.bind_of_run`, `Journaled.bind_of_fault`: runs of computations that write notes;
* `Journaled.Yields`: the same as `Yields` for such computations, and
  `Journaled.Returns` for a result that they have;
* `Journaled.Ensures`: what is true of every result, however the computation may fault;
* `Meets` and `Journaled.Meets`: what is true of every result and of every fault.
-/

namespace ConstraintSearch

/-- An overflow, or a division by zero where `δ` admits it. -/
def Fault.IsArithmetic (δ : Prop) : Fault → Prop
  | .overflow _ => True
  | .divisionByZero | .remainderByZero => δ
  | _ => False

/-- The result of `r` satisfies `post`, unless arithmetic has faulted. -/
def Yields (δ : Prop) {α : Type} (r : Except Fault α) (post : α → Prop) : Prop :=
  match r with
  | .ok a => post a
  | .error fault => fault.IsArithmetic δ

namespace Yields

variable {δ : Prop} {α β : Type} {r : Except Fault α} {f : α → Except Fault β} {P Q : α → Prop}
  {R : β → Prop}

theorem pure {a : α} (h : P a) : Yields δ (Pure.pure a : Except Fault α) P := h

theorem bind (hr : Yields δ r P) (hf : ∀ a, P a → Yields δ (f a) R) : Yields δ (r >>= f) R := by
  cases r with
  | ok a => exact hf a hr
  | error fault => exact hr

theorem mono (h : Yields δ r P) (hPQ : ∀ a, P a → Q a) : Yields δ r Q := by
  cases r with
  | ok a => exact hPQ a h
  | error fault => exact h

/-- What a result was computed from. -/
theorem exists_of_bind {b : β} (h : (r >>= f) = .ok b) : ∃ a, r = .ok a ∧ f a = .ok b := by
  cases r with
  | ok a => exact ⟨a, rfl, h⟩
  | error fault => cases h

theorem of_ok {a : α} (h : Yields δ r P) (hr : r = .ok a) : P a := by
  subst hr
  exact h

/-- The result is what the computation returns. -/
theorem self (h : Yields δ r P) : Yields δ r fun a => P a ∧ r = .ok a := by
  cases r with
  | ok a => exact ⟨h, rfl⟩
  | error fault => exact h

theorem mapM {xs : List α} {g : α → Except Fault β} {S : α → β → Prop}
    (h : ∀ x ∈ xs, Yields δ (g x) (S x)) :
    Yields δ (xs.mapM g) fun ys => List.Forall₂ S xs ys := by
  induction xs with
  | nil => exact List.Forall₂.nil
  | cons x xs ih =>
    rw [List.mapM_cons]
    refine (h x (by simp)).bind fun y hy => ?_
    refine (ih fun z hz => h z (by simp [hz])).bind fun ys hys => ?_
    exact List.Forall₂.cons hy hys

end Yields

/-- The result of `r` satisfies `post`, or `r` ends in a fault with the property `P`. -/
def Meets (P : Fault → Prop) {α : Type} (r : Except Fault α) (post : α → Prop) : Prop :=
  match r with
  | .ok a => post a
  | .error fault => P fault

namespace Meets

variable {P P' : Fault → Prop} {α β : Type} {r : Except Fault α} {f : α → Except Fault β}
  {Q Q' : α → Prop} {R : β → Prop}

theorem pure {a : α} (h : Q a) : Meets P (Pure.pure a : Except Fault α) Q := h

theorem bind (hr : Meets P r Q) (hf : ∀ a, Q a → Meets P (f a) R) : Meets P (r >>= f) R := by
  cases r with
  | ok a => exact hf a hr
  | error fault => exact hr

theorem mono (h : Meets P r Q) (hQ : ∀ a, Q a → Q' a) : Meets P r Q' := by
  cases r with
  | ok a => exact hQ a h
  | error fault => exact h

theorem widen (h : Meets P r Q) (hP : ∀ fault, P fault → P' fault) : Meets P' r Q := by
  cases r with
  | ok a => exact h
  | error fault => exact hP fault h

theorem of_ok {a : α} (h : Meets P r Q) (hr : r = .ok a) : Q a := by
  subst hr
  exact h

/-- The result is what the computation returns. -/
theorem self (h : Meets P r Q) : Meets P r fun a => Q a ∧ r = .ok a := by
  cases r with
  | ok a => exact ⟨h, rfl⟩
  | error fault => exact h

end Meets

/-- Where only arithmetic faults, it is the same to yield. -/
theorem yields_iff_meets {δ : Prop} {α : Type} {r : Except Fault α} {post : α → Prop} :
    Yields δ r post ↔ Meets (·.IsArithmetic δ) r post := by
  cases r <;> exact Iff.rfl

theorem Table.yields_fetch {δ : Prop} {α : Type} {t : Table α} {key : Nat} (h : key < t.size) :
    Yields δ (t.fetch key) fun row => t.get? key = some row := by
  have hlt : key < t.rows.size := h
  unfold Table.fetch
  rw [dif_pos hlt]
  exact Array.getElem?_eq_getElem hlt

namespace Word

variable {δ : Prop}

theorem yields_checked (operation : Operation) (v : Int) :
    Yields δ (checked operation v) fun w => w = v ∧ Fits v := by
  unfold checked
  split
  · rename_i h
    exact ⟨rfl, h⟩
  · exact trivial

theorem yields_quot {a b : Int} (h : b ≠ 0 ∨ δ) :
    Yields δ (quot a b) fun w => w = a.tdiv b ∧ b ≠ 0 := by
  unfold quot
  split
  · rename_i hb
    exact h.resolve_left (not_not.2 hb)
  · rename_i hb
    exact (yields_checked _ _).mono fun w hw => ⟨hw.1, hb⟩

theorem yields_rem {a b : Int} (h : b ≠ 0 ∨ δ) :
    Yields δ (rem a b) fun w => w = a.tmod b ∧ b ≠ 0 := by
  unfold rem
  split
  · rename_i hb
    exact h.resolve_left (not_not.2 hb)
  · rename_i hb
    split
    · exact ⟨rfl, hb⟩
    · exact trivial

theorem yields_floorDiv {a b : Int} (h : b ≠ 0 ∨ δ) :
    Yields δ (floorDiv a b) fun w => w = a.fdiv b ∧ b ≠ 0 :=
  (yields_quot h).bind fun _ hq => ⟨rfl, hq.2⟩

theorem yields_ceilDiv {a b : Int} (h : b ≠ 0 ∨ δ) :
    Yields δ (ceilDiv a b) fun w => w = -((-a).fdiv b) ∧ b ≠ 0 :=
  (yields_quot h).bind fun _ hq => ⟨rfl, hq.2⟩

end Word

/-! ### Requests -/

namespace Request

variable {α β : Type} {m : Request α} {f : α → Request β} {r : Except Fault α} {a : α} {b : β}

/-- What a granted request was granted from. -/
theorem exists_of_bind (h : (m >>= f) = .ok (.ok b)) :
    ∃ a, m = .ok (.ok a) ∧ f a = .ok (.ok b) := by
  rcases m with fault | error | a
  · cases h
  · cases h
  · exact ⟨a, rfl, h⟩

theorem of_lift (h : (liftM r : Request α) = .ok (.ok a)) : r = .ok a := by
  cases r with
  | error fault => cases h
  | ok b =>
    cases h
    rfl

end Request

namespace Journaled

section Runs

variable {α β : Type} {m m' : Journaled α} {f : α → Journaled β} {a : α} {b : β}
  {journal journal' : Journal}

theorem bind_apply (m : Journaled α) (f : α → Journaled β) (journal : Journal) :
    (m >>= f) journal = ExceptT.bindCont f (m journal).1 (m journal).2 := rfl

theorem bind_of_run (h : m journal = (.ok a, journal')) : (m >>= f) journal = f a journal' := by
  rw [bind_apply, h]
  rfl

theorem bind_of_fault {fault : Fault} (h : m journal = (.error fault, journal')) :
    (m >>= f) journal = (.error fault, journal') := by
  rw [bind_apply, h]
  rfl

theorem bind_congr_run (h : m journal = m' journal') :
    (m >>= f) journal = (m' >>= f) journal' := by
  rw [bind_apply, bind_apply, h]

/-- The two parts of a run. -/
theorem exists_run_of_bind (h : (m >>= f) journal = (.ok b, journal')) :
    ∃ a between, m journal = (.ok a, between) ∧ f a between = (.ok b, journal') := by
  rcases hm : m journal with ⟨fault | a, between⟩
  · rw [bind_of_fault hm] at h
    cases h
  · rw [bind_of_run hm] at h
    exact ⟨a, between, rfl, h⟩

theorem lift_of_eq {r : Except Fault α} (h : r = .ok a) :
    (liftM r : Journaled α) journal = (.ok a, journal) := by
  subst h
  rfl

end Runs

/-- Whatever was written before, the result of a journaled computation satisfies `post`, unless
arithmetic has faulted. -/
def Yields (δ : Prop) {α : Type} (m : Journaled α) (post : α → Prop) : Prop :=
  ∀ journal, ConstraintSearch.Yields δ (m journal).1 post

variable {δ : Prop} {α β : Type} {m : Journaled α} {f : α → Journaled β} {P Q : α → Prop}
  {R : β → Prop}

theorem Yields.pure {a : α} (h : P a) : Yields δ (Pure.pure a : Journaled α) P := fun _ => h

theorem Yields.bind (hm : Yields δ m P) (hf : ∀ a, P a → Yields δ (f a) R) :
    Yields δ (m >>= f) R := by
  intro journal
  have hm := hm journal
  rw [bind_apply]
  cases hr : (m journal).1 with
  | ok a =>
    rw [hr] at hm
    exact hf a hm _
  | error fault =>
    rw [hr] at hm
    exact hm

theorem Yields.mono (h : Yields δ m P) (hPQ : ∀ a, P a → Q a) : Yields δ m Q :=
  fun journal => (h journal).mono hPQ

theorem Yields.lift {r : Except Fault α} (h : ConstraintSearch.Yields δ r P) :
    Yields δ (liftM r : Journaled α) P := by
  intro journal
  cases r with
  | ok a => exact h
  | error fault => exact h

theorem Yields.note (n : Note) : Yields δ (Journaled.note n) fun _ => True := fun _ => trivial

theorem Yields.mapM {xs : List α} {S : α → β → Prop} (h : ∀ x ∈ xs, Yields δ (f x) (S x)) :
    Yields δ (xs.mapM f) fun ys => List.Forall₂ S xs ys := by
  induction xs with
  | nil => exact Yields.pure List.Forall₂.nil
  | cons x xs ih =>
    obtain ⟨hx, hxs⟩ := List.forall_mem_cons.1 h
    rw [List.mapM_cons]
    exact hx.bind fun y hy => (ih hxs).bind fun ys hys => Yields.pure (.cons hy hys)

/-- The computation has the result `a`, after something was written. -/
def Returns (m : Journaled α) (a : α) : Prop := ∃ journal, (m journal).1 = .ok a

/-- Whether the computation has a result with a property that can be evaluated. -/
def check (m : Journaled α) (property : α → Bool) : Bool :=
  match (m #[]).1 with
  | .ok a => property a
  | .error _ => false

/-- What was evaluated is a run. -/
theorem exists_run_of_check {property : α → Bool} (h : m.check property = true) :
    ∃ a journal, m #[] = (.ok a, journal) ∧ property a = true := by
  unfold check at h
  rcases hm : m #[] with ⟨fault | a, journal⟩
  · rw [hm] at h
    cases h
  · rw [hm] at h
    exact ⟨a, journal, rfl, h⟩

theorem exists_of_check {property : α → Bool} (h : m.check property = true) :
    ∃ a, m.Returns a ∧ property a = true := by
  obtain ⟨a, journal, hrun, hproperty⟩ := exists_run_of_check h
  exact ⟨a, ⟨#[], congrArg Prod.fst hrun⟩, hproperty⟩

theorem Yields.of_returns {a : α} (h : Yields δ m P) (hm : m.Returns a) : P a := by
  obtain ⟨journal, hm⟩ := hm
  exact (h journal).of_ok hm

/-- The result is what the computation returns. -/
theorem Yields.self (h : Yields δ m P) : Yields δ m fun a => P a ∧ m.Returns a := fun journal =>
  (h journal).self.mono fun _ ha => ⟨ha.1, journal, ha.2⟩

theorem exists_of_returns_bind {b : β} (h : Returns (m >>= f) b) :
    ∃ a, m.Returns a ∧ Returns (f a) b := by
  obtain ⟨journal, h⟩ := h
  rw [bind_apply] at h
  cases hr : (m journal).1 with
  | error fault =>
    rw [hr] at h
    cases h
  | ok a =>
    rw [hr] at h
    exact ⟨a, ⟨journal, hr⟩, ⟨_, h⟩⟩

theorem of_returns_pure {a b : α} (h : Returns (Pure.pure a : Journaled α) b) : a = b := by
  obtain ⟨journal, h⟩ := h
  cases h
  rfl

theorem of_returns_lift {r : Except Fault α} {a : α} (h : Returns (liftM r : Journaled α) a) :
    r = .ok a := by
  obtain ⟨journal, h⟩ := h
  cases r with
  | error fault => cases h
  | ok b =>
    cases h
    rfl

/-- A fault is handled. -/
theorem of_returns_tryCatch {handle : Fault → Journaled α} {a : α}
    (h : Returns (tryCatchThe Fault m handle) a) :
    m.Returns a ∨ ∃ fault, (handle fault).Returns a := by
  obtain ⟨journal, h⟩ := h
  change (ExceptT.tryCatch m handle journal).1 = .ok a at h
  unfold ExceptT.tryCatch at h
  simp only [ExceptT.mk, bind, StateT.bind] at h
  rcases hr : m journal with ⟨r, journal'⟩
  rw [hr] at h
  cases r with
  | ok b =>
    cases h
    exact .inl ⟨journal, congrArg Prod.fst hr⟩
  | error fault => exact .inr ⟨fault, journal', h⟩

/-- Every result of the computation has the property, whatever faults there are. -/
def Ensures (m : Journaled α) (post : α → Prop) : Prop := ∀ a, m.Returns a → post a

theorem Ensures.pure {a : α} (h : P a) : (Pure.pure a : Journaled α).Ensures P :=
  fun _ ha => of_returns_pure ha ▸ h

theorem Ensures.bind (hm : m.Ensures P) (hf : ∀ a, P a → (f a).Ensures R) :
    (m >>= f).Ensures R := by
  intro b hb
  obtain ⟨a, ha, hb⟩ := exists_of_returns_bind hb
  exact hf a (hm a ha) b hb

theorem Ensures.mono (h : m.Ensures P) (hPQ : ∀ a, P a → Q a) : m.Ensures Q :=
  fun a ha => hPQ a (h a ha)

theorem Yields.ensures (h : Yields δ m P) : m.Ensures P := fun _ ha => h.of_returns ha

theorem Ensures.of_returns {a : α} (h : m.Ensures P) (ha : m.Returns a) : P a := h a ha

theorem Ensures.lift {r : Except Fault α} (h : ∀ a, r = .ok a → P a) :
    (liftM r : Journaled α).Ensures P :=
  fun a ha => h a (of_returns_lift ha)

theorem Ensures.throw (fault : Fault) : (throwThe Fault fault : Journaled α).Ensures P := by
  rintro a ⟨journal, h⟩
  cases h

theorem Ensures.trivial : m.Ensures fun _ => True := fun _ _ => True.intro

/-- The result is what the computation returns. -/
theorem Ensures.self (h : m.Ensures P) : m.Ensures fun a => P a ∧ m.Returns a :=
  fun a ha => ⟨h a ha, ha⟩

/-- Whatever was written before, the result of the computation satisfies `post`, or the computation
ends in a fault with the property `S`. -/
def Meets (S : Fault → Prop) {α : Type} (m : Journaled α) (post : α → Prop) : Prop :=
  ∀ journal, ConstraintSearch.Meets S (m journal).1 post

variable {S : Fault → Prop}

theorem Meets.pure {a : α} (h : P a) : Meets S (Pure.pure a : Journaled α) P := fun _ => h

theorem Meets.bind (hm : Meets S m P) (hf : ∀ a, P a → Meets S (f a) R) :
    Meets S (m >>= f) R := by
  intro journal
  have hm := hm journal
  rw [bind_apply]
  cases hr : (m journal).1 with
  | ok a =>
    rw [hr] at hm
    exact hf a hm _
  | error fault =>
    rw [hr] at hm
    exact hm

theorem Meets.mono (h : Meets S m P) (hPQ : ∀ a, P a → Q a) : Meets S m Q :=
  fun journal => (h journal).mono hPQ

theorem Meets.lift {r : Except Fault α} (h : ConstraintSearch.Meets S r P) :
    Meets S (liftM r : Journaled α) P := by
  intro journal
  cases r with
  | ok a => exact h
  | error fault => exact h

theorem Meets.note (n : Note) : Meets S (Journaled.note n) fun _ => True := fun _ => True.intro

theorem Meets.of_returns {a : α} (h : Meets S m P) (hm : m.Returns a) : P a := by
  obtain ⟨journal, hm⟩ := hm
  exact (h journal).of_ok hm

/-- The result is what the computation returns. -/
theorem Meets.self (h : Meets S m P) : Meets S m fun a => P a ∧ m.Returns a := fun journal =>
  (h journal).self.mono fun _ ha => ⟨ha.1, journal, ha.2⟩

end Journaled

end ConstraintSearch
