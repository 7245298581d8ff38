import ConstraintSearch.Proofs.Domain.IntervalSet
import ConstraintSearch.Proofs.Overflow.View
import ConstraintSearch.Proofs.Posting
import ConstraintSearch.Proofs.Restriction

/-!
# Handles as transformed sets

A handle is a variable of the store, a truth value, or what scaling by factors other than zero,
adding constants and negating make of one. It stands for `a * v + b`, where `v` is the value of the
store variable, and behaves as a variable whose domain is the image of the domain of `v`, as long as
no arithmetic overflows.

* `IntVar.IsHandle`: the handles, and the factor and constant that each one stands for;
* `Guarded`: a computation has a result just where its arithmetic fits, and overflows elsewhere;
* `IntVar.Inverts`: the arithmetic that carries a restriction back to the store variable fits;
  `IntVar.guarded_pull` and `IntVar.guarded_bound`: this, and `IntVar.Computes` for the bounds, are
  exactly what the code needs;
* `Filters`, `IntVar.ReadsAs`: narrowing and reading a variable with a given set of values;
* `IntVar.IsHandle.transforms_set`: a handle has the image as its set of values.
-/

namespace ConstraintSearch

/-! ### Computations that are guarded by a condition -/

/-- Where `fits` holds, `r` has a result with the property `post`. Elsewhere it overflows. -/
structure Guarded (fits : Prop) {α : Type} (r : Except Fault α) (post : α → Prop) : Prop where
  returns : fits → ∃ a, r = .ok a ∧ post a
  overflows : ¬fits → ∃ operation, r = .error (.overflow operation)

namespace Guarded

variable {p q : Prop} {α β : Type} {r : Except Fault α} {f : α → Except Fault β} {P Q : α → Prop}
  {R : β → Prop} {a : α}

theorem of_eq (hp : p) (h : r = .ok a) (ha : P a) : Guarded p r P :=
  ⟨fun _ => ⟨a, h, ha⟩, fun hn => absurd hp hn⟩

theorem congr (h : Guarded p r P) (hiff : p ↔ q) : Guarded q r P := by
  rwa [← hiff]

theorem bind (h : Guarded p r P) (hf : ∀ a, P a → Guarded q (f a) R) :
    Guarded (p ∧ q) (r >>= f) R := by
  constructor
  · rintro ⟨hp, hq⟩
    obtain ⟨a, rfl, ha⟩ := h.returns hp
    exact (hf a ha).returns hq
  · intro hpq
    by_cases hp : p
    · obtain ⟨a, rfl, ha⟩ := h.returns hp
      exact (hf a ha).overflows fun hq => hpq ⟨hp, hq⟩
    · obtain ⟨operation, rfl⟩ := h.overflows hp
      exact ⟨operation, rfl⟩

/-- A step that cannot fault needs no condition. -/
theorem map (h : Guarded p r P) (hf : ∀ a, P a → ∃ b, f a = .ok b ∧ R b) :
    Guarded p (r >>= f) R :=
  (h.bind (q := True) fun a ha => by
    obtain ⟨b, hb, hR⟩ := hf a ha
    exact of_eq trivial hb hR).congr (Iff.of_eq (and_true p))

/-- A result has the properties that it has wherever it exists. -/
theorem of_yields {δ : Prop} (h : Guarded p r P) (hy : Yields δ r Q) : Guarded p r Q := by
  refine ⟨fun hp => ?_, h.overflows⟩
  obtain ⟨a, ha, -⟩ := h.returns hp
  exact ⟨a, ha, hy.of_ok ha⟩

/-- A computation that only overflows is guarded by the condition that it has a result. -/
theorem of_exists_iff (hy : Yields False r Q) (hiff : (∃ a, r = .ok a) ↔ p) : Guarded p r Q := by
  cases r with
  | ok a => exact ⟨fun _ => ⟨a, rfl, hy⟩, fun hp => absurd (hiff.1 ⟨a, rfl⟩) hp⟩
  | error fault =>
    cases fault with
    | overflow operation =>
      exact ⟨fun hp => (nomatch (hiff.2 hp).choose_spec), fun _ => ⟨operation, rfl⟩⟩
    | _ => exact hy.elim

end Guarded

theorem Word.guarded_checked (operation : Operation) (v : Int) :
    Guarded (Fits v) (checked operation v) (· = v) :=
  ⟨fun h => ⟨v, checked_of_fits h, rfl⟩, fun h => ⟨operation, if_neg h⟩⟩

namespace IntVar

variable {x y : IntVar} {s : Store} {d : IntDomain} {i : Nat} {a b k v : Int}

/-! ### The handles -/

/-- `x` is a handle of the variable `i` of the store, and stands for `a * v + b` where this has the
value `v`. -/
inductive IsHandle : IntVar → Nat → Int → Int → Prop
  /-- A variable of the store. -/
  | plain (i : Nat) : IsHandle (root i) i 1 0
  /-- The truth value of a variable of the store. -/
  | truth (i : Nat) : IsHandle (ofTruth i) i 1 0
  /-- A multiple of a handle, where no product overflows. -/
  | scaled {x y : IntVar} {i : Nat} {a b k : Int} (hx : IsHandle x i a b) (hk : k ≠ 0)
      (h : x.scaled k = .ok y) : IsHandle y i (k * a) (k * b)
  /-- A handle moved by a constant, where the sum does not overflow. -/
  | plus {x y : IntVar} {i : Nat} {a b k : Int} (hx : IsHandle x i a b)
      (h : x.plus k = .ok y) : IsHandle y i a (b + k)
  /-- The opposite `1 - x`. -/
  | negated {x y : IntVar} {i : Nat} {a b : Int} (hx : IsHandle x i a b)
      (h : x.negated = .ok y) : IsHandle y i (-a) (1 - b)

/-- What is known of a handle without its history. -/
structure Transforms (x : IntVar) (i : Nat) (a b : Int) : Prop where
  index : x.index = i
  proper : x.Proper
  scale_ne_zero : a ≠ 0
  eval : ∀ v, x.eval v = a * v + b

/-- Adding a constant, in one view with what is added before. -/
theorem Transforms.plus (hx : x.Transforms i a b) (h : x.plus k = .ok y) :
    y.Transforms i a (b + k) := by
  have view_once (hview : IntVar.view x 1 k = .ok y) : y.Transforms i a (b + k) := by
    unfold IntVar.view at hview
    rw [if_neg Int.one_ne_zero] at hview
    cases hview
    refine ⟨hx.index, ⟨Int.one_ne_zero, hx.proper⟩, hx.scale_ne_zero, fun v => ?_⟩
    simp only [IntVar.eval, hx.eval]
    ring
  cases x with
  | root j => exact view_once h
  | bool inner => exact view_once h
  | affine inner scale offset =>
    obtain ⟨sum, hsum, h⟩ := Yields.exists_of_bind h
    obtain ⟨-, rfl⟩ := Word.checked_eq_ok.1 hsum
    cases h
    refine ⟨hx.index, hx.proper, hx.scale_ne_zero, fun v => ?_⟩
    have heval := hx.eval v
    simp only [IntVar.eval] at heval ⊢
    omega

theorem Transforms.scaled (hx : x.Transforms i a b) (hk : k ≠ 0) (h : x.scaled k = .ok y) :
    y.Transforms i (k * a) (k * b) := by
  have hweighs := Posting.weighs_of_scaled hk h
  refine ⟨hweighs.index.trans hx.index, hweighs.proper hx.proper,
    Int.mul_ne_zero hk hx.scale_ne_zero, fun v => ?_⟩
  rw [hweighs.eval, hx.eval]
  ring

theorem Transforms.negated (hx : x.Transforms i a b) (h : x.negated = .ok y) :
    y.Transforms i (-a) (1 - b) := by
  have flip_once {x y z : IntVar} (hx : x.Transforms i a b) (hy : x.scaled (-1) = .ok y)
      (hz : y.plus 1 = .ok z) : z.Transforms i (-a) (1 - b) := by
    have hflipped := (hx.scaled (by decide) hy).plus hz
    rwa [neg_one_mul, neg_one_mul, neg_add_eq_sub] at hflipped
  cases x with
  | bool inner =>
    obtain ⟨opposite, hscaled, h⟩ := Yields.exists_of_bind h
    obtain ⟨shifted, hshifted, h⟩ := Yields.exists_of_bind h
    cases h
    have hinner : inner.Transforms i a b := ⟨hx.index, hx.proper, hx.scale_ne_zero, hx.eval⟩
    obtain ⟨hindex, hproper, hscale, heval⟩ := flip_once hinner hscaled hshifted
    exact ⟨hindex, hproper, hscale, heval⟩
  | root j | affine inner scale offset =>
    obtain ⟨opposite, hscaled, hshifted⟩ := Yields.exists_of_bind h
    exact flip_once hx hscaled hshifted

theorem IsHandle.transforms (h : x.IsHandle i a b) : x.Transforms i a b := by
  induction h with
  | plain i => exact ⟨rfl, trivial, Int.one_ne_zero, fun v => by simp only [IntVar.eval]; omega⟩
  | truth i =>
    exact ⟨rfl, ⟨Int.one_ne_zero, trivial⟩, Int.one_ne_zero, fun v => by
      simp only [ofTruth, IntVar.eval]⟩
  | scaled _ hk h ih => exact ih.scaled hk h
  | plus _ h ih => exact ih.plus h
  | negated _ h ih => exact ih.negated h

theorem Transforms.strict (h : x.Transforms i a b) : StrictMono x.eval ∨ StrictAnti x.eval := by
  rcases lt_or_gt_of_ne h.scale_ne_zero with ha | ha
  · refine .inr fun u v huv => ?_
    rw [h.eval, h.eval]
    have := mul_lt_mul_of_neg_left huv ha
    omega
  · refine .inl fun u v huv => ?_
    rw [h.eval, h.eval]
    have := mul_lt_mul_of_pos_left huv ha
    omega

/-! ### Reading -/

theorem guarded_image (scale offset v : Int) :
    Guarded (Word.Fits (scale * v) ∧ Word.Fits (scale * v + offset)) (image scale offset v)
      (· = scale * v + offset) :=
  (Word.guarded_checked _ _).bind fun _ h => h ▸ Word.guarded_checked _ _

/-- A bound of a handle is computed from the bound of the store variable on the side that is turned
to it. -/
theorem guarded_bound (hd : s.int x.index = .ok d) (hfits : ∀ v ∈ d, Word.Fits v)
    (hc : d.Canonical) (side : Side) :
    Guarded (x.Computes (d.extreme (x.turn side))) (x.bound s side)
      (· = x.eval (d.extreme (x.turn side))) := by
  induction x generalizing side with
  | root i =>
    have hside : (root i).bound s side = .ok (d.extreme side) := by
      replace hd : s.int i = .ok d := hd
      cases side <;> simp only [bound, hd] <;> rfl
    exact .of_eq (hfits _ (extreme_mem hc side)) hside rfl
  | bool inner ih => exact ih hd side
  | affine inner scale offset ih =>
    refine (ih hd _).bind ?_
    rintro _ rfl
    exact guarded_image scale offset _

/-! ### Carrying restrictions back -/

/-- The value `v` can be carried back to the store variable. At each view the difference is a word,
and so is the quotient, on which a view further inside goes on if there is no remainder. -/
def InvertsValue : IntVar → Int → Prop
  | root _, _ => True
  | affine inner scale offset, v =>
      (Word.Fits (v - offset) ∧ (scale = -1 → v - offset ≠ Word.least)) ∧
        (scale ∣ v - offset → inner.InvertsValue ((v - offset) / scale))
  | bool inner, v => inner.InvertsValue v

instance decidableInvertsValue : (x : IntVar) → (v : Int) → Decidable (x.InvertsValue v)
  | root _, _ => inferInstanceAs (Decidable True)
  | affine inner scale offset, v =>
      have := inner.decidableInvertsValue ((v - offset) / scale)
      inferInstanceAs (Decidable
        ((Word.Fits (v - offset) ∧ (scale = -1 → v - offset ≠ Word.least)) ∧
          (scale ∣ v - offset → inner.InvertsValue _)))
  | bool inner, v => inner.decidableInvertsValue v

/-- The restriction by `v` can be carried back to the store variable. -/
def Inverts (x : IntVar) : Relation → Int → Prop
  | .equal, v | .notEqual, v => x.InvertsValue v
  | .atMost, v => x.Carries .upper v
  | .atLeast, v => x.Carries .lower v

instance (x : IntVar) : (relation : Relation) → (v : Int) → Decidable (x.Inverts relation v)
  | .equal, v | .notEqual, v => inferInstanceAs (Decidable (x.InvertsValue v))
  | .atMost, v | .atLeast, v => inferInstanceAs (Decidable (x.Carries _ v))

theorem guarded_preimage {scale : Int} (hscale : scale ≠ 0) (offset v : Int) :
    Guarded (Word.Fits (v - offset) ∧ (scale = -1 → v - offset ≠ Word.least))
      (preimage scale offset v)
      (· = if scale ∣ v - offset then some ((v - offset) / scale) else none) := by
  refine Guarded.congr ((Word.guarded_checked .subtract (v - offset)).bind
    (q := Word.Fits ((v - offset).tdiv scale)) ?_)
    (and_congr_right fun hfits => Word.fits_tdiv_iff hfits hscale)
  rintro _ rfl
  -- The remainder faults where the quotient does, so that the quotient itself never faults.
  by_cases hfits : Word.Fits ((v - offset).tdiv scale)
  · refine .of_eq hfits ?_ rfl
    have hrem : Word.rem (v - offset) scale = .ok ((v - offset).tmod scale) := by
      rw [Word.rem, if_neg hscale, if_pos hfits]
    have hquot : Word.quot (v - offset) scale = .ok ((v - offset).tdiv scale) := by
      rw [Word.quot, if_neg hscale, Word.checked_of_fits hfits]
    rw [hrem]
    show (if (v - offset).tmod scale = 0 then _ else _) = _
    by_cases hdvd : scale ∣ v - offset
    · rw [if_pos (Int.tmod_eq_zero_of_dvd hdvd), if_pos hdvd, hquot,
        Int.tdiv_eq_ediv_of_dvd hdvd]
      rfl
    · rw [if_neg fun h => hdvd (Int.dvd_of_tmod_eq_zero h), if_neg hdvd]
      rfl
  · refine ⟨fun h => absurd h hfits, fun _ => ⟨.remainder, ?_⟩⟩
    rw [Word.rem, if_neg hscale, if_neg hfits]
    rfl

/-- A value is carried back by differences and quotients that leave no remainder. -/
theorem guarded_pull_value (hx : x.Proper) {relation : Relation}
    (hrelation : relation = .equal ∨ relation = .notEqual) (v : Int) :
    Guarded (x.InvertsValue v) (x.pull relation v) fun _ => True := by
  induction x generalizing v with
  | root i => exact .of_eq trivial rfl trivial
  | bool inner ih => exact ih hx v
  | affine inner scale offset ih =>
    have honce : pullOnce scale offset relation v = do
        let w ← preimage scale offset v
        return w.map (relation, ·) := by
      rcases hrelation with rfl | rfl <;> rfl
    unfold pull
    rw [honce, bind_assoc]
    refine (guarded_preimage hx.1 offset v).bind ?_
    rintro _ rfl
    by_cases hdvd : scale ∣ v - offset
    · rw [if_pos hdvd]
      exact (ih hx.2 _).congr (imp_iff_right hdvd).symm
    · rw [if_neg hdvd]
      exact .of_eq (fun h => absurd h hdvd) rfl trivial

theorem guarded_pull (hx : x.Proper) (relation : Relation) (v : Int) :
    Guarded (x.Inverts relation v) (x.pull relation v) (x.Means relation v) := by
  have hmeans : Yields False (x.pull relation v) (x.Means relation v) :=
    (yields_pull (.inl hx) relation v).mono fun _ h => h.1
  cases relation with
  | equal => exact (guarded_pull_value hx (.inl rfl) v).of_yields hmeans
  | notEqual => exact (guarded_pull_value hx (.inr rfl) v).of_yields hmeans
  | atMost => exact .of_exists_iff hmeans (exists_pull_iff .upper)
  | atLeast => exact .of_exists_iff hmeans (exists_pull_iff .lower)

/-- A value is looked up where it is carried back to. -/
theorem contains_eq_pull (x : IntVar) (s : Store) (v : Int) :
    x.contains s v = do
      match ← x.pull .equal v with
      | .root i _ w => return (← s.int i).contains w
      | _ => return false := by
  induction x generalizing v with
  | root i => rfl
  | bool inner ih => exact ih v
  | affine inner scale offset ih =>
    simp only [contains, pull, pullOnce, bind_assoc]
    refine bind_congr fun w => ?_
    cases w with
    | none => rfl
    | some w => exact ih w

end IntVar

/-! ### Handles as variables with a domain of their own -/

/-- Narrowing the variable `i`, with the domain `d`, to the values with the property `P`, where its
values are seen through `f`. -/
structure Filters (s : Store) (i : Nat) (d : IntDomain) (f : Int → Int) (P : Int → Prop)
    (event : Event) (s' : Store) : Prop where
  failed_iff : event = .failed ↔ ∀ v ∈ f '' d.carrier, ¬P v
  none_iff : event = .none ↔ ∀ v ∈ f '' d.carrier, P v
  describes : event.Describes (f '' d.carrier) {v ∈ f '' d.carrier | P v}
  unchanged : event = .failed ∨ event = .none → s' = s
  narrowed : event ≠ .failed →
    ∃ e : IntDomain, e.Arises ∧ e.carrier = {v ∈ d.carrier | P (f v)} ∧ s' = s.withInt i e

namespace Filters

variable {s : Store} {i : Nat} {d e : IntDomain} {f : Int → Int} {P : Int → Prop}

theorem setOf_image : {v ∈ f '' d.carrier | P v} = f '' {v ∈ d.carrier | P (f v)} := by
  ext w
  constructor
  · rintro ⟨⟨v, hv, rfl⟩, hP⟩
    exact ⟨v, ⟨hv, hP⟩, rfl⟩
  · rintro ⟨v, ⟨hv, hP⟩, rfl⟩
    exact ⟨⟨v, hv, rfl⟩, hP⟩

/-- The event tells everything else. -/
theorem of_describes {event : Event} {s' : Store} (hd : d.Canonical)
    (h : event.Describes (f '' d.carrier) {v ∈ f '' d.carrier | P v})
    (hunchanged : event = .failed ∨ event = .none → s' = s)
    (hnarrowed : event ≠ .failed →
      ∃ e : IntDomain, e.Arises ∧ e.carrier = {v ∈ d.carrier | P (f v)} ∧ s' = s.withInt i e) :
    Filters s i d f P event s' where
  failed_iff := h.failed_iff.trans Set.sep_eq_empty_iff_mem_false
  none_iff := (h.none_iff ((IntDomain.meaning.nonempty d hd).image f)).trans
    Set.sep_eq_self_iff_mem_true
  describes := h
  unchanged := hunchanged
  narrowed := hnarrowed

theorem of_none (hd : d.Arises) (h : ∀ v ∈ d.carrier, ¬P (f v)) :
    Filters s i d f P .failed s := by
  refine of_describes hd.canonical ?_ (fun _ => rfl) fun hne => absurd rfl hne
  rw [setOf_image, Set.sep_eq_empty_iff_mem_false.2 h]
  exact Set.image_empty f

theorem of_all (hs : s.int i = .ok d) (hd : d.Arises) (h : ∀ v ∈ d.carrier, P (f v)) :
    Filters s i d f P .none s := by
  have hall : {v ∈ d.carrier | P (f v)} = d.carrier := Set.sep_eq_self_iff_mem_true.2 h
  refine of_describes hd.canonical ?_ (fun _ => rfl) fun _ => ⟨d, hd, hall.symm, ?_⟩
  · rw [setOf_image, hall]
    exact ⟨((IntDomain.meaning.nonempty d hd.canonical).image f).ne_empty, rfl⟩
  · exact (Store.withInt_self hs).symm

/-- A narrowing of the store that keeps the values whose images have the property. -/
theorem of_keeps (hf : StrictMono f ∨ StrictAnti f) (hs : s.int i = .ok d) (hd : d.Arises)
    {relation : Relation} {w : Int} (h : ∀ v, relation.Holds v w ↔ P (f v)) :
    ∃ event s', s.narrowInt i (·.restrict relation w) = .ok (event, s') ∧
      Filters s i d f P event s' := by
  have hkeeps := hd.canonical.keeps_restrict relation w
  simp only [h] at hkeeps
  unfold Store.narrowInt
  rw [hs]
  simp only [bind, Except.bind]
  cases hr : d.restrict relation w with
  | unchanged => exact ⟨.none, s, rfl, of_all hs hd (hkeeps.unchanged_iff.1 hr)⟩
  | empty => exact ⟨.failed, s, rfl, of_none hd (hkeeps.empty_iff.1 hr)⟩
  | changed e =>
    have he := hkeeps.denotes_changed e hr
    have hsub : e.carrier ⊆ d.carrier := he ▸ Set.sep_subset _ _
    have hchanged : e.carrier ≠ d.carrier := fun heq => by
      rw [heq] at he
      have := hkeeps.unchanged_iff.2 (Set.sep_eq_self_iff_mem_true.1 he.symm)
      rw [hr] at this
      cases this
    have hevent := hd.canonical.describes_eventTowards (hd.restrict hr).canonical hsub
    -- A new domain is neither empty nor the old one, and the event of the set is that of its image.
    refine ⟨_, _, rfl, of_describes hd.canonical ?_ ?_ fun _ => ⟨e, hd.restrict hr, he, rfl⟩⟩
    · rw [setOf_image, ← he]
      exact hevent.image hf
    · rintro (hfailed | hnone)
      · exact absurd (hevent.failed_iff.1 hfailed)
          (IntDomain.meaning.nonempty e (hd.restrict hr).canonical).ne_empty
      · exact absurd ((hevent.none_iff (IntDomain.meaning.nonempty d hd.canonical)).1 hnone)
          hchanged

end Filters

namespace IntVar

variable {x : IntVar} {s : Store} {d : IntDomain} {i : Nat} {a b v : Int} {f : Int → Int}

/-- Reading the variable `x` as one whose values are those of `d` seen through `f`. -/
structure ReadsAs (x : IntVar) (s : Store) (d : IntDomain) (f : Int → Int) : Prop where
  size : x.size s = .ok (f '' d.carrier).ncard
  lower : ∃ v ∈ d.carrier, IsLeast (f '' d.carrier) (f v) ∧
    Guarded (x.Computes v) (x.lower s) (· = f v)
  upper : ∃ v ∈ d.carrier, IsGreatest (f '' d.carrier) (f v) ∧
    Guarded (x.Computes v) (x.upper s) (· = f v)
  isFixed : Guarded (∀ v ∈ d.carrier, x.Computes v) (x.isFixed s)
    (· = true ↔ ∃ v, f '' d.carrier = {v})
  contains : ∀ v, Guarded (x.InvertsValue v) (x.contains s v) (· = true ↔ v ∈ f '' d.carrier)

/-- The store has the domain `d` for the variable behind `x`. -/
theorem exists_box (hs : s.int x.index = .ok d) :
    x.index < s.ints.size ∧ s.box.ints x.index = d := by
  have hi : x.index < s.ints.size := Table.lt_of_fetch hs
  exact ⟨hi, Except.ok.inj ((Store.int_of_lt hi).symm.trans hs)⟩

theorem isLeast_eval (hs : s.int x.index = .ok d) (hd : d.Canonical) :
    IsLeast (x.eval '' d.carrier) (x.eval (d.extreme (x.turn .lower))) := by
  obtain ⟨-, rfl⟩ := exists_box hs
  refine ⟨⟨_, IntDomain.mem_carrier.2 (extreme_mem hd _), rfl⟩, ?_⟩
  rintro _ ⟨v, hv, rfl⟩
  exact edge_le_eval hd (IntDomain.mem_carrier.1 hv)

theorem isGreatest_eval (hs : s.int x.index = .ok d) (hd : d.Canonical) :
    IsGreatest (x.eval '' d.carrier) (x.eval (d.extreme (x.turn .upper))) := by
  obtain ⟨-, rfl⟩ := exists_box hs
  refine ⟨⟨_, IntDomain.mem_carrier.2 (extreme_mem hd _), rfl⟩, ?_⟩
  rintro _ ⟨v, hv, rfl⟩
  exact eval_le_edge hd (IntDomain.mem_carrier.1 hv)

/-- All values are computed if those at both ends are. -/
theorem computes_ends_iff (hs : s.int x.index = .ok d) (hd : d.Canonical) :
    x.Computes (d.extreme (x.turn .lower)) ∧ x.Computes (d.extreme (x.turn .upper)) ↔
      ∀ v ∈ d.carrier, x.Computes v := by
  obtain ⟨-, rfl⟩ := exists_box hs
  have hmem (side : Side) : (s.box.ints x.index).extreme side ∈ (s.box.ints x.index).carrier :=
    IntDomain.mem_carrier.2 (extreme_mem hd side)
  refine ⟨fun ⟨hl, hu⟩ v hv => ?_, fun hall => ⟨hall _ (hmem _), hall _ (hmem _)⟩⟩
  have hreadable : x.Readable s := fun side => by cases side <;> assumption
  exact hreadable.computes hd (IntDomain.mem_carrier.1 hv)

theorem readsAs (hx : x.Transforms i a b) (hs : s.int i = .ok d) (hd : d.Arises) :
    x.ReadsAs s d x.eval := by
  obtain ⟨rfl, hproper, -, -⟩ := id hx
  have hc := hd.canonical
  have hinj : Function.Injective x.eval := hx.strict.elim StrictMono.injective StrictAnti.injective
  have hfits : ∀ v ∈ d, Word.Fits v := fun v => hd.fits
  have hleast := isLeast_eval hs hc
  have hgreatest := isGreatest_eval hs hc
  refine ⟨?_, ⟨_, IntDomain.mem_carrier.2 (extreme_mem hc _), hleast, guarded_bound hs hfits hc _⟩,
    ⟨_, IntDomain.mem_carrier.2 (extreme_mem hc _), hgreatest, guarded_bound hs hfits hc _⟩, ?_, ?_⟩
  · rw [Set.ncard_image_of_injective _ hinj, hc.ncard_carrier, size, hs]
    rfl
  · refine Guarded.congr ((guarded_bound hs hfits hc .lower).bind fun l hl =>
      (guarded_bound hs hfits hc .upper).map fun u hu => ⟨_, rfl, ?_⟩) (computes_ends_iff hs hc)
    rw [exists_eq_singleton_iff hleast hgreatest, hl, hu, decide_eq_true_iff]
  · intro v
    have hresult : Guarded (x.InvertsValue v) (x.contains s v) fun _ => True := by
      rw [contains_eq_pull]
      refine (guarded_pull hproper .equal v).map fun p hp => ?_
      cases p with
      | root i relation w =>
        obtain ⟨rfl, -⟩ := hp
        exact ⟨d.contains w, by simp only [hs]; rfl, trivial⟩
      | never | always => exact ⟨false, rfl, trivial⟩
    obtain ⟨hi, rfl⟩ := exists_box hs
    refine hresult.of_yields ((yields_contains ⟨hi, .inl hproper⟩ v : Yields False _ _).mono
      fun b hb => hb.trans ?_)
    simp only [Set.mem_image, IntDomain.mem_carrier]

/-- Narrowing a handle filters the values of the store variable by their images. -/
theorem filters (hx : x.Transforms i a b) (hs : s.int i = .ok d) (hd : d.Arises)
    (relation : Relation) (v : Int) :
    Guarded (x.Inverts relation v) (x.restrict relation v s) fun r =>
      Filters s i d x.eval (relation.Holds · v) r.1 r.2 := by
  obtain ⟨rfl, hproper, -, -⟩ := id hx
  refine (guarded_pull hproper relation v).map fun p hp => ?_
  cases p with
  | root i relation' w =>
    obtain ⟨rfl, hiff⟩ := hp
    obtain ⟨event, s', hr, hfilters⟩ :=
      Filters.of_keeps (P := (relation.Holds · v)) hx.strict hs hd hiff
    exact ⟨(event, s'), hr, hfilters⟩
  | never => exact ⟨_, rfl, Filters.of_none hd fun u _ => hp u⟩
  | always => exact ⟨_, rfl, Filters.of_all hs hd fun u _ => hp u⟩

/-- **A handle behaves as the transformed set.** It is read as a variable with the values
`a * v + b`, and a restriction keeps the values of the store variable whose images stand in the
relation, each as long as its arithmetic does not overflow. -/
theorem IsHandle.transforms_set (hx : x.IsHandle i a b) (hs : s.int i = .ok d) (hd : d.Arises) :
    x.ReadsAs s d (fun v => a * v + b) ∧
      ∀ relation v, Guarded (x.Inverts relation v) (x.restrict relation v s) fun r =>
        Filters s i d (fun v => a * v + b) (relation.Holds · v) r.1 r.2 := by
  have heval : x.eval = fun v => a * v + b := funext hx.transforms.eval
  rw [← heval]
  exact ⟨readsAs hx.transforms hs hd, filters hx.transforms hs hd⟩

/-- The handle `3 * (1 - x) - 1` of a truth value that is not known. To be at least zero leaves the
greater of its two values. -/
theorem IsHandle.transforms_set_negated :
    ∃ (x : IntVar) (s : Store) (d : IntDomain),
      x = affine (bool (affine (root 0) (-1) 1)) 3 (-1) ∧ x.IsHandle 0 (-3) 2 ∧
      s.int 0 = .ok d ∧ d.Arises ∧ d.values = [0, 1] ∧
      x.ReadsAs s d (fun v => -3 * v + 2) ∧ x.lower s = .ok (-1) ∧
      x.Inverts .atLeast 0 ∧ x.restrict .atLeast 0 s = .ok (.assigned, s.withInt 0 (.singleton 0)) ∧
      Filters s 0 d (fun v => -3 * v + 2) (0 ≤ ·) .assigned (s.withInt 0 (.singleton 0)) := by
  let d : IntDomain := ⟨[⟨0, 1⟩], by decide⟩
  let s : Store := { ints := ⟨#[d]⟩, sets := ∅, floats := ∅ }
  let x : IntVar := affine (bool (affine (root 0) (-1) 1)) 3 (-1)
  have hnegated : (bool (affine (root 0) (-1) 1)).IsHandle 0 (-1) 1 := .negated (.truth 0) rfl
  have hscaled : (affine (bool (affine (root 0) (-1) 1)) 3 0).IsHandle 0 (-3) 3 :=
    .scaled (k := 3) hnegated (by decide) rfl
  have hx : x.IsHandle 0 (-3) 2 := .plus (k := -1) hscaled rfl
  have hd : d.Arises := .ofInterval (by decide : Word.Fits 0) (by decide : Word.Fits 1) rfl
  have hs : s.int 0 = .ok d := rfl
  obtain ⟨hreads, hfilters⟩ := hx.transforms_set hs hd
  have hinverts : x.Inverts .atLeast 0 := by decide
  have hrestrict : x.restrict .atLeast 0 s = .ok (.assigned, s.withInt 0 (.singleton 0)) := rfl
  obtain ⟨r, hr, hleft⟩ := (hfilters .atLeast 0).returns hinverts
  obtain rfl := Except.ok.inj (hrestrict.symm.trans hr)
  exact ⟨x, s, d, rfl, hx, hs, hd, rfl, hreads, rfl, hinverts, hrestrict, hleft⟩

end IntVar

end ConstraintSearch
