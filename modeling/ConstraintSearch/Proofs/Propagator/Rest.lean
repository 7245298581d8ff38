import ConstraintSearch.Proofs.Propagator.Execution

/-!
# Propagators at rest

A propagator that rests computes what it has computed before: another run has no overflow, changes
nothing and answers again that it is at a fixpoint (`Propagator.run_of_rests`). Only the cardinality
of a set is different. Its bounds may still move towards those of the variable, and they do so
unless they are the same (`SetCardinality.exists_run_of_rests`). No-goods are not considered.
-/

namespace ConstraintSearch

open Propagation

variable {δ : Prop} {s : State} {terms literals : List IntVar} {vars : List (IntVar × Bool)}

/-! ### Reading without overflow -/

theorem firstOpen_of_readable {s : Store} {xs : List IntVar}
    (h : ∀ x ∈ xs, x.Readable s ∧ x.index < s.ints.size) (count : Nat) :
    firstOpen s xs count = .ok ((xs.filter (IntVar.isOpen s.box)).take count) := by
  induction xs generalizing count with
  | nil =>
    rw [List.filter_nil, List.take_nil]
    rfl
  | cons x xs ih =>
    have ih := ih fun y hy => h y (by simp [hy])
    obtain ⟨hread, hx⟩ := h x (by simp)
    cases count with
    | zero =>
      rw [List.take_zero]
      rfl
    | succ count =>
      unfold firstOpen
      rw [hread.isFixed hx, List.filter_cons]
      unfold IntVar.isOpen
      cases hfixed : x.fixedAt s.box with
      | some v => exact ih (count + 1)
      | none =>
        show (firstOpen s xs count >>= fun r => Except.ok (x :: r)) = _
        rw [ih count]
        rfl

theorem Linear.sum_of_readable {s : Store}
    (h : ∀ x ∈ terms, x.Readable s ∧ x.index < s.ints.size) (side : Side) :
    sum side s terms = .ok (IntVar.edges s.box side terms) := by
  induction terms with
  | nil => rfl
  | cons x xs ih =>
    obtain ⟨hread, hx⟩ := h x (by simp)
    unfold sum
    rw [hread.bound hx, ih fun y hy => h y (by simp [hy])]
    rfl

theorem Linear.sums_of_readable {s : Store}
    (h : ∀ x ∈ terms, x.Readable s ∧ x.index < s.ints.size) :
    sums s terms =
      .ok (IntVar.edges s.box .lower terms, IntVar.edges s.box .upper terms) := by
  induction terms with
  | nil => rfl
  | cons x xs ih =>
    obtain ⟨hread, hx⟩ := h x (by simp)
    unfold sums IntVar.lower IntVar.upper
    rw [hread.bound hx, hread.bound hx, ih fun y hy => h y (by simp [hy])]
    rfl

theorem AllDifferent.firstFixed?_of_readable {s : Store}
    (h : ∀ x ∈ vars, x.1.Readable s ∧ x.1.index < s.ints.size)
    (hunmarked : ∀ x ∈ vars, x.2 = false → x.1.fixedAt s.box = none) (position : Nat) :
    firstFixed? s vars position = .ok none := by
  induction vars generalizing position with
  | nil => rfl
  | cons z vars ih =>
    obtain ⟨x, mark⟩ := z
    have ih := ih (fun y hy => h y (by simp [hy])) (fun y hy => hunmarked y (by simp [hy]))
      (position + 1)
    cases mark with
    | true => exact ih
    | false =>
      obtain ⟨hread, hx⟩ := h (x, false) (by simp)
      unfold firstFixed?
      rw [hread.value? hx, hunmarked (x, false) (by simp) rfl]
      exact ih

/-! ### Actions that change nothing -/

namespace Propagation

variable {α β : Type} {f : α → Propagation PUnit}

theorem forM_of_unchanged {xs : List α} (h : ∀ x ∈ xs, f x s = .ok (.ok ⟨⟩, s)) :
    xs.forM f s = .ok (.ok ⟨⟩, s) := by
  induction xs with
  | nil => rfl
  | cons x xs ih =>
    show (f x >>= fun _ => xs.forM f) s = _
    rw [bind_of_ok (h x (by simp))]
    exact ih fun y hy => h y (by simp [hy])

theorem foldlM_of_unchanged {xs : List α} {b : β} {g : β → α → Propagation β}
    (h : ∀ x ∈ xs, g b x s = .ok (.ok b, s)) : xs.foldlM g b s = .ok (.ok b, s) := by
  induction xs with
  | nil => rfl
  | cons x xs ih =>
    rw [List.foldlM_cons, bind_of_ok (h x (by simp))]
    exact ih fun y hy => h y (by simp [hy])

theorem anyM_of_unchanged {xs : List α} {g : α → Propagation Bool}
    (h : ∀ x ∈ xs, g x s = .ok (.ok false, s)) : xs.anyM g s = .ok (.ok false, s) := by
  induction xs with
  | nil => rfl
  | cons x xs ih =>
    unfold List.anyM
    rw [bind_of_ok (h x (by simp))]
    exact ih fun y hy => h y (by simp [hy])

/-- Whether all members have a property that can be read. -/
theorem allM_of_read {xs : List α} {g : α → Propagation Bool} {property : α → Bool}
    (h : ∀ x ∈ xs, g x s = .ok (.ok (property x), s)) :
    xs.allM g s = .ok (.ok (xs.all property), s) := by
  induction xs with
  | nil => rfl
  | cons x xs ih =>
    have ih := ih fun y hy => h y (by simp [hy])
    unfold List.allM
    rw [bind_of_ok (h x (by simp)), List.all_cons]
    cases property x with
    | true => exact ih
    | false => rfl

end Propagation

/-! ### Runs that change nothing -/

/-- An upper bound that the variable respects is not cut. -/
theorem Propagation.setUpper_of_le (hs : s.Ready) {x : IntVar} (hx : x.index < s.store.ints.size)
    {v : Int} (hpull : x.CanPull .atMost v) (hle : x.edge s.store.box .upper ≤ v) :
    setUpper x v s = .ok (.ok .none, s) :=
  restrict_of_restricted hs hx hpull
    ((IntVar.restricted_atMost (hs.sound.box.canonical _)).2 hle)

theorem Propagation.setLower_of_le (hs : s.Ready) {x : IntVar} (hx : x.index < s.store.ints.size)
    {v : Int} (hpull : x.CanPull .atLeast v) (hle : v ≤ x.edge s.store.box .lower) :
    setLower x v s = .ok (.ok .none, s) :=
  restrict_of_restricted hs hx hpull
    ((IntVar.restricted_atLeast (hs.sound.box.canonical _)).2 hle)

theorem Propagation.lift_of_ok {α : Type} {r : Except Fault α} {a : α} (h : r = .ok a) :
    (liftM r : Propagation α) s = .ok (.ok a, s) := by
  subst h
  rfl

theorem NotEquals.run_of_rests {a b : IntVar} {offset : Int}
    (ha : a.index < s.store.ints.size) (hb : b.index < s.store.ints.size)
    (h : (Propagator.notEquals a b offset).Rests s.store) :
    run a b offset s = .ok (.ok .fix, s) := by
  obtain ⟨hreada, hreadb, hfa, hfb⟩ := h
  have hva : a.value? s.store = .ok none := by rw [hreada.value? ha, hfa]
  have hvb : b.value? s.store = .ok none := by rw [hreadb.value? hb, hfb]
  unfold run
  rw [bind_of_ok (reading_of_ok hva)]
  show (reading b.value? >>= _) s = _
  rw [bind_of_ok (reading_of_ok hvb)]
  rfl

theorem LessOrEqual.run_of_rests (hs : s.Ready) {a b : IntVar} {offset : Int}
    (ha : a.index < s.store.ints.size) (hb : b.index < s.store.ints.size)
    (h : (Propagator.lessOrEqual a b offset).Rests s.store) :
    run a b offset s = .ok (.ok .fix, s) := by
  obtain ⟨hreada, hreadb, ⟨hfitsu, hpullu, hu⟩, ⟨hfitsl, hpulll, hl⟩, hfits, hopen⟩ := h
  have hupper : Word.sub (b.edge s.store.box .upper) offset =
      .ok (b.edge s.store.box .upper - offset) := Word.checked_of_fits hfitsu
  have hlower : Word.add (a.edge s.store.box .lower) offset =
      .ok (a.edge s.store.box .lower + offset) := Word.checked_of_fits hfitsl
  have hgreatest : Word.add (a.edge s.store.box .upper) offset =
      .ok (a.edge s.store.box .upper + offset) := Word.checked_of_fits hfits
  unfold run
  rw [bind_of_ok (reading_of_ok (hreadb.bound hb .upper)), bind_of_ok (lift_of_ok hupper),
    bind_of_ok (setUpper_of_le hs ha hpullu hu),
    bind_of_ok (reading_of_ok (hreada.bound ha .lower)), bind_of_ok (lift_of_ok hlower),
    bind_of_ok (setLower_of_le hs hb hpulll hl),
    bind_of_ok (reading_of_ok (hreada.bound ha .upper)), bind_of_ok (lift_of_ok hgreatest),
    bind_of_ok (reading_of_ok (hreadb.bound hb .lower)), if_neg (not_le.2 hopen)]
  rfl

theorem Linear.runAtMost_of_rests (hs : s.Ready) {bound : Int}
    (hterms : ∀ x ∈ terms, x.index < s.store.ints.size)
    (h : (Propagator.linearAtMost terms bound).Rests s.store) :
    runAtMost terms bound s = .ok (.ok .fix, s) := by
  obtain ⟨hread, hslack, hcut, hopen⟩ := h
  have hreads : ∀ x ∈ terms, x.Readable s.store ∧ x.index < s.store.ints.size :=
    fun x hx => ⟨hread x hx, hterms x hx⟩
  have hcuts : ∀ x ∈ terms, cutUpper (bound - IntVar.edges s.store.box .lower terms) x s =
      .ok (.ok ⟨⟩, s) := by
    intro x hx
    unfold cutUpper
    rw [bind_of_ok (reading_of_ok ((hread x hx).bound (hterms x hx) .lower))]
    show (setUpper x _ >>= fun _ => (pure () : Propagation Unit)) s = _
    rw [bind_of_ok (setUpper_of_le hs (hterms x hx) (hcut x hx).1 (hcut x hx).2)]
    rfl
  unfold runAtMost
  rw [bind_of_ok (reading_of_ok (sum_of_readable hreads .lower)), if_neg (by omega)]
  show (terms.forM (cutUpper _) >>= _) s = _
  rw [bind_of_ok (forM_of_unchanged hcuts),
    bind_of_ok (reading_of_ok (sum_of_readable hreads .upper)), if_neg (not_le.2 hopen)]
  rfl

theorem Linear.tighten_of_rests (hs : s.Ready) {total : Int}
    (hterms : ∀ x ∈ terms, x.index < s.store.ints.size)
    (h : (Propagator.linearEqual terms total).Rests s.store) :
    tighten terms total s = .ok (.ok false, s) := by
  obtain ⟨hread, hconflict, hcut, -⟩ := h
  have hreads : ∀ x ∈ terms, x.Readable s.store ∧ x.index < s.store.ints.size :=
    fun x hx => ⟨hread x hx, hterms x hx⟩
  unfold tighten
  rw [bind_of_ok (reading_of_ok (sums_of_readable hreads))]
  dsimp only
  rw [if_neg (by omega)]
  refine foldlM_of_unchanged fun x hx => ?_
  obtain ⟨⟨hpullu, hu⟩, hpulll, hl⟩ := hcut x hx
  have hbound (side : Side) : (reading (x.bound · side) : Propagation Int) s =
      .ok (.ok (x.edge s.store.box side), s) :=
    reading_of_ok ((hread x hx).bound (hterms x hx) side)
  have hterm : tightenTerm total (IntVar.edges s.store.box .lower terms)
      (IntVar.edges s.store.box .upper terms) x s = .ok (.ok false, s) := by
    unfold tightenTerm IntVar.lower IntVar.upper
    rw [bind_of_ok (hbound .lower), bind_of_ok (hbound .upper),
      bind_of_ok (setUpper_of_le hs (hterms x hx) hpullu hu),
      bind_of_ok (setLower_of_le hs (hterms x hx) hpulll hl)]
    rfl
  rw [bind_of_ok hterm]
  rfl

theorem Linear.runEqual_of_rests (hs : s.Ready) {total : Int}
    (hterms : ∀ x ∈ terms, x.index < s.store.ints.size)
    (h : (Propagator.linearEqual terms total).Rests s.store) :
    runEqual terms total s = .ok (.ok .fix, s) := by
  have htighten := tighten_of_rests hs hterms h
  obtain ⟨hread, -, -, x, hx, hopen⟩ := h
  have hfixed : ∀ x ∈ terms, (reading x.isFixed : Propagation Bool) s =
      .ok (.ok (x.fixedAt s.store.box).isSome, s) :=
    fun x hx => reading_of_ok ((hread x hx).isFixed (hterms x hx))
  have hnot : ¬(terms.all fun x => (x.fixedAt s.store.box).isSome) = true := by
    intro hall
    have hsome := List.all_eq_true.1 hall x hx
    unfold IntVar.isOpen at hopen
    rw [Option.isNone_iff_eq_none] at hopen
    rw [hopen] at hsome
    cases hsome
  unfold runEqual
  show (tightenAll terms total (values s.store terms + 1) >>= _) s = _
  have hall : tightenAll terms total (values s.store terms + 1) s = .ok (.ok (), s) := by
    unfold tightenAll
    rw [bind_of_ok htighten]
    rfl
  rw [bind_of_ok hall, bind_of_ok (allM_of_read hfixed), if_neg hnot]
  rfl

/-- The number of the first open variables that are looked for. -/
theorem length_take_open (xs : List IntVar) (s : Store) (count : Nat) :
    ((xs.filter (IntVar.isOpen s.box)).take count).length =
      min count (xs.countP (IntVar.isOpen s.box)) := by
  rw [List.length_take, List.countP_eq_length_filter]

theorem Clause.run_of_rests (hliterals : ∀ x ∈ literals, x.index < s.store.ints.size)
    (h : (Propagator.clause literals).Rests s.store) :
    run literals s = .ok (.ok .fix, s) := by
  obtain ⟨hread, hfalse, hopen⟩ := h
  have hvalues : ∀ x ∈ literals, (do return (← reading x.value?) = some 1 : Propagation Bool) s =
      .ok (.ok false, s) := by
    intro x hx
    rw [bind_of_ok (reading_of_ok ((hread x hx).value? (hliterals x hx)))]
    show Except.ok (Except.ok (decide _), s) = _
    rw [decide_eq_false (hfalse x hx)]
  have hfirst := firstOpen_of_readable (fun x hx => ⟨hread x hx, hliterals x hx⟩) 2
  have hlength := length_take_open literals s.store 2
  unfold run
  rw [bind_of_ok (anyM_of_unchanged hvalues)]
  show (reading (firstOpen · literals 2) >>= _) s = _
  rw [bind_of_ok (reading_of_ok hfirst)]
  generalize (literals.filter (IntVar.isOpen s.store.box)).take 2 = found at hlength
  match found, hlength with
  | [], hlength =>
    rw [List.length_nil] at hlength
    omega
  | [x], hlength =>
    simp only [List.length_nil, List.length_cons] at hlength
    omega
  | x :: y :: rest, _ => rfl

theorem AllDifferent.run_of_rests (hvars : ∀ x ∈ vars, x.1.index < s.store.ints.size)
    (h : (Propagator.allDifferent vars).Rests s.store) :
    run vars s = .ok (.ok (.allDifferent vars, .fix), s) := by
  obtain ⟨hread, hunmarked, hopen⟩ := h
  have hreads : ∀ x ∈ vars, x.1.Readable s.store ∧ x.1.index < s.store.ints.size :=
    fun x hx => ⟨hread x hx, hvars x hx⟩
  have hprocess : process (vars.length + 1) vars s = .ok (.ok vars, s) := by
    unfold process
    rw [bind_of_ok (reading_of_ok (firstFixed?_of_readable hreads hunmarked 0))]
    rfl
  have hxs : ∀ x ∈ vars.map (·.1), x.Readable s.store ∧ x.index < s.store.ints.size := by
    intro x hx
    obtain ⟨y, hy, rfl⟩ := List.mem_map.1 hx
    exact hreads y hy
  have hlength := length_take_open (vars.map (·.1)) s.store 3
  unfold run
  rw [bind_of_ok hprocess, bind_of_ok (reading_of_ok (firstOpen_of_readable hxs 3))]
  generalize ((vars.map (·.1)).filter (IntVar.isOpen s.store.box)).take 3 = found at hlength
  rcases found with _ | ⟨a, _ | ⟨b, _ | ⟨c, rest⟩⟩⟩
  · rw [List.length_nil] at hlength
    omega
  · rfl
  · simp only [List.length_nil, List.length_cons] at hlength
    omega
  · rfl

/-- A run of a propagator that rests changes nothing. -/
theorem Propagator.run_of_rests {p : Propagator} (hs : s.Ready) (hw : p.WellFormed δ s.store)
    (h : p.Rests s.store) (hset : ∀ set x, p ≠ setCardinality set x)
    (hlevels : ∀ levels start, p ≠ noGoods levels start) :
    p.run s = .ok (.ok (p, .fix), s) := by
  have kept {run : Propagation (Verdict Propagator)} (hrun : run s = .ok (.ok .fix, s)) :
      (do return (p, ← run) : Propagation (Propagator × Verdict Propagator)) s =
        .ok (.ok (p, .fix), s) := by
    rw [bind_of_ok hrun]
    rfl
  cases p with
  | notEquals a b offset =>
    exact kept (NotEquals.run_of_rests hw.1.exists_var hw.2.exists_var h)
  | lessOrEqual a b offset =>
    exact kept (LessOrEqual.run_of_rests hs hw.1.exists_var hw.2.exists_var h)
  | linearAtMost terms bound =>
    exact kept (Linear.runAtMost_of_rests hs (fun x hx => (hw x hx).exists_var) h)
  | linearEqual terms total =>
    exact kept (Linear.runEqual_of_rests hs (fun x hx => (hw x hx).exists_var) h)
  | allDifferent vars => exact AllDifferent.run_of_rests (fun x hx => (hw.1 x hx).exists_var) h
  | clause literals => exact kept (Clause.run_of_rests (fun x hx => (hw x hx).exists_var) h)
  | setCardinality set x => exact absurd rfl (hset set x)
  | noGoods levels start => exact absurd rfl (hlevels levels start)
  | floatAtMost a b => exact hw.elim
  | scripted script executions => exact hw.elim

/-! ### The cardinality of a set -/

/-- Cardinality bounds that the two lists allow are taken over as they are. -/
theorem SetDomain.normalised_of_between {d : SetDomain} (hlow : d.required.length ≤ d.cardMin)
    (hle : d.cardMin ≤ d.cardMax) (hhigh : d.cardMax ≤ d.possible.length) :
    ∃ e, d.normalised = some e ∧ e.cardMin = d.cardMin ∧ e.cardMax = d.cardMax := by
  have hmin : max d.cardMin d.required.length = d.cardMin := Nat.max_eq_left hlow
  have hmax : min d.cardMax d.possible.length = d.cardMax := Nat.min_eq_left hhigh
  unfold SetDomain.normalised
  simp only [hmin, hmax, if_neg (not_lt.2 hle)]
  by_cases hrequired : d.required.length = d.cardMax
  · rw [if_pos hrequired]
    exact ⟨_, rfl, rfl, rfl⟩
  by_cases hpossible : d.possible.length = d.cardMin
  · rw [if_neg hrequired, if_pos hpossible]
    exact ⟨_, rfl, rfl, rfl⟩
  · rw [if_neg hrequired, if_neg hpossible]
    exact ⟨_, rfl, rfl, rfl⟩

/-- So are those that lie within the bounds of the domain. -/
theorem SetDomain.Normal.withCardinality_of_between {d : SetDomain} (h : d.Normal)
    {least greatest : Nat} (hmin : d.cardMin ≤ least) (hle : least ≤ greatest)
    (hmax : greatest ≤ d.cardMax) (hne : ¬(least = d.cardMin ∧ greatest = d.cardMax)) :
    ∃ e, d.withCardinality least greatest = .changed e ∧ e.cardMin = least ∧
      e.cardMax = greatest := by
  have hrequired := h.required_le
  have hpossible := h.le_possible
  obtain ⟨e, he, hemin, hemax⟩ := SetDomain.normalised_of_between
    (d := ⟨d.required, d.possible, least, greatest⟩) (by dsimp only; omega) hle
    (by dsimp only; omega)
  refine ⟨e, ?_, hemin, hemax⟩
  unfold SetDomain.withCardinality
  simp only [Nat.max_eq_right hmin, Nat.min_eq_right hmax]
  rw [if_neg]
  · unfold SetDomain.changed
    rw [he]
  · intro heq
    exact hne ⟨congrArg SetDomain.cardMin heq, congrArg SetDomain.cardMax heq⟩

/-- Nothing changes if the bounds are those of the domain. -/
theorem SetDomain.withCardinality_self (d : SetDomain) :
    d.withCardinality d.cardMin d.cardMax = .unchanged := by
  unfold SetDomain.withCardinality
  rw [Nat.max_self, Nat.min_self]
  exact if_pos rfl

theorem SetDomain.isFailed_eventTowards (d e : SetDomain) :
    (d.eventTowards e).isFailed = false := by
  unfold SetDomain.eventTowards
  repeat' split
  all_goals rfl

theorem Store.narrowSet_of_unchanged {s : Store} {set : Nat} (hset : set < s.sets.size)
    {narrowing : SetDomain → Narrowing SetDomain} (h : narrowing (s.box.sets set) = .unchanged) :
    s.narrowSet set narrowing = .ok (.none, s) := by
  unfold narrowSet
  rw [set_of_lt hset]
  dsimp only [bind, Except.bind]
  rw [h]
  rfl

theorem Store.narrowSet_of_changed {s : Store} {set : Nat} (hset : set < s.sets.size)
    {narrowing : SetDomain → Narrowing SetDomain} {d : SetDomain}
    (h : narrowing (s.box.sets set) = .changed d) : s.narrowSet set narrowing =
      .ok ((s.box.sets set).eventTowards d, { s with sets := s.sets.set set d }) := by
  unfold narrowSet
  rw [set_of_lt hset]
  dsimp only [bind, Except.bind]
  rw [h]
  rfl

theorem State.narrow_of_ok {x : VarRef} {operation : Store → Except Fault (Event × Store)}
    {event : Event} {store : Store} (hs : s.Ready)
    (h : operation s.store = .ok (event, store)) :
    s.narrow x operation = .ok (event, { s with store }.notify x event) := by
  unfold narrow
  rw [if_neg (by simp [hs.alive]), h]
  rfl

theorem Propagation.narrowing_of_ok {f : State → Except Fault (Event × State)} {event : Event}
    {s' : State} (h : f s = .ok (event, s')) (hfailed : event.isFailed = false) :
    narrowing f s = .ok (.ok event, s') := by
  unfold narrowing
  rw [h]
  show Except.ok (if event.isFailed then _ else _, s') = _
  rw [hfailed]
  rfl

namespace SetCardinality

variable {set : Nat} {x : IntVar}

/-- The bounds of the variable are those of the cardinality of the set. -/
def Agree (set : Nat) (x : IntVar) (s : Store) : Prop :=
  x.edge s.box .lower = (s.box.sets set).cardMin ∧ x.edge s.box .upper = (s.box.sets set).cardMax

/-- Where the bounds agree, an exchange changes nothing. -/
theorem exchange_of_agree (hs : s.Ready) (hset : set < s.store.sets.size)
    (hx : x.index < s.store.ints.size) (hproper : x.Proper) (hread : x.Readable s.store)
    (h : Agree set x s.store) : exchange set x s = .ok (.ok false, s) := by
  obtain ⟨hlower, hupper⟩ := h
  have hcard : Propagation.setCardinality set (s.store.box.sets set).cardMin
      (s.store.box.sets set).cardMax s = .ok (.ok .none, s) :=
    narrowing_of_ok
      (State.narrow_of_ok hs (Store.narrowSet_of_unchanged hset (SetDomain.withCardinality_self _)))
      rfl
  -- a bound that a variable has can be set again
  have hpulll : x.CanPull .atLeast (x.edge s.store.box .lower) :=
    IntVar.canPull_eval hproper (hread .lower) .atLeast
  have hpullu : x.CanPull .atMost (x.edge s.store.box .upper) :=
    IntVar.canPull_eval hproper (hread .upper) .atMost
  rw [hlower] at hpulll
  rw [hupper] at hpullu
  unfold exchange
  show ((reading (x.bound · .lower) : Propagation Int) >>= _) s = _
  rw [bind_of_ok (reading_of_ok (hread.bound hx .lower))]
  show ((reading (x.bound · .upper) : Propagation Int) >>= _) s = _
  rw [bind_of_ok (reading_of_ok (hread.bound hx .upper)), hlower, hupper, Int.toNat_natCast,
    Int.toNat_natCast, bind_of_ok hcard, bind_of_ok (reading_of_ok (Store.set_of_lt hset)),
    bind_of_ok (setLower_of_le hs hx hpulll hlower.ge),
    bind_of_ok (setUpper_of_le hs hx hpullu hupper.le)]
  rfl

/-- Where they do not agree, the set takes over the bounds of the variable. -/
theorem exchange_of_not_agree (hs : s.Ready) (hset : set < s.store.sets.size)
    (hx : x.index < s.store.ints.size) (h : Bounded set x s.store)
    (hne : ¬Agree set x s.store) :
    ∃ s', exchange set x s = .ok (.ok true, s') ∧ s.Advances s' ∧ s'.store ≠ s.store ∧
      Agree set x s'.store := by
  have hlu := IntVar.edge_lower_le_upper (x := x) (hs.sound.box.canonical x.index)
  have hlower := h.lower
  have hupper := h.upper
  obtain ⟨least, hleast⟩ := Int.eq_ofNat_of_zero_le (a := x.edge s.store.box .lower) (by omega)
  obtain ⟨greatest, hgreatest⟩ :=
    Int.eq_ofNat_of_zero_le (a := x.edge s.store.box .upper) (by omega)
  have hnormal := hs.sound.box.normal set
  have hmoved : ¬(least = (s.store.box.sets set).cardMin ∧
      greatest = (s.store.box.sets set).cardMax) := by
    rintro ⟨rfl, rfl⟩
    exact hne ⟨hleast, hgreatest⟩
  obtain ⟨d, hd, hmin, hmax⟩ :=
    hnormal.withCardinality_of_between (by omega) (by omega) (by omega) hmoved
  have hnarrowed := hnormal.withCardinality least greatest
  rw [hd] at hnarrowed
  obtain ⟨hd', hle, hcondition, hsize, hbest⟩ := hnarrowed
  have hlaw := Store.narrowedTo_set hs.sound hset hd' hle hcondition hsize hbest
  have hfailed := SetDomain.isFailed_eventTowards (s.store.box.sets set) d
  have hmodified := SetDomain.isModified_eventTowards hsize
  have hnarrow : s.narrowSet set (·.withCardinality least greatest) = .ok (_, _) :=
    State.narrow_of_ok hs (Store.narrowSet_of_changed hset hd)
  have hself := Store.box_set_set hset d set
  rw [if_pos rfl] at hself
  obtain ⟨hadvances, hstore, -⟩ := State.advances_notify hlaw hfailed
  generalize State.notify _ _ _ = s' at hadvances hstore hnarrow
  rw [← hstore] at hlaw hself
  have hs' := hadvances.ready hs
  have hx' : x.index < s'.store.ints.size := hlaw.narrows.size_ints ▸ hx
  have hset' : set < s'.store.sets.size := hlaw.narrows.size_sets ▸ hset
  have hread' := h.readable.of_evolves hs.sound hs'.sound hlaw.narrows.evolves hx
  have hints := hlaw.other_ints x.index fun h => by cases h
  have hedge (side : Side) : x.edge s'.store.box side = x.edge s.store.box side := by
    unfold IntVar.edge
    rw [hints]
  have hpulll : x.CanPull .atLeast (x.edge s'.store.box .lower) :=
    IntVar.canPull_eval h.proper (hread' .lower) .atLeast
  have hpullu : x.CanPull .atMost (x.edge s'.store.box .upper) :=
    IntVar.canPull_eval h.proper (hread' .upper) .atMost
  have hagree : Agree set x s'.store := by
    refine ⟨?_, ?_⟩
    · rw [hedge, hself, hmin, hleast]
    · rw [hedge, hself, hmax, hgreatest]
  refine ⟨s', ?_, hadvances, fun heq => ?_, hagree⟩
  · obtain ⟨hlower', hupper'⟩ := hagree
    rw [hlower'] at hpulll
    rw [hupper'] at hpullu
    unfold exchange
    show ((reading (x.bound · .lower) : Propagation Int) >>= _) s = _
    rw [bind_of_ok (reading_of_ok (h.readable.bound hx .lower))]
    show ((reading (x.bound · .upper) : Propagation Int) >>= _) s = _
    rw [bind_of_ok (reading_of_ok (h.readable.bound hx .upper)), hleast, hgreatest]
    have hcard : Propagation.setCardinality set least greatest s = .ok (.ok _, s') :=
      narrowing_of_ok hnarrow hfailed
    show (Propagation.setCardinality set least greatest >>= _) s = _
    rw [bind_of_ok hcard, bind_of_ok (reading_of_ok (Store.set_of_lt hset')),
      bind_of_ok (setLower_of_le hs' hx' hpulll hlower'.ge),
      bind_of_ok (setUpper_of_le hs' hx' hpullu hupper'.le), hmodified]
    rfl
  · have := hlaw.smaller_set hmodified set rfl
    rw [heq] at this
    exact lt_irrefl _ this

/-- The exchanges end at once, or after the second one. -/
theorem exists_exchangeAll_of_bounded (hs : s.Ready) (hset : set < s.store.sets.size)
    (hx : x.index < s.store.ints.size) (h : Bounded set x s.store) :
    ∃ s', exchangeAll set x ((s.store.box.sets set).freedom + 1) s = .ok (.ok (), s') ∧
      set < s'.store.sets.size ∧ (s'.store = s.store ↔ Agree set x s.store) := by
  by_cases hagree : Agree set x s.store
  · refine ⟨s, ?_, hset, iff_of_true rfl hagree⟩
    unfold exchangeAll
    rw [bind_of_ok (exchange_of_agree hs hset hx h.proper h.readable hagree)]
    rfl
  · obtain ⟨s', hexchange, hadvances, hne, hagree'⟩ := exchange_of_not_agree hs hset hx h hagree
    have hs' := hadvances.ready hs
    have hset' : set < s'.store.sets.size := hadvances.store.size_sets ▸ hset
    have hx' : x.index < s'.store.ints.size := hadvances.store.size_ints ▸ hx
    have hread' := h.readable.of_evolves hs.sound hs'.sound hadvances.store.evolves hx
    refine ⟨s', ?_, hset', iff_of_false hne hagree⟩
    -- the bounds of the set were apart, so that there is a pass left
    have hlu := IntVar.edge_lower_le_upper (x := x) (hs.sound.box.canonical x.index)
    have hlower := h.lower
    have hupper := h.upper
    have hfreedom : (s.store.box.sets set).freedom ≠ 0 := by
      intro hzero
      unfold SetDomain.freedom at hzero
      have hcard := (hs.sound.box.normal set).card_le
      exact hagree ⟨by omega, by omega⟩
    obtain ⟨passes, hpasses⟩ := Nat.exists_eq_succ_of_ne_zero hfreedom
    rw [hpasses]
    unfold exchangeAll
    rw [bind_of_ok hexchange, if_pos rfl]
    unfold exchangeAll
    rw [bind_of_ok (exchange_of_agree hs' hset' hx' h.proper hread' hagree')]
    rfl

/-- A run from bounds that the set has taken over is consistent, and changes nothing if and only if
the bounds agree. -/
theorem exists_run_of_bounded (hs : s.Ready) (hset : set < s.store.sets.size)
    (hx : x.index < s.store.ints.size) (h : Bounded set x s.store) :
    ∃ verdict s', run set x s = .ok (.ok verdict, s') ∧
      (s'.store = s.store ↔ Agree set x s.store) := by
  have hget := Table.fetch_eq_ok.1 (Store.set_of_lt hset)
  obtain ⟨s', hexchange, hset', hiff⟩ := exists_exchangeAll_of_bounded hs hset hx h
  refine ⟨if (s'.store.box.sets set).isAssigned then .subsumed else .fix, s', ?_, hiff⟩
  rw [run_eq hget, bind_of_ok hexchange, bind_of_ok (reading_of_ok (Store.set_of_lt hset'))]
  rfl

end SetCardinality

/-! ### Runs of a propagator that rests -/

/-- The bounds that a propagator exchanges are the same; this concerns only the cardinality of a
set. -/
def Propagator.Balanced (s : Store) : Propagator → Prop
  | setCardinality set x => SetCardinality.Agree set x s
  | _ => True

/-- The propagator of a constraint that rests runs without a fault and without an inconsistency, and
changes nothing if and only if it is balanced. -/
theorem Propagator.exists_run_of_rests {p : Propagator} (hs : s.Ready)
    (hw : p.WellFormed δ s.store) (h : p.Rests s.store)
    (hlevels : ∀ levels start, p ≠ noGoods levels start) :
    ∃ r s', p.run s = .ok (.ok r, s') ∧ (s'.store = s.store ↔ p.Balanced s.store) := by
  cases p with
  | setCardinality set x =>
    obtain ⟨hset, hx⟩ := hw
    obtain ⟨hread, hproper, -, hlower, hupper⟩ := h
    obtain ⟨verdict, s', hrun, hiff⟩ :=
      SetCardinality.exists_run_of_bounded hs hset hx.exists_var ⟨hread, hproper, hlower, hupper⟩
    refine ⟨(setCardinality set x, verdict), s', ?_, hiff⟩
    show (do return (setCardinality set x, ← SetCardinality.run set x) :
      Propagation (Propagator × Verdict Propagator)) s = _
    rw [bind_of_ok hrun]
    rfl
  | noGoods levels start => exact absurd rfl (hlevels levels start)
  | _ =>
    exact ⟨_, s, run_of_rests hs hw h (fun _ _ => nofun) fun _ _ => nofun, iff_of_true rfl trivial⟩

end ConstraintSearch
