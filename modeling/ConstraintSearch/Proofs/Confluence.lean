import ConstraintSearch.Proofs.Build

/-!
# The order of propagation does not matter

The store in which propagation ends is the greatest one that is stable for the constraints. No
propagator loses a stable box, and where all of them rest the store is stable itself; so the ends of
two propagations lie within each other.

* `Store.eq_of_within`: two stores that lie within each other are the same;
* `Space.status_congr`: the statuses of two spaces with one store and the same constraints;
* `Built.status_confluent`: the statuses of two constructions under different policies.
-/

namespace ConstraintSearch

variable {posted : List Propagator} {s₁ s₂ t₁ t₂ : Space} {status₁ status₂ : SpaceStatus}

namespace Table

theorem ext_of_get? {α : Type} {t t' : Table α} (h : ∀ i, t.get? i = t'.get? i) : t = t' := by
  obtain ⟨rows⟩ := t
  obtain ⟨rows'⟩ := t'
  exact congrArg Table.mk (Array.ext_getElem? h)

end Table

/-- Two stores that lie within each other are the same. -/
theorem Store.eq_of_within {s s' : Store} (hs : s.Sound) (hs' : s'.Sound)
    (hints : s.ints.size = s'.ints.size) (hsets : s.sets.size = s'.sets.size)
    (hfloats : s.floats = s'.floats) (h : s.box.Within s') (h' : s'.box.Within s) : s = s' := by
  have row {α : Type} [Inhabited α] {t t' : Table α} (hsize : t.size = t'.size)
      (heq : ∀ i < t.size, (t.get? i).getD default = (t'.get? i).getD default) : t = t' := by
    refine Table.ext_of_get? fun i => ?_
    by_cases hi : i < t.size
    · have hget : t.get? i = some t.rows[i] := Array.getElem?_eq_getElem hi
      have hi' : i < t'.rows.size := lt_of_lt_of_eq hi hsize
      have hget' : t'.get? i = some t'.rows[i] := Array.getElem?_eq_getElem hi'
      have := heq i hi
      rw [hget, hget'] at this ⊢
      exact congrArg some this
    · have hi' : ¬i < t'.size := hsize ▸ hi
      have hget : t.get? i = none := Array.getElem?_eq_none (not_lt.1 hi)
      have hget' : t'.get? i = none := Array.getElem?_eq_none (not_lt.1 hi')
      rw [hget, hget']
  have hints' : s.ints = s'.ints := row hints fun i hi =>
    IntDomain.le_antisymm (hs.box.canonical i) (hs'.box.canonical i) (h.ints i (hints ▸ hi))
      (h'.ints i hi)
  have hsets' : s.sets = s'.sets := row hsets fun i hi =>
    SetDomain.le_antisymm (hs.box.normal i) (hs'.box.normal i) (h.sets i (hsets ▸ hi))
      (h'.sets i hi)
  cases s
  cases s'
  simp only [Store.mk.injEq] at *
  exact ⟨hints', hsets', hfloats⟩

namespace Space

/-- The domains at the end of propagation are stable for what was posted. -/
theorem Tracks.consistent_of_idle {δ : Prop} {s : Space} (h : s.Tracks δ posted none)
    (hidle : ∀ n, s.state.queue.isScheduled n = false) (horiented : ∀ q ∈ posted, q.Oriented)
    (hset : ∀ q ∈ posted, ∀ set x, q ≠ .setCardinality set x) : Consistent posted s.store.box := by
  intro q hq
  obtain ⟨n, hn⟩ := List.getElem?_of_mem hq
  exact h.stable_of_idle (hidle n) hn (horiented q hq) fun set x heq => (hset q hq set x heq).elim

/-- Propagation from one store for the same constraints ends in one store, or fails. -/
theorem status_congr {δ : Prop} (h₁ : s₁.Tracks δ posted none) (h₂ : s₂.Tracks δ posted none)
    (hstore : s₁.store = s₂.store) (horiented : ∀ q ∈ posted, q.Oriented)
    (hset : ∀ q ∈ posted, ∀ set x, q ≠ .setCardinality set x)
    (hr₁ : s₁.status.Returns (status₁, t₁)) (hr₂ : s₂.status.Returns (status₂, t₂)) :
    (status₁ = .failed ↔ status₂ = .failed) ∧ (status₁ ≠ .failed → t₁.store = t₂.store) := by
  have hlaw₁ := h₁.of_status hr₁
  have hlaw₂ := h₂.of_status hr₂
  by_cases hf₁ : status₁ = .failed
  · rw [if_pos hf₁, hstore] at hlaw₁
    refine ⟨⟨fun _ => ?_, fun _ => hf₁⟩, fun hne => (hne hf₁).elim⟩
    -- The end of the second propagation would be a stable box.
    by_contra hf₂
    rw [if_neg hf₂] at hlaw₂
    obtain ⟨htracks, hnarrows, -, hidle⟩ := hlaw₂
    exact hlaw₁ _ htracks.ready.sound.box (htracks.consistent_of_idle hidle horiented hset)
      (hnarrows.within_of_within t₂.store.box_within)
  · rw [if_neg hf₁, hstore] at hlaw₁
    obtain ⟨htracks₁, hnarrows₁, hkept₁, hidle₁⟩ := hlaw₁
    have hstable₁ := htracks₁.consistent_of_idle hidle₁ horiented hset
    have hwithin₁ := hnarrows₁.within_of_within t₁.store.box_within
    by_cases hf₂ : status₂ = .failed
    · rw [if_pos hf₂] at hlaw₂
      exact (hlaw₂ _ htracks₁.ready.sound.box hstable₁ hwithin₁).elim
    rw [if_neg hf₂] at hlaw₂
    obtain ⟨htracks₂, hnarrows₂, hkept₂, hidle₂⟩ := hlaw₂
    have hstable₂ := htracks₂.consistent_of_idle hidle₂ horiented hset
    have hwithin₂ := hnarrows₂.within_of_within t₂.store.box_within
    refine ⟨⟨fun hf => (hf₁ hf).elim, fun hf => (hf₂ hf).elim⟩, fun _ => ?_⟩
    exact Store.eq_of_within htracks₁.ready.sound htracks₂.ready.sound
      (hnarrows₁.size_ints.trans hnarrows₂.size_ints.symm)
      (hnarrows₁.size_sets.trans hnarrows₂.size_sets.symm)
      (hnarrows₁.floats.trans hnarrows₂.floats.symm)
      (hkept₂ _ htracks₁.ready.sound.box hstable₁ hwithin₁)
      (hkept₁ _ htracks₂.ready.sound.box hstable₂ hwithin₂)

end Space

variable {policy₁ policy₂ : Policy} {statements : List Statement} {t : Statement}

/-- Statements that do not propagate do the same in spaces with the same store. -/
theorem Statement.Runs.store_congr {s₁' s₂' : Space} (h₁ : t.Runs s₁ s₁') (h₂ : t.Runs s₂ s₂')
    (halive₁ : s₁.state.failed = false) (halive₂ : s₂.state.failed = false)
    (hstore : s₁.store = s₂.store)
    (hstatus : ∀ status₁ status₂, s₁'.isFailed = false → s₁.status.Returns (status₁, s₁') →
      s₂.status.Returns (status₂, s₂') → s₁'.store = s₂'.store) : s₁'.store = s₂'.store := by
  cases t with
  | newInt lower upper =>
    obtain ⟨-, -, x₁, h₁⟩ := h₁
    obtain ⟨-, -, x₂, h₂⟩ := h₂
    obtain ⟨d, hd, rfl⟩ := Space.eq_of_newInt h₁
    obtain ⟨d', hd', rfl⟩ := Space.eq_of_newInt h₂
    cases hd.symm.trans hd'
    exact congrArg (fun s : Store => { s with ints := s.ints.push d }) hstore
  | newIntOfValues values =>
    obtain ⟨-, x₁, h₁⟩ := h₁
    obtain ⟨-, x₂, h₂⟩ := h₂
    obtain ⟨d, hd, rfl⟩ := Space.eq_of_newIntOfValues h₁
    obtain ⟨d', hd', rfl⟩ := Space.eq_of_newIntOfValues h₂
    cases hd.symm.trans hd'
    exact congrArg (fun s : Store => { s with ints := s.ints.push d }) hstore
  | newBool =>
    cases h₁
    cases h₂
    exact congrArg (fun s : Store => { s with ints := s.ints.push ⟨[⟨0, 1⟩], by simp⟩ }) hstore
  | newSet required possible cardMin cardMax =>
    obtain ⟨x₁, h₁⟩ := h₁
    obtain ⟨x₂, h₂⟩ := h₂
    obtain ⟨d, hd, rfl⟩ := Space.eq_of_newSet h₁
    obtain ⟨d', hd', rfl⟩ := Space.eq_of_newSet h₂
    cases hd.symm.trans hd'
    exact congrArg (fun s : Store => { s with sets := s.sets.push d }) hstore
  | restrict x relation v =>
    obtain ⟨-, -, event₁, h₁⟩ := h₁
    obtain ⟨-, -, event₂, h₂⟩ := h₂
    have h₁ := Space.store_of_restrict halive₁ h₁
    rw [hstore, Space.store_of_restrict halive₂ h₂] at h₁
    exact (Prod.mk.inj (Except.ok.inj h₁)).2.symm
  | includeElement set v | excludeElement set v | boundCardinality set least greatest =>
    obtain ⟨-, -, event₁, h₁⟩ := h₁
    obtain ⟨-, -, event₂, h₂⟩ := h₂
    have h₁ := Space.store_of_narrowSet halive₁ h₁
    rw [hstore, Space.store_of_narrowSet halive₂ h₂] at h₁
    exact (Prod.mk.inj (Except.ok.inj h₁)).2.symm
  | post c =>
    obtain ⟨hc₁, n₁, h₁⟩ := h₁
    obtain ⟨hc₂, n₂, h₂⟩ := h₂
    obtain ⟨q₁, -, -, rfl⟩ := Space.eq_of_post (δ := True) halive₁ hc₁ (fun _ _ => .inr trivial) h₁
    obtain ⟨q₂, -, -, rfl⟩ := Space.eq_of_post (δ := True) halive₂ hc₂ (fun _ _ => .inr trivial) h₂
    exact hstore
  | branch b =>
    cases h₁
    cases h₂
    exact hstore
  | status =>
    obtain ⟨halive, status₁, h₁⟩ := h₁
    obtain ⟨-, status₂, h₂⟩ := h₂
    exact hstatus status₁ status₂ halive h₁ h₂

/-- What is known of two constructions of one model. -/
theorem Built.both_track (h₁ : Built policy₁ statements s₁) (h₂ : Built policy₂ statements s₂)
    (hdistinct : ∀ c ∈ postings statements, c.Distinct)
    (hsets : ∀ c ∈ postings statements, c.sets = []) :
    ∃ posted, s₁.Tracks True posted none ∧ s₂.Tracks True posted none ∧
      (∀ q ∈ posted, q.Oriented) ∧ ∀ q ∈ posted, ∀ set x, q ≠ .setCardinality set x := by
  obtain ⟨posted, hcompiles, htracks₁⟩ := h₁.tracks (δ := True) fun _ _ _ _ => .inr trivial
  obtain ⟨posted', hcompiles', htracks₂⟩ := h₂.tracks (δ := True) fun _ _ _ _ => .inr trivial
  cases hcompiles.unique hcompiles'
  refine ⟨posted, htracks₁, htracks₂, fun q hq => ?_, fun q hq set x => ?_⟩
  · obtain ⟨c, hc, hcq⟩ := hcompiles.exists_posting hq
    exact Posting.oriented hcq (hdistinct c hc).oriented
  · obtain ⟨c, hc, hcq⟩ := hcompiles.exists_posting hq
    exact Posting.ne_setCardinality hcq (hsets c hc) set x

/-- Two constructions of one model lead to one store. -/
theorem Built.store_congr (h₁ : Built policy₁ statements s₁) (h₂ : Built policy₂ statements s₂)
    (hdistinct : ∀ c ∈ postings statements, c.Distinct)
    (hsets : ∀ c ∈ postings statements, c.sets = []) : s₁.store = s₂.store := by
  induction h₁ generalizing s₂ with
  | empty =>
    cases h₂.eq_of_nil
    rfl
  | @step statements s₁ s₁' t h₁ ht₁ ih =>
    obtain ⟨s₂', h₂, ht₂⟩ := h₂.exists_of_append
    rw [postings_append] at hdistinct hsets
    have hdistinct' : ∀ c ∈ postings statements, c.Distinct := fun c hc =>
      hdistinct c (by simp [hc])
    have hsets' : ∀ c ∈ postings statements, c.sets = [] := fun c hc => hsets c (by simp [hc])
    have hstore := ih h₂ hdistinct' hsets'
    obtain ⟨posted, htracks₁, htracks₂, horiented, hset⟩ := h₁.both_track h₂ hdistinct' hsets'
    refine ht₁.store_congr ht₂ htracks₁.ready.alive htracks₂.ready.alive hstore ?_
    intro status₁ status₂ halive hr₁ hr₂
    refine (Space.status_congr htracks₁ htracks₂ hstore horiented hset hr₁ hr₂).2 fun hfailed => ?_
    rw [(Space.isFailed_of_status hr₁).2 hfailed] at halive
    cases halive

/-- **Confluence.** Under any two policies, propagation of one model fails in both cases, or leaves
the same domains. -/
theorem Built.status_confluent (h₁ : Built policy₁ statements s₁) (h₂ : Built policy₂ statements s₂)
    (hdistinct : ∀ c ∈ postings statements, c.Distinct)
    (hsets : ∀ c ∈ postings statements, c.sets = [])
    (hr₁ : s₁.status.Returns (status₁, t₁)) (hr₂ : s₂.status.Returns (status₂, t₂)) :
    (status₁ = .failed ↔ status₂ = .failed) ∧ (status₁ ≠ .failed → t₁.store = t₂.store) := by
  obtain ⟨posted, htracks₁, htracks₂, horiented, hset⟩ := h₁.both_track h₂ hdistinct hsets
  exact Space.status_congr htracks₁ htracks₂ (h₁.store_congr h₂ hdistinct hsets) horiented hset hr₁
    hr₂

/-- A chain of inequations over a domain with holes, in order of cost and at random. -/
theorem Built.status_confluent_chain : ∃ (s₁ s₂ t₁ t₂ : Space) (status₁ status₂ : SpaceStatus),
    Built .costOrdered [.newIntOfValues [1, 4, 6], .newInt 0 5, .newInt 0 5,
      .post (.lessThan (.root 0) (.root 1)), .post (.lessThan (.root 1) (.root 2))] s₁ ∧
      Built (.random 7) [.newIntOfValues [1, 4, 6], .newInt 0 5, .newInt 0 5,
        .post (.lessThan (.root 0) (.root 1)), .post (.lessThan (.root 1) (.root 2))] s₂ ∧
      s₁.status.Returns (status₁, t₁) ∧ s₂.status.Returns (status₂, t₂) ∧
      (status₁ = .failed ↔ status₂ = .failed) ∧ (status₁ ≠ .failed → t₁.store = t₂.store) := by
  have hcheck₁ : buildsTo .costOrdered [.newIntOfValues [1, 4, 6], .newInt 0 5, .newInt 0 5,
      .post (.lessThan (.root 0) (.root 1)), .post (.lessThan (.root 1) (.root 2))]
      (·.status.check fun _ => true) = true := by
    decide +kernel
  have hcheck₂ : buildsTo (.random 7) [.newIntOfValues [1, 4, 6], .newInt 0 5, .newInt 0 5,
      .post (.lessThan (.root 0) (.root 1)), .post (.lessThan (.root 1) (.root 2))]
      (·.status.check fun _ => true) = true := by
    decide +kernel
  obtain ⟨s₁, h₁, hcheck₁⟩ := exists_built_of_buildsTo hcheck₁
  obtain ⟨s₂, h₂, hcheck₂⟩ := exists_built_of_buildsTo hcheck₂
  obtain ⟨⟨status₁, t₁⟩, hr₁, -⟩ := Journaled.exists_of_check hcheck₁
  obtain ⟨⟨status₂, t₂⟩, hr₂, -⟩ := Journaled.exists_of_check hcheck₂
  refine ⟨s₁, s₂, t₁, t₂, status₁, status₂, h₁, h₂, hr₁, hr₂, ?_⟩
  refine h₁.status_confluent h₂ (fun c hc => ?_) (fun c hc => ?_) hr₁ hr₂
  · simp only [postings, Statement.posting?, List.filterMap_cons, List.filterMap_nil,
      List.mem_cons, List.not_mem_nil, or_false] at hc
    rcases hc with rfl | rfl <;> simp [Posting.Distinct, Posting.vars, IntVar.index]
  · simp only [postings, Statement.posting?, List.filterMap_cons, List.filterMap_nil,
      List.mem_cons, List.not_mem_nil, or_false] at hc
    rcases hc with rfl | rfl <;> rfl

end ConstraintSearch
