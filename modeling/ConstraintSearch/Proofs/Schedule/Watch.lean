import ConstraintSearch.Schedule.Watch

/-!
# The law of watch lists

* `mem_subscribeAll`: after a propagator has subscribed, its subscriptions are there beside the
  earlier ones;
* `mem_unsubscribeAll`: after a propagator has left, the subscriptions of the others are there;
* `Registered`: what the lists of the variables and the list of a propagator say of its
  subscriptions, which is the same. `Registered.subscribeAll_self`, `Registered.unsubscribeAll_self`
  and their relatives say what becomes of it when that propagator or another one subscribes or
  leaves.
-/

namespace ConstraintSearch.WatchLists

variable {w : WatchLists} {x y : VarRef} {sub : Subscription}

/-- Growing a table of lists does not change what is read from it. -/
theorem getD_accommodate {α : Type} (t : Table (Array α)) (key other : Nat) :
    ((t.accommodate key #[]).get? other).getD #[] = (t.get? other).getD #[] := by
  rw [Table.get?_accommodate]
  by_cases h : t.size ≤ other ∧ other ≤ key
  · have hnone : t.get? other = none := Array.getElem?_eq_none h.1
    rw [if_pos h, hnone]
    rfl
  · rw [if_neg h]

theorem getD_change {α : Type} (t : Table (Array α)) (key other : Nat) (f : Array α → Array α) :
    ((change t key f).get? other).getD #[] =
      if key = other then f ((t.get? key).getD #[]) else (t.get? other).getD #[] := by
  have hlt : key < (t.accommodate key (#[] : Array α)).rows.size := Table.lt_size_accommodate ..
  rw [← getD_accommodate t key key, ← getD_accommodate t key other]
  simp only [change, Table.modify, Table.get?, Array.getElem?_modify]
  split
  · rename_i heq
    rw [heq] at hlt
    rw [heq, Array.getElem?_eq_getElem hlt]
    rfl
  · rfl

theorem watchers_changeWatchers (w : WatchLists) (x y : VarRef)
    (f : Array Subscription → Array Subscription) :
    (w.changeWatchers x f).watchers y = if x = y then f (w.watchers x) else w.watchers y := by
  cases x <;> cases y <;> simp [changeWatchers, watchers, getD_change]

theorem watchers_subscribe (w : WatchLists) (n : Nat) (x y : VarRef) (wake : Wake) :
    (w.subscribe n x wake).watchers y =
      if x = y then (w.watchers x).push ⟨n, wake⟩ else w.watchers y := by
  have : (w.subscribe n x wake).watchers y =
      (w.changeWatchers x (·.push ⟨n, wake⟩)).watchers y := by
    cases y <;> rfl
  rw [this, watchers_changeWatchers]

theorem mem_subscribe {n : Nat} {wake : Wake} :
    sub ∈ (w.subscribe n x wake).watchers y ↔
      sub ∈ w.watchers y ∨ x = y ∧ sub = ⟨n, wake⟩ := by
  rw [watchers_subscribe]
  split
  · rename_i hxy
    subst hxy
    simp
  · rename_i hxy
    simp [hxy]

/-- The subscriptions after a propagator has subscribed to several changes. -/
theorem mem_subscribeAll {n : Nat} {interests : List (VarRef × Wake)} :
    sub ∈ (interests.foldl (fun w i => w.subscribe n i.1 i.2) w).watchers y ↔
      sub ∈ w.watchers y ∨ sub.propagator = n ∧ (y, sub.wake) ∈ interests := by
  induction interests generalizing w with
  | nil => simp
  | cons i interests ih =>
    obtain ⟨x, wake⟩ := i
    obtain ⟨m, wake'⟩ := sub
    rw [List.foldl_cons, ih, mem_subscribe]
    simp only [Subscription.mk.injEq, List.mem_cons, Prod.mk.injEq]
    constructor
    · rintro ((h | ⟨rfl, rfl, rfl⟩) | ⟨rfl, h⟩)
      · exact .inl h
      · exact .inr ⟨rfl, .inl ⟨rfl, rfl⟩⟩
      · exact .inr ⟨rfl, .inr h⟩
    · rintro (h | ⟨rfl, ⟨rfl, rfl⟩ | h⟩)
      · exact .inl (.inl h)
      · exact .inl (.inr ⟨rfl, rfl, rfl⟩)
      · exact .inr ⟨rfl, h⟩

theorem mem_unsubscribe {n : Nat} :
    sub ∈ (unsubscribe n w x).watchers y ↔
      sub ∈ w.watchers y ∧ (x = y → sub.propagator ≠ n) := by
  unfold unsubscribe
  rw [watchers_changeWatchers]
  split
  · rename_i hxy
    subst hxy
    simp
  · rename_i hxy
    simp [hxy]

/-- The subscriptions of the other propagators stay when one leaves, and none is added. -/
theorem mem_unsubscribeAll {n : Nat} :
    (sub ∈ w.watchers y → sub.propagator ≠ n → sub ∈ (w.unsubscribeAll n).watchers y) ∧
      (sub ∈ (w.unsubscribeAll n).watchers y → sub ∈ w.watchers y) := by
  have fold (vars : List VarRef) (w : WatchLists) :
      (sub ∈ w.watchers y → sub.propagator ≠ n →
        sub ∈ (vars.foldl (unsubscribe n) w).watchers y) ∧
      (sub ∈ (vars.foldl (unsubscribe n) w).watchers y → sub ∈ w.watchers y) := by
    induction vars generalizing w with
    | nil => exact ⟨fun h _ => h, id⟩
    | cons x vars ih =>
      obtain ⟨hkept, hold⟩ := ih (unsubscribe n w x)
      exact ⟨fun h hne => hkept (mem_unsubscribe.2 ⟨h, fun _ => hne⟩) hne,
        fun h => (mem_unsubscribe.1 (hold h)).1⟩
  have hsame : ({ w with subscribedTo := w.subscribedTo.set n #[] } : WatchLists).watchers y =
      w.watchers y := by
    cases y <;> rfl
  unfold unsubscribeAll
  dsimp only
  rw [← Array.foldl_toList, ← hsame]
  exact fold _ _

/-! ### The two indexes -/

theorem subscribedTo_changeWatchers (w : WatchLists) (x : VarRef)
    (f : Array Subscription → Array Subscription) :
    (w.changeWatchers x f).subscribedTo = w.subscribedTo := by
  cases x <;> rfl

theorem variablesOf_subscribe (w : WatchLists) (n m : Nat) (x : VarRef) (wake : Wake) :
    (w.subscribe n x wake).variablesOf m =
      if n = m then (w.variablesOf n).push x else w.variablesOf m := by
  unfold subscribe variablesOf
  rw [getD_change, subscribedTo_changeWatchers]

/-- The propagator `n` has exactly these subscriptions: each variable lists those to it in their
order, and the propagator lists the variables. -/
structure Registered (w : WatchLists) (n : Nat) (interests : List (VarRef × Wake)) : Prop where
  watchers : ∀ x, (w.watchers x).toList.filter (·.propagator = n) =
    (interests.filter (·.1 = x)).map fun i => ⟨n, i.2⟩
  vars : (w.variablesOf n).toList = interests.map Prod.fst

namespace Registered

variable {n m : Nat} {interests interests' : List (VarRef × Wake)}

theorem mem (h : w.Registered sub.propagator interests) (hsub : sub ∈ w.watchers x) :
    (x, sub.wake) ∈ interests := by
  have hmem : sub ∈ (w.watchers x).toList.filter (·.propagator = sub.propagator) := by
    simpa using hsub
  rw [h.watchers] at hmem
  obtain ⟨⟨y, wake⟩, hi, heq⟩ := List.mem_map.1 hmem
  obtain ⟨hi, hx⟩ := List.mem_filter.1 hi
  obtain rfl : y = x := of_decide_eq_true hx
  rwa [← heq]

/-- The two indexes tell the same number of subscriptions. -/
theorem countP_eq (h : w.Registered n interests) (x : VarRef) :
    (w.watchers x).toList.countP (·.propagator = n) = (w.variablesOf n).toList.count x := by
  rw [List.countP_eq_length_filter, h.watchers, h.vars, List.length_map, List.count,
    List.countP_map, List.countP_eq_length_filter]
  rfl

theorem subscribe_self (h : w.Registered n interests) (x : VarRef) (wake : Wake) :
    (w.subscribe n x wake).Registered n (interests ++ [(x, wake)]) where
  watchers y := by
    rw [watchers_subscribe, List.filter_append, List.map_append, ← h.watchers]
    by_cases hxy : x = y
    · subst hxy
      simp
    · simp [hxy]
  vars := by
    rw [variablesOf_subscribe, if_pos rfl, Array.toList_push, h.vars, List.map_append]
    rfl

theorem subscribe_of_ne (h : w.Registered m interests) (hm : n ≠ m) (x : VarRef) (wake : Wake) :
    (w.subscribe n x wake).Registered m interests where
  watchers y := by
    rw [watchers_subscribe, ← h.watchers]
    split
    · rename_i hxy
      subst hxy
      simp [hm]
    · rfl
  vars := by rw [variablesOf_subscribe, if_neg hm, h.vars]

/-- New subscriptions of a propagator stand behind its own. -/
theorem subscribeAll_self (h : w.Registered n interests) :
    (interests'.foldl (fun w i => w.subscribe n i.1 i.2) w).Registered n
      (interests ++ interests') := by
  induction interests' generalizing w interests with
  | nil => rwa [List.append_nil]
  | cons i interests' ih =>
    rw [List.foldl_cons, List.append_cons]
    exact ih (h.subscribe_self i.1 i.2)

theorem subscribeAll_of_ne (h : w.Registered m interests) (hm : n ≠ m) :
    (interests'.foldl (fun w i => w.subscribe n i.1 i.2) w).Registered m interests := by
  induction interests' generalizing w with
  | nil => exact h
  | cons i interests' ih => exact ih (h.subscribe_of_ne hm i.1 i.2)

end Registered

/-! ### Leaving -/

theorem variablesOf_unsubscribe (n m : Nat) (w : WatchLists) (x : VarRef) :
    (unsubscribe n w x).variablesOf m = w.variablesOf m := by
  unfold unsubscribe variablesOf
  rw [subscribedTo_changeWatchers]

theorem filter_watchers_unsubscribe (n m : Nat) (w : WatchLists) (x y : VarRef) :
    ((unsubscribe n w x).watchers y).toList.filter (·.propagator = m) =
      if x = y ∧ n = m then [] else (w.watchers y).toList.filter (·.propagator = m) := by
  unfold unsubscribe
  rw [watchers_changeWatchers]
  by_cases hxy : x = y
  · subst hxy
    simp only [Array.toList_filter, List.filter_filter, true_and, if_true]
    split
    · rename_i hnm
      subst hnm
      exact List.filter_eq_nil_iff.2 fun sub _ => by simp
    · rename_i hnm
      refine List.filter_congr fun sub _ => ?_
      by_cases hm : sub.propagator = m
      · simp [hm, Ne.symm hnm]
      · simp [hm]
  · simp [hxy]

/-- Variables that a propagator leaves one after the other. -/
theorem filter_watchers_foldl (n m : Nat) (vars : List VarRef) (w : WatchLists) (y : VarRef) :
    ((vars.foldl (unsubscribe n) w).watchers y).toList.filter (·.propagator = m) =
      if y ∈ vars ∧ n = m then [] else (w.watchers y).toList.filter (·.propagator = m) := by
  induction vars generalizing w with
  | nil => simp
  | cons x vars ih =>
    rw [List.foldl_cons, ih, filter_watchers_unsubscribe]
    by_cases hnm : n = m
    · by_cases hy : y ∈ vars <;> simp [hnm, hy, eq_comm]
    · simp [hnm]

theorem variablesOf_foldl (n m : Nat) (vars : List VarRef) (w : WatchLists) :
    (vars.foldl (unsubscribe n) w).variablesOf m = w.variablesOf m := by
  induction vars generalizing w with
  | nil => rfl
  | cons x vars ih => rw [List.foldl_cons, ih, variablesOf_unsubscribe]

theorem variablesOf_unsubscribeAll (w : WatchLists) (n m : Nat) :
    (w.unsubscribeAll n).variablesOf m = if n = m then #[] else w.variablesOf m := by
  unfold unsubscribeAll
  dsimp only
  rw [← Array.foldl_toList, variablesOf_foldl]
  unfold variablesOf
  dsimp only
  rw [Table.get?_set]
  by_cases hnm : n = m
  · rw [if_pos hnm, if_pos hnm]
    split <;> rfl
  · rw [if_neg hnm, if_neg hnm]

theorem filter_watchers_unsubscribeAll (w : WatchLists) (n m : Nat) (y : VarRef) :
    ((w.unsubscribeAll n).watchers y).toList.filter (·.propagator = m) =
      if y ∈ (w.variablesOf n).toList ∧ n = m then []
      else (w.watchers y).toList.filter (·.propagator = m) := by
  have hsame : ({ w with subscribedTo := w.subscribedTo.set n #[] } : WatchLists).watchers y =
      w.watchers y := by
    cases y <;> rfl
  unfold unsubscribeAll
  dsimp only
  rw [← Array.foldl_toList, filter_watchers_foldl, hsame]

namespace Registered

variable {n m : Nat} {interests : List (VarRef × Wake)}

/-- A propagator that leaves is subscribed to nothing. -/
theorem unsubscribeAll_self (h : w.Registered n interests) :
    (w.unsubscribeAll n).Registered n [] where
  watchers x := by
    rw [filter_watchers_unsubscribeAll, h.vars]
    split
    · rfl
    · rename_i hx
      rw [h.watchers, List.filter_eq_nil_iff.2]
      · rfl
      · intro i hi heq
        exact hx ⟨List.mem_map.2 ⟨i, hi, of_decide_eq_true heq⟩, rfl⟩
  vars := by rw [variablesOf_unsubscribeAll, if_pos rfl]; rfl

theorem unsubscribeAll_of_ne (h : w.Registered m interests) (hm : n ≠ m) :
    (w.unsubscribeAll n).Registered m interests where
  watchers x := by rw [filter_watchers_unsubscribeAll, if_neg (hm ·.2), h.watchers]
  vars := by rw [variablesOf_unsubscribeAll, if_neg hm, h.vars]

end Registered

end ConstraintSearch.WatchLists
