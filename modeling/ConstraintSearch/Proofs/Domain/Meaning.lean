import Mathlib.Data.Int.ConditionallyCompleteOrder
import Mathlib.Data.Set.Card
import Mathlib.Order.Bounds.Image
import ConstraintSearch.Proofs.Domain.IntDomain

/-!
# What domains denote

A domain stands for a set, and an operation on domains for an operation on sets. This module says so
for any kind of domain; the domains of integers and of sets are two cases.

* `Narrowing.Keeps`: a narrowing keeps exactly the members that satisfy a condition, and its answer
  says how many these are;
* `Denotes`: the domain that a constructor builds, if there is one, denotes a given set;
* `Meaning`: a well-formed domain is determined by a set that is not empty, and there is a domain
  for every single member; `Meaning.keeps` derives `Narrowing.Keeps` from `Narrowed`, which
  speaks of domains only;
* `Event.Describes`: the event tells what a set of integers has lost, and what its image under a
  monotone or antitone function has lost (`Event.Describes.image`);
* `IsNth`: the member of a set of integers at a position in increasing order.
-/

namespace ConstraintSearch

variable {α β : Type}

/-- The narrowing of `d` keeps exactly the members that satisfy the condition: it leaves `d` alone
if all members do, is empty if none does, and otherwise the new domain has those that do. -/
structure Narrowing.Keeps (denotes : α → Set β) (d : α) (condition : β → Prop)
    (narrowing : Narrowing α) : Prop where
  unchanged_iff : narrowing = .unchanged ↔ ∀ b ∈ denotes d, condition b
  empty_iff : narrowing = .empty ↔ ∀ b ∈ denotes d, ¬condition b
  denotes_changed : ∀ e, narrowing = .changed e → denotes e = {b ∈ denotes d | condition b}

/-- A constructor builds a domain that denotes the set `S`, and none if `S` is empty. -/
structure Denotes (denotes : α → Set β) (S : Set β) (built : Option α) : Prop where
  eq_none_iff : built = none ↔ S = ∅
  denotes_some : ∀ d, built = some d → denotes d = S

/-- The well-formed domains and their sets: inclusion of the sets is the order of the domains. -/
structure Meaning [LE α] (wellFormed : α → Prop) (denotes : α → Set β) : Prop where
  nonempty : ∀ d, wellFormed d → (denotes d).Nonempty
  le_iff : ∀ d e, wellFormed d → wellFormed e → (e ≤ d ↔ denotes e ⊆ denotes d)
  antisymm : ∀ d e, wellFormed d → wellFormed e → d ≤ e → e ≤ d → d = e
  exists_only : ∀ d, wellFormed d → ∀ b ∈ denotes d, ∃ e, wellFormed e ∧ denotes e = {b}

namespace Meaning

variable [LE α] {wellFormed : α → Prop} {denotes : α → Set β} {d e : α}

/-- Domains with the same set are the same. -/
theorem eq_iff (h : Meaning wellFormed denotes) (hd : wellFormed d) (he : wellFormed e) :
    d = e ↔ denotes d = denotes e := by
  refine ⟨fun heq => heq ▸ rfl, fun heq => h.antisymm d e hd he ?_ ?_⟩
  · exact (h.le_iff e d he hd).2 heq.subset
  · exact (h.le_iff d e hd he).2 heq.superset

/-- A narrowing to the greatest smaller domain with a property keeps the members with a property, if
a domain has the one just when its members have the other. -/
theorem keeps (h : Meaning wellFormed denotes) {size : α → Nat} {property : α → Prop}
    {condition : β → Prop} {narrowing : Narrowing α} (hd : wellFormed d)
    (hiff : ∀ e, wellFormed e → (property e ↔ ∀ b ∈ denotes e, condition b))
    (hn : Narrowed wellFormed property size d narrowing) :
    narrowing.Keeps denotes d condition := by
  obtain ⟨b, hb⟩ := h.nonempty d hd
  -- The domain of a member that satisfies the condition lies below `d` and has the property.
  have only {b : β} (hb : b ∈ denotes d) (hc : condition b) :
      ∃ e, wellFormed e ∧ e ≤ d ∧ property e ∧ denotes e = {b} := by
    obtain ⟨e, he, heq⟩ := h.exists_only d hd b hb
    refine ⟨e, he, (h.le_iff d e hd he).2 ?_, (hiff e he).2 ?_, heq⟩
    · rwa [heq, Set.singleton_subset_iff]
    · rw [heq]
      rintro _ rfl
      exact hc
  cases narrowing with
  | unchanged =>
    have hall := (hiff d hd).1 hn
    exact ⟨iff_of_true rfl hall, iff_of_false nofun fun hnone => hnone b hb (hall b hb), nofun⟩
  | empty =>
    have hnone : ∀ b ∈ denotes d, ¬condition b := fun b hb hc => by
      obtain ⟨e, he, hle, hp, -⟩ := only hb hc
      exact hn e he hle hp
    exact ⟨iff_of_false nofun fun hall => hnone b hb (hall b hb), iff_of_true rfl hnone, nofun⟩
  | changed d' =>
    obtain ⟨hd', hle, hproperty, hsize, hgreatest⟩ := hn
    have hsub := (h.le_iff d d' hd hd').1 hle
    have hall := (hiff d' hd').1 hproperty
    refine ⟨iff_of_false nofun fun hunchanged => ?_, iff_of_false nofun fun hnone => ?_, ?_⟩
    · -- Then `d` itself has the property, and the new domain is not smaller.
      have hle' := hgreatest d hd ((h.le_iff d d hd hd).2 subset_rfl) ((hiff d hd).2 hunchanged)
      rw [h.antisymm d' d hd' hd hle hle'] at hsize
      exact lt_irrefl _ hsize
    · obtain ⟨b, hb⟩ := h.nonempty d' hd'
      exact hnone b (hsub hb) (hall b hb)
    · rintro e ⟨⟩
      refine Set.Subset.antisymm (fun b hb => ⟨hsub hb, hall b hb⟩) fun b hb => ?_
      obtain ⟨a, ha, hle, hp, heq⟩ := only hb.1 hb.2
      have := (h.le_iff d' a hd' ha).1 (hgreatest a ha hle hp)
      rwa [heq, Set.singleton_subset_iff] at this

end Meaning

/-! ### Sets of integers -/

/-- The least and the greatest member are the same. -/
def SameEnds (S T : Set Int) : Prop :=
  (∀ v, IsLeast S v ↔ IsLeast T v) ∧ ∀ v, IsGreatest S v ↔ IsGreatest T v

/-- `v` is the member at the position `i`, counted from zero in increasing order. -/
def IsNth (S : Set Int) (i : Nat) (v : Int) : Prop := v ∈ S ∧ {w ∈ S | w < v}.ncard = i

/-- The event that tells what was lost from the set `S` when `T` is left of it. -/
def Event.Describes (S T : Set Int) : Event → Prop
  | .failed => T = ∅
  | .none => T ≠ ∅ ∧ T = S
  | .assigned => T ≠ S ∧ ∃ v, T = {v}
  | .bounds => T ≠ ∅ ∧ T ≠ S ∧ (¬∃ v, T = {v}) ∧ ¬SameEnds S T
  | .domain => T ≠ ∅ ∧ T ≠ S ∧ (¬∃ v, T = {v}) ∧ SameEnds S T

theorem sameEnds_iff {S T : Set Int} {a a' b b' : Int} (hS : IsLeast S a) (hS' : IsGreatest S a')
    (hT : IsLeast T b) (hT' : IsGreatest T b') : SameEnds S T ↔ b = a ∧ b' = a' := by
  constructor
  · rintro ⟨hleast, hgreatest⟩
    exact ⟨hT.unique ((hleast a).1 hS), hT'.unique ((hgreatest a').1 hS')⟩
  · rintro ⟨rfl, rfl⟩
    refine ⟨fun v => ⟨fun hv => ?_, fun hv => ?_⟩, fun v => ⟨fun hv => ?_, fun hv => ?_⟩⟩
    · exact hv.unique hS ▸ hT
    · exact hv.unique hT ▸ hS
    · exact hv.unique hS' ▸ hT'
    · exact hv.unique hT' ▸ hS'

/-- A set whose least and greatest members are the same has no other. -/
theorem exists_eq_singleton_iff {S : Set Int} {v w : Int} (hv : IsLeast S v)
    (hw : IsGreatest S w) : (∃ u, S = {u}) ↔ v = w := by
  constructor
  · rintro ⟨u, rfl⟩
    exact hv.1.trans hw.1.symm
  · rintro rfl
    exact ⟨v, Set.eq_singleton_iff_unique_mem.2
      ⟨hv.1, fun u hu => le_antisymm (hw.2 hu) (hv.2 hu)⟩⟩

namespace Event.Describes

variable {S T : Set Int} {event : Event}

theorem failed_iff (h : event.Describes S T) : event = .failed ↔ T = ∅ := by
  cases event with
  | failed => exact iff_of_true rfl h
  | assigned =>
    obtain ⟨-, v, rfl⟩ := h
    exact iff_of_false nofun (Set.singleton_ne_empty v)
  | none | bounds | domain => exact iff_of_false nofun h.1

theorem none_iff (h : event.Describes S T) (hS : S.Nonempty) : event = .none ↔ T = S := by
  cases event with
  | failed =>
    obtain rfl : T = ∅ := h
    exact iff_of_false nofun hS.ne_empty.symm
  | none => exact iff_of_true rfl h.2
  | assigned => exact iff_of_false nofun h.1
  | bounds | domain => exact iff_of_false nofun h.2.1

end Event.Describes

/-! ### Images -/

variable {f : Int → Int} {S T : Set Int}

/-- A function that turns the order round exchanges the ends. -/
theorem sameEnds_image (hf : StrictMono f ∨ StrictAnti f) :
    SameEnds (f '' S) (f '' T) ↔ SameEnds S T := by
  have lift {P Q : Set Int → Int → Prop} (hmem : ∀ U v, P U v → v ∈ U)
      (hiff : ∀ U u, P (f '' U) (f u) ↔ Q U u) :
      (∀ v, P (f '' S) v ↔ P (f '' T) v) ↔ ∀ u, Q S u ↔ Q T u := by
    refine ⟨fun h u => by rw [← hiff, ← hiff, h], fun h v => ⟨fun hv => ?_, fun hv => ?_⟩⟩
    · obtain ⟨u, -, rfl⟩ := hmem _ v hv
      rwa [hiff, ← h, ← hiff]
    · obtain ⟨u, -, rfl⟩ := hmem _ v hv
      rwa [hiff, h, ← hiff]
  have hleast (U : Set Int) (v : Int) (h : IsLeast U v) : v ∈ U := h.1
  have hgreatest (U : Set Int) (v : Int) (h : IsGreatest U v) : v ∈ U := h.1
  rcases hf with hf | hf
  · exact and_congr (lift hleast fun _ _ => hf.map_isLeast)
      (lift hgreatest fun _ _ => hf.map_isGreatest)
  · exact (and_congr (lift hleast fun _ _ => hf.map_isLeast)
      (lift hgreatest fun _ _ => hf.map_isGreatest)).trans and_comm

/-- What a set has lost, its image has lost. -/
theorem Event.Describes.image (hf : StrictMono f ∨ StrictAnti f) {event : Event}
    (h : event.Describes S T) : event.Describes (f '' S) (f '' T) := by
  have hinj : Function.Injective f := hf.elim StrictMono.injective StrictAnti.injective
  have hsame : f '' T = f '' S ↔ T = S := hinj.image_injective.eq_iff
  have hsingle : (∃ v, f '' T = {v}) ↔ ∃ u, T = {u} := by
    constructor
    · rintro ⟨v, hv⟩
      obtain ⟨u, -, rfl⟩ : v ∈ f '' T := hv ▸ Set.mem_singleton v
      rw [← Set.image_singleton] at hv
      exact ⟨u, hinj.image_injective hv⟩
    · rintro ⟨u, rfl⟩
      exact ⟨f u, Set.image_singleton⟩
  cases event <;>
    simpa only [Describes, ne_eq, Set.image_eq_empty, hsame, hsingle, sameEnds_image hf] using h

/-! ### Positions -/

/-- A member has one position. -/
theorem IsNth.iff_eq {i j : Nat} {v : Int} (h : IsNth S i v) : IsNth S j v ↔ j = i :=
  ⟨fun hj => hj.2.symm.trans h.2, fun hij => hij ▸ h⟩

/-- The members of a list in increasing order are at their positions. -/
theorem isNth_getElem {l : List Int} (h : l.Pairwise (· < ·)) {i : Nat} (hi : i < l.length) :
    IsNth {v | v ∈ l} i l[i] := by
  refine ⟨List.getElem_mem hi, ?_⟩
  have hsmaller : {w ∈ {v | v ∈ l} | w < l[i]} = ((l.take i).toFinset : Set Int) := by
    ext w
    simp only [Set.mem_ofPred_eq, List.coe_toFinset, List.mem_take_iff_getElem]
    have hlt := List.pairwise_iff_getElem.1 h
    constructor
    · rintro ⟨hw, hwi⟩
      obtain ⟨j, hj, rfl⟩ := List.getElem_of_mem hw
      refine ⟨j, lt_min (lt_of_not_ge fun hij => ?_) hj, rfl⟩
      rcases Nat.lt_or_eq_of_le hij with hij | rfl
      · exact lt_asymm hwi (hlt i j hi hj hij)
      · exact lt_irrefl _ hwi
    · rintro ⟨j, hj, rfl⟩
      rw [lt_min_iff] at hj
      exact ⟨List.getElem_mem _, hlt j i hj.2 hi hj.1⟩
  have hnodup : (l.take i).Nodup := (h.sublist (List.take_sublist i l)).imp fun hlt => hlt.ne
  rw [hsmaller, Set.ncard_coe_finset, List.toFinset_card_of_nodup hnodup, List.length_take]
  exact min_eq_left hi.le

/-- The members of a list in decreasing order are at the positions from behind. -/
theorem isNth_getElem_of_decreasing {l : List Int} (h : l.Pairwise (fun v w => w < v)) {i : Nat}
    (hi : i < l.length) : IsNth {v | v ∈ l} (l.length - 1 - i) l[i] := by
  have hi' : l.length - 1 - i < l.reverse.length := by
    rw [List.length_reverse]
    omega
  have hnth := isNth_getElem (List.pairwise_reverse.2 h) hi'
  have hback : l.length - 1 - (l.length - 1 - i) = i := by omega
  simpa only [List.getElem_reverse, hback, List.mem_reverse] using hnth

end ConstraintSearch
