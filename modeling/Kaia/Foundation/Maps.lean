import Mathlib

/-! # Maps and loops over them

A Go map is a list of entries with distinct keys. A loop over it goes through the entries in an
order of its own. Values can be summed up, and added to.
-/

namespace Kaia.Foundation

open List

variable {K V : Type}

/-- The order in which a loop goes through a map. -/
structure MapOrder (K V : Type) where
  visit : List (Σ _ : K, V) → List (Σ _ : K, V)
  perm : ∀ l, (visit l).Perm l

def MapOrder.plain (K V : Type) : MapOrder K V := ⟨id, .refl⟩

variable {order : MapOrder K V} {m : AList fun _ : K => V} {k l : K} {v w : V}

theorem MapOrder.nodupKeys (order : MapOrder K V) (m : AList fun _ : K => V) :
    (order.visit m.entries).NodupKeys :=
  (perm_nodupKeys (order.perm _)).mpr m.nodupKeys

theorem MapOrder.mem_keys : k ∈ (order.visit m.entries).map (·.1) ↔ k ∈ m := by
  rw [((order.perm _).map _).mem_iff]
  rfl

def sumValues [AddCommMonoid V] (m : AList fun _ : K => V) : V := (m.entries.map (·.2)).sum

theorem MapOrder.sum_visit [AddCommMonoid V] (order : MapOrder K V) (m : AList fun _ : K => V) :
    ((order.visit m.entries).map (·.2)).sum = sumValues m :=
  ((order.perm _).map _).sum_eq

variable [DecidableEq K]

theorem MapOrder.mem_visit : ⟨k, v⟩ ∈ order.visit m.entries ↔ m.lookup k = some v := by
  rw [(order.perm _).mem_iff]
  exact AList.mem_lookup_iff.symm

variable [AddCommMonoid V]

def increment (m : AList fun _ : K => V) (k : K) (v : V) : AList fun _ : K => V :=
  m.insert k ((m.lookup k).getD 0 + v)

theorem sum_kerase (l : List (Σ _ : K, V)) (k : K) :
    (l.map (·.2)).sum = ((l.dlookup k).getD 0) + ((l.kerase k).map (·.2)).sum := by
  induction l with
  | nil => simp
  | cons e l ih =>
    by_cases hk : k = e.1
    · subst hk
      rw [kerase_cons_eq rfl, dlookup_cons_eq, map_cons, sum_cons,
        Option.getD_some]
    · rw [kerase_cons_ne hk, dlookup_cons_ne _ _ hk, map_cons, map_cons,
        sum_cons, sum_cons, ih, add_left_comm]

@[simp] theorem sumValues_increment : sumValues (increment m k v) = sumValues m + v := by
  unfold increment sumValues
  have hentries : (m.insert k ((m.lookup k).getD 0 + v)).entries =
      ⟨k, (m.entries.dlookup k).getD 0 + v⟩ :: m.entries.kerase k := rfl
  rw [hentries, map_cons, sum_cons, sum_kerase m.entries k, add_right_comm]

variable {u : V} {entries : List (Σ _ : K, V)}

theorem increment_forall [PartialOrder V] [IsOrderedAddMonoid V]
    (hm : ∀ k v, m.lookup k = some v → 0 ≤ v) (hv : 0 ≤ v) (h : (increment m k v).lookup l = some u) :
    0 ≤ u := by
  by_cases hl : l = k
  · subst hl
    rw [increment, AList.lookup_insert] at h
    obtain rfl := Option.some.inj h
    refine add_nonneg ?_ hv
    cases hlook : m.lookup l with
    | none => exact le_rfl
    | some w => exact hm l w hlook
  · rw [increment, AList.lookup_insert_ne hl] at h
    exact hm l u h

def incrementAll (m : AList fun _ : K => V) (entries : List (Σ _ : K, V)) : AList fun _ : K => V :=
  entries.foldl (fun m e => increment m e.1 e.2) m

theorem sumValues_incrementAll (entries : List (Σ _ : K, V)) :
    sumValues (incrementAll m entries) = sumValues m + (entries.map (·.2)).sum := by
  induction entries generalizing m with
  | nil => simp [incrementAll]
  | cons e entries ih =>
    unfold incrementAll at ih ⊢
    rw [foldl_cons, ih, sumValues_increment, map_cons, sum_cons, add_assoc]

theorem incrementAll_forall [PartialOrder V] [IsOrderedAddMonoid V]
    (hm : ∀ k v, m.lookup k = some v → 0 ≤ v) (he : ∀ e ∈ entries, 0 ≤ e.2)
    (h : (incrementAll m entries).lookup l = some u) : 0 ≤ u := by
  induction entries generalizing m with
  | nil => exact hm l u h
  | cons e entries ih =>
    obtain ⟨he₁, he⟩ := forall_mem_cons.mp he
    exact ih (fun k v hv => increment_forall hm he₁ hv) he h

theorem lookup_increment :
    (increment m k v).lookup l = if l = k then some ((m.lookup k).getD 0 + v) else m.lookup l := by
  unfold increment
  split
  · next h => rw [h, AList.lookup_insert]
  · next h => rw [AList.lookup_insert_ne h]

theorem lookup_incrementAll (h : entries.NodupKeys) :
    (incrementAll m entries).lookup l =
      match entries.dlookup l with
      | none => m.lookup l
      | some w => some ((m.lookup l).getD 0 + w) := by
  induction entries generalizing m with
  | nil => rfl
  | cons e entries ih =>
    obtain ⟨hnew, h⟩ := nodupKeys_cons.mp h
    have hcons : incrementAll m (e :: entries) = incrementAll (increment m e.1 e.2) entries := rfl
    rw [hcons, ih h, lookup_increment]
    by_cases hl : l = e.1
    · subst hl
      rw [dlookup_cons_eq, dlookup_eq_none.mpr hnew, if_pos rfl]
    · rw [dlookup_cons_ne _ _ hl, if_neg hl]

theorem lookup_incrementAll_visit {order' : MapOrder K V} {entries : AList fun _ : K => V} :
    (incrementAll m (order.visit entries.entries)).lookup l =
      (incrementAll m (order'.visit entries.entries)).lookup l := by
  rw [lookup_incrementAll (order.nodupKeys entries), lookup_incrementAll (order'.nodupKeys entries),
    perm_dlookup l (order.nodupKeys entries) ((order.perm _).trans (order'.perm _).symm)]

theorem foldl_update_add (order : MapOrder K V) (f : K → V) :
    (order.visit m.entries).foldl (fun f e => Function.update f e.1 (f e.1 + e.2)) f l =
      f l + (m.lookup l).getD 0 := by
  have hlookup : m.lookup l = (order.visit m.entries).dlookup l :=
    perm_dlookup l m.nodupKeys (order.perm _).symm
  rw [hlookup]
  have hnodup := order.nodupKeys m
  generalize order.visit m.entries = entries at hnodup
  induction entries generalizing f with
  | nil => exact (add_zero _).symm
  | cons e entries ih =>
    obtain ⟨hnew, hnodup⟩ := nodupKeys_cons.mp hnodup
    rw [foldl_cons, ih _ hnodup]
    by_cases hl : l = e.1
    · subst hl
      rw [dlookup_cons_eq, dlookup_eq_none.mpr hnew, Function.update_self,
        Option.getD_none, add_zero, Option.getD_some]
    · rw [dlookup_cons_ne _ _ hl, Function.update_of_ne hl]

end Kaia.Foundation
