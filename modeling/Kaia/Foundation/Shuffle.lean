import Mathlib

/-! # Shuffling by swaps and picking by position

A shuffle exchanges pairs of positions, one after the other. However the
positions are drawn, the result is a permutation of the list. Distinct positions
of a list without repetition pick distinct members.
-/

namespace Kaia.Foundation

open List

variable {α β : Type*}

variable (l : List α) (ps : List (ℕ × ℕ))

def swapAt (i j : ℕ) : List α :=
  match l[i]?, l[j]? with
  | some a, some b => (l.set i b).set j a
  | _, _ => l

def swaps : List α :=
  ps.foldl (fun l p => swapAt l p.1 p.2) l

theorem swapAt_perm (i j : ℕ) : (swapAt l i j).Perm l := by
  unfold swapAt
  split
  · rename_i a b hi hj
    obtain ⟨hi', rfl⟩ := List.getElem?_eq_some_iff.mp hi
    obtain ⟨hj', rfl⟩ := List.getElem?_eq_some_iff.mp hj
    exact set_set_perm hi' hj'
  · exact List.Perm.refl _

theorem swaps_perm : (swaps l ps).Perm l := by
  induction ps generalizing l with
  | nil => exact List.Perm.refl _
  | cons p ps ih => exact (ih (swapAt l p.1 p.2)).trans (swapAt_perm l p.1 p.2)

def picks (is : List ℕ) : List α := is.filterMap (l[·]?)

variable {is : List ℕ} {a : α} {i : ℕ}

theorem length_picks {l : List α} (h : ∀ i ∈ is, i < l.length) :
    (picks l is).length = is.length := by
  induction is with
  | nil => rfl
  | cons i is ih =>
    have hi := h i mem_cons_self
    have hl := ih fun j hj => h j (mem_cons_of_mem _ hj)
    unfold picks at hl ⊢
    simp [getElem?_eq_getElem hi, hl]

theorem mem_of_mem_picks {l : List α} (h : a ∈ picks l is) : a ∈ l := by
  obtain ⟨i, _, hi⟩ := mem_filterMap.mp h
  exact mem_of_getElem? hi

theorem mem_picks {l : List α} (hi : i ∈ is) (ha : l[i]? = some a) :
    a ∈ picks l is := List.mem_filterMap.mpr ⟨i, hi, ha⟩

theorem picks_weighted (weight : α → ℕ) (before l : List α) :
    picks (before ++ l)
        ((l.zipIdx before.length).flatMap fun p => replicate (weight p.1) p.2) =
      l.flatMap fun a => replicate (weight a) a := by
  induction l generalizing before with
  | nil => rfl
  | cons a l ih =>
    have hat : (before ++ a :: l)[before.length]? = some a := by simp
    have htail := ih (before ++ [a])
    rw [length_append, append_assoc] at htail
    rw [zipIdx_cons, flatMap_cons, flatMap_cons, picks, filterMap_append, filterMap_replicate_of_some hat]
    exact congrArg _ htail

theorem picks_range : picks l (range l.length) = l := by
  have hones := picks_weighted (fun _ => 1) [] l
  simp only [replicate_one, flatMap_singleton', nil_append, length_nil] at hones
  rw [← map_eq_flatMap, zipIdx_map_snd, ← range_eq_range'] at hones
  exact hones

theorem nodup_map_picks {f : α → β} {l : List α} (hl : (l.map f).Nodup) (his : is.Nodup) :
    ((picks l is).map f).Nodup := by
  rw [picks, List.map_filterMap]
  refine his.filterMap fun i j b hi hj => ?_
  have hi' : (l.map f)[i]? = some b := by simpa using hi
  have hj' : (l.map f)[j]? = some b := by simpa using hj
  have hlt := (List.getElem?_eq_some_iff.mp hi').1
  exact (List.getElem?_inj hlt hl).mp (hi'.trans hj'.symm)

theorem length_filter_ne_ne {n p q : ℕ} (hp : p < n) (hq : q < n) (hne : p ≠ q) :
    ((range n).filter fun i => i ≠ p ∧ i ≠ q).length = n - 2 := by
  have hfil : (range n).filter (fun i => i ≠ p ∧ i ≠ q) =
      ((range n).erase p).erase q := by
    rw [(nodup_range.erase p).erase_eq_filter, nodup_range.erase_eq_filter, filter_filter]
    congr 1
    funext i
    by_cases hi : i = p <;> by_cases hj : i = q <;> simp [hi, hj]
  have hq' : q ∈ (range n).erase p :=
    (mem_erase_of_ne hne.symm).mpr (mem_range.mpr hq)
  rw [hfil, length_erase_of_mem hq', length_erase_of_mem (mem_range.mpr hp)]
  simp only [length_range]
  omega

end Kaia.Foundation
