import Mathlib

/-! # Ledgers

A state that holds a balance for every account. Setting a balance changes that balance only, so the
sum of all balances changes by the difference. A list of entries sets the balances of many accounts,
and what they had is burnt.
-/

namespace Kaia.Foundation

open List Function

variable {A : Type} [DecidableEq A]

section Total

variable [Fintype A] (f : A → ℕ) (a : A) (b : ℕ)

def total : ℤ := ∑ a, (f a : ℤ)

theorem total_update : total (Function.update f a b) = total f - f a + b := by
  have hcast : ∀ x, (update f a b x : ℤ) =
      update (fun x => (f x : ℤ)) a b x := by
    intro x
    by_cases hx : x = a
    · subst hx
      simp only [update_self]
    · simp only [update_of_ne hx]
  have hsplit := Finset.sum_erase_add Finset.univ (fun x => (f x : ℤ)) (Finset.mem_univ a)
  unfold total
  simp only [hcast]
  rw [Finset.sum_update_of_mem (Finset.mem_univ a), ← hsplit, Finset.sdiff_singleton_eq_erase]
  ring

end Total

/-- Balances and what was burnt so far. -/
structure Books (A : Type) where
  balance : A → ℕ
  burnt : ℤ

def Books.settle (books : Books A) (entry : Σ _ : A, ℕ) : Books A where
  balance := Function.update books.balance entry.1 entry.2
  burnt := books.burnt + books.balance entry.1

variable {books : Books A} {entries : List (Σ _ : A, ℕ)} {a : A} {b : ℕ}

theorem total_settle [Fintype A] (books : Books A) (entries : List (Σ _ : A, ℕ)) :
    total (entries.foldl Books.settle books).balance + (entries.foldl Books.settle books).burnt =
      total books.balance + books.burnt + (entries.map (·.2)).sum := by
  induction entries generalizing books with
  | nil => simp
  | cons e entries ih =>
    rw [foldl_cons, ih]
    simp only [Books.settle, total_update, map_cons, sum_cons]
    push_cast
    ring

theorem settle_balance_of_notMem (h : a ∉ entries.map (·.1)) :
    (entries.foldl Books.settle books).balance a = books.balance a := by
  induction entries generalizing books with
  | nil => rfl
  | cons e entries ih =>
    rw [map_cons, mem_cons, not_or] at h
    rw [foldl_cons, ih h.2]
    exact update_of_ne h.1 _ _

theorem settle_balance_of_mem (hnodup : entries.NodupKeys) (h : ⟨a, b⟩ ∈ entries) :
    (entries.foldl Books.settle books).balance a = b := by
  induction entries generalizing books with
  | nil => cases h
  | cons e entries ih =>
    rw [nodupKeys_cons] at hnodup
    rw [foldl_cons]
    rcases mem_cons.mp h with rfl | h
    · rw [settle_balance_of_notMem hnodup.1]
      exact update_self _ _ _
    · exact ih hnodup.2 h

theorem settle_burnt (hnodup : entries.NodupKeys) :
    (entries.foldl Books.settle books).burnt =
      books.burnt + ((entries.map fun e => books.balance e.1).sum : ℕ) := by
  induction entries generalizing books with
  | nil => simp
  | cons e entries ih =>
    rw [nodupKeys_cons] at hnodup
    have hsame : ∀ e' ∈ entries, (books.settle e).balance e'.1 = books.balance e'.1 := by
      intro e' he'
      refine update_of_ne ?_ _ _
      intro heq
      exact hnodup.1 (heq ▸ mem_map_of_mem he')
    rw [foldl_cons, ih hnodup.2, map_cons, sum_cons, map_congr_left hsame, Books.settle]
    push_cast
    ring

/-- How the balances of a state are read and set. -/
structure Ledger (σ A : Type) [DecidableEq A] where
  getBalance : σ → A → ℕ
  setBalance : σ → A → ℕ → σ
  getBalance_setBalance : ∀ s a b,
    getBalance (setBalance s a b) = Function.update (getBalance s) a b

end Kaia.Foundation
