import Mathlib

/-! # Quorums of a finite group

A group of `n` members tolerates `⌈n / 3⌉ - 1` faulty ones and decides with
`⌈2n / 3⌉` voices, or with all of them when it has fewer than four members. Any
two such quorums share more members than can be faulty.
-/

namespace Kaia.Foundation

def quorum (n : ℕ) : ℕ := if n < 4 then n else (2 * n + 2) / 3

/-- The number of faulty members a group of `n` tolerates; `-1` for the empty group. -/
def faults (n : ℕ) : ℤ := ((n + 2) / 3 : ℕ) - 1

theorem two_mul_faults_lt_quorum {n : ℕ} (h : 0 < n) : 2 * faults n < quorum n := by
  unfold faults quorum; split <;> omega

theorem add_faults_lt_two_mul_quorum {n : ℕ} (h : 0 < n) : (n : ℤ) + faults n < 2 * quorum n := by
  unfold faults quorum; split <;> omega

variable {α : Type*} [DecidableEq α] {A B C : Finset α}

theorem card_add_card_le (hA : A ⊆ C) (hB : B ⊆ C) : A.card + B.card ≤ C.card + (A ∩ B).card := by
  rw [← Finset.card_union_add_card_inter]
  exact Nat.add_le_add_right (Finset.card_le_card (Finset.union_subset hA hB)) _

theorem exists_common_not_faulty {n : ℕ} {faulty : α → Prop} [DecidablePred faulty]
    (hA : A ⊆ C) (hB : B ⊆ C) (hC : C.card ≤ n) (hn : 0 < n) (hqA : quorum n ≤ A.card)
    (hqB : quorum n ≤ B.card) (hf : ((C.filter faulty).card : ℤ) ≤ faults n) :
    ∃ x ∈ A, x ∈ B ∧ ¬ faulty x := by
  by_contra hnone
  have hsub : A ∩ B ⊆ C.filter faulty := by
    intro x hx
    obtain ⟨hxA, hxB⟩ := Finset.mem_inter.mp hx
    refine Finset.mem_filter.mpr ⟨hA hxA, ?_⟩
    by_contra hx'
    exact hnone ⟨x, hxA, hxB, hx'⟩
  have hcard := Finset.card_le_card hsub
  have hover := card_add_card_le hA hB
  have hq := add_faults_lt_two_mul_quorum hn
  omega

end Kaia.Foundation
