import Mathlib

/-! # Shares of an amount

An amount is divided by parts of a total, and every share is rounded down. The shares never exceed
the amount.
-/

namespace Kaia.Foundation

def share (amount total part : ℤ) : ℤ := amount * part / total

variable {amount total part : ℤ} {parts : List ℤ}

theorem share_nonneg (ha : 0 ≤ amount) (ht : 0 ≤ total) (hp : 0 ≤ part) :
    0 ≤ share amount total part :=
  Int.ediv_nonneg (mul_nonneg ha hp) ht

theorem share_self (ht : total ≠ 0) : share total total part = part :=
  Int.mul_ediv_cancel_left part ht

theorem share_neg_self (ht : total ≠ 0) : share (-total) total part = -part := by
  rw [share, neg_mul_comm, Int.mul_ediv_cancel_left _ ht]

theorem sum_share_mul_le (amount : ℤ) (ht : 0 < total) (parts : List ℤ) :
    (parts.map (share amount total)).sum * total ≤ amount * parts.sum := by
  induction parts with
  | nil => simp
  | cons part parts ih =>
    have hone : share amount total part * total ≤ amount * part := Int.ediv_mul_le _ ht.ne'
    rw [List.map_cons, List.sum_cons, List.sum_cons, add_mul, mul_add]
    exact add_le_add hone ih

theorem sum_share_le (ha : 0 ≤ amount) (ht : 0 < total) (hparts : parts.sum ≤ total) :
    (parts.map (share amount total)).sum ≤ amount := by
  refine le_of_mul_le_mul_right ?_ ht
  calc (parts.map (share amount total)).sum * total
      ≤ amount * parts.sum := sum_share_mul_le amount ht parts
    _ ≤ amount * total := mul_le_mul_of_nonneg_left hparts ha

theorem mul_sum_le_sum_share (amount : ℤ) (ht : 0 < total) (hparts : ∀ part ∈ parts, 0 ≤ part) :
    amount * parts.sum ≤ (parts.map (share amount total)).sum * total +
      (total - 1) * parts.countP (0 < ·) := by
  induction parts with
  | nil => simp
  | cons part parts ih =>
    obtain ⟨hpart, hparts⟩ := List.forall_mem_cons.mp hparts
    have htail := ih hparts
    rw [List.map_cons, List.sum_cons, List.sum_cons, List.countP_cons, mul_add, add_mul]
    rcases hpart.eq_or_lt with rfl | hpos
    · have hzero : share amount total 0 = 0 := by simp [share]
      simpa [hzero] using htail
    · have hone : amount * part ≤ share amount total part * total + (total - 1) :=
        Int.le_sub_one_of_lt (Int.lt_ediv_add_one_mul_self _ ht) |>.trans (by rw [share]; linarith)
      simp only [hpos, decide_true, if_true, Nat.cast_add, Nat.cast_one, mul_add, mul_one]
      linarith

theorem sub_sum_share_lt (amount : ℤ) (ht : 0 < total) (hparts : ∀ part ∈ parts, 0 ≤ part)
    (hsum : parts.sum = total) :
    amount - (parts.map (share amount total)).sum < parts.countP (0 < ·) := by
  have hcount : 0 < parts.countP (0 < ·) := by
    rw [List.countP_pos_iff]
    by_contra hnone
    push Not at hnone
    have hzero : ∀ part ∈ parts, part = 0 := fun part hpart =>
      le_antisymm (by simpa using hnone part hpart) (hparts part hpart)
    rw [List.sum_eq_zero hzero] at hsum
    exact ht.ne hsum
  have hle := mul_sum_le_sum_share amount ht hparts
  rw [hsum] at hle
  refine lt_of_mul_lt_mul_right ?_ ht.le
  calc (amount - (parts.map (share amount total)).sum) * total
      ≤ (total - 1) * parts.countP (0 < ·) := by rw [sub_mul]; linarith
    _ < parts.countP (0 < ·) * total := by nlinarith

end Kaia.Foundation
