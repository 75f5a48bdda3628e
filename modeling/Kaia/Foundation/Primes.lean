import Mathlib

/-! # Primality by certificates

A number is prime if some residue has full order modulo it, which is checked against certified
prime factors of the predecessor. Powers are computed by squaring, for the kernel.
-/

namespace Kaia.Foundation

def powMod (m a n : ℕ) : ℕ → ℕ
  | 0 => 1 % m
  | k + 1 =>
    let r := powMod m a (n / 2) k
    if n % 2 = 0 then r * r % m else r * r * a % m

theorem powMod_eq (m a : ℕ) {n k : ℕ} (h : n < 2 ^ k) : powMod m a n k = a ^ n % m := by
  induction k generalizing n with
  | zero =>
    obtain rfl : n = 0 := by omega
    rw [powMod, pow_zero]
  | succ k ih =>
    have hsq : a ^ (n / 2) % m * (a ^ (n / 2) % m) ≡ a ^ (2 * (n / 2)) [MOD m] := by
      rw [two_mul, pow_add]
      exact (Nat.mod_modEq _ _).mul (Nat.mod_modEq _ _)
    rw [powMod, ih (show n / 2 < 2 ^ k by omega)]
    rcases Nat.mod_two_eq_zero_or_one n with hn | hn
    · rw [if_pos hn, show a ^ n = a ^ (2 * (n / 2)) by congr 1; omega]
      exact hsq
    · rw [if_neg (by omega), show a ^ n = a ^ (2 * (n / 2)) * a by rw [← pow_succ]; congr 1; omega]
      exact hsq.mul_right a

def checkOrder (bits p a : ℕ) (fs : List ℕ) : Bool :=
  fs.prod == p - 1 && 1 < p && p ≤ 2 ^ bits && powMod p a (p - 1) bits == 1 &&
    fs.all fun q => powMod p a ((p - 1) / q) bits != 1

theorem natCast_pow_eq_one_iff {p : ℕ} (hp : 1 < p) (a n : ℕ) :
    (a : ZMod p) ^ n = 1 ↔ a ^ n % p = 1 := by
  rw [← Nat.cast_pow, ← Nat.cast_one, ZMod.natCast_eq_natCast_iff', Nat.mod_eq_of_lt hp]

theorem prime_of_checkOrder (bits p a : ℕ) (fs : List ℕ) (hprime : ∀ q ∈ fs, q.Prime)
    (h : checkOrder bits p a fs = true) : p.Prime := by
  simp only [checkOrder, Bool.and_eq_true, beq_iff_eq, decide_eq_true_eq, List.all_eq_true,
    bne_iff_ne] at h
  obtain ⟨⟨⟨⟨hprod, hp⟩, hbits⟩, hone⟩, hne⟩ := h
  refine lucas_primality p a ?_ fun q hq hdvd => ?_
  · rwa [natCast_pow_eq_one_iff hp, ← powMod_eq p a (show p - 1 < 2 ^ bits by omega)]
  · rw [← hprod] at hdvd
    obtain ⟨r, hr, hqr⟩ := hq.prime.dvd_prod_iff.mp hdvd
    have hlt : (p - 1) / r < 2 ^ bits := by
      have := Nat.div_le_self (p - 1) r
      omega
    rw [(Nat.prime_dvd_prime_iff_eq hq (hprime r hr)).mp hqr, Ne, natCast_pow_eq_one_iff hp,
      ← powMod_eq p a hlt]
    exact hne r hr

end Kaia.Foundation
