import Mathlib
import Kaia.Foundation.Primes
import Kaia.State.Account

/-! # The curve of public keys

A point is stored as one coordinate and the parity of the other. The field of the curve
has a prime number of elements, so this is enough to find the point again.
-/

namespace Kaia.AccountKey

open Foundation

/-! ## The field is prime -/

private theorem prime_a : Nat.Prime 173378833005251801 :=
  prime_of_checkOrder 256 _ 6 [2, 2, 2, 5, 5, 2621, 24809, 13331831]
    (by simp only [List.forall_mem_cons]; norm_num) (by decide +kernel)

private theorem prime_b : Nat.Prime 22149492674086928081353 :=
  prime_of_checkOrder 256 _ 5 [2, 2, 2, 3, 5323, 173378833005251801]
    (by simp only [List.forall_mem_cons, prime_a]; norm_num) (by decide +kernel)

private theorem prime_c : Nat.Prime 132896956044521568488119 :=
  prime_of_checkOrder 256 _ 6 [2, 3, 22149492674086928081353]
    (by simp only [List.forall_mem_cons, prime_b]; norm_num) (by decide +kernel)

private theorem prime_d : Nat.Prime 255515944373312847190720520512484175977 :=
  prime_of_checkOrder 256 _ 3
    [2, 2, 2, 7, 7, 11, 1627, 2657, 4423, 41201, 96557, 7240687, 107590001]
    (by simp only [List.forall_mem_cons]; norm_num) (by decide +kernel)

private theorem prime_e :
    Nat.Prime 205115282021455665897114700593932402728804164701536103180137503955397371 :=
  prime_of_checkOrder 256 _ 10 [2, 3, 5, 29, 29, 31, 7723, 132896956044521568488119,
    255515944373312847190720520512484175977]
    (by simp only [List.forall_mem_cons, prime_c, prime_d]; norm_num) (by decide +kernel)

theorem curveP_prime : curveP.Prime :=
  prime_of_checkOrder 256 _ 3 [2, 3, 7, 13441,
    205115282021455665897114700593932402728804164701536103180137503955397371]
    (by simp only [List.forall_mem_cons, prime_e]; norm_num) (by decide +kernel)

instance : Fact curveP.Prime := ⟨curveP_prime⟩

/-! ## Points and their compressed form -/

/-- The coordinates are reduced and fulfil the equation of the curve. -/
structure PublicKey.Valid (p : PublicKey) : Prop where
  x_lt : p.x < curveP
  y_lt : p.y < curveP
  isOnCurve : p.isOnCurve = true

instance (p : PublicKey) : Decidable p.Valid :=
  decidable_of_iff (p.x < curveP ∧ p.y < curveP ∧ p.isOnCurve = true)
    ⟨fun h => ⟨h.1, h.2.1, h.2.2⟩, fun h => ⟨h.x_lt, h.y_lt, h.isOnCurve⟩⟩

/-- `DecompressPubkey`: the second coordinate is a square root with the given parity. -/
def PublicKey.decompress (b : ℕ × ℕ) : Option PublicKey :=
  let v := b.2 * b.2 * b.2 + 7
  let y := powMod curveP v ((curveP + 1) / 4) 256
  if curveP ≤ b.2 then none
  else if y * y % curveP ≠ v % curveP then none
  else some ⟨b.2, if y % 2 = b.1 then y else (curveP - y) % curveP⟩

variable {y y' v : ℕ}

/-- A residue has at most two square roots, and they are of different parity. -/
theorem eq_of_sq_modEq (hy : y < curveP) (hy' : y' < curveP)
    (h : y * y % curveP = y' * y' % curveP) : y = y' ∨ y + y' = curveP := by
  have hsq : (y : ZMod curveP) * y = y' * y' := by
    have := (ZMod.natCast_eq_natCast_iff' _ _ _).mpr h
    push_cast at this
    exact this
  rcases mul_self_eq_mul_self_iff.mp hsq with heq | heq
  · left
    have := (ZMod.natCast_eq_natCast_iff' _ _ _).mp heq
    rwa [Nat.mod_eq_of_lt hy, Nat.mod_eq_of_lt hy'] at this
  · have hzero : ((y + y' : ℕ) : ZMod curveP) = 0 := by
      push_cast
      rw [heq, neg_add_cancel]
    obtain ⟨k, hk⟩ := (ZMod.natCast_eq_zero_iff _ _).mp hzero
    rcases Nat.eq_zero_or_pos k with rfl | hpos
    · left
      omega
    · right
      have : k < 2 := by
        by_contra hge
        have := Nat.mul_le_mul_left curveP (show 2 ≤ k by omega)
        omega
      obtain rfl : k = 1 := by omega
      omega

theorem sq_powMod (h : y * y % curveP = v % curveP) :
    powMod curveP v ((curveP + 1) / 4) 256 * powMod curveP v ((curveP + 1) / 4) 256 % curveP =
      v % curveP := by
  have hv : (y : ZMod curveP) * y = v := by
    have := (ZMod.natCast_eq_natCast_iff' _ _ _).mpr h
    push_cast at this
    exact this
  rw [powMod_eq _ _ (by decide +kernel)]
  refine (ZMod.natCast_eq_natCast_iff' _ _ _).mp ?_
  push_cast
  rw [ZMod.natCast_mod, Nat.cast_pow, ← pow_add, ← hv]
  rcases eq_or_ne (y : ZMod curveP) 0 with hzero | hne
  · rw [hzero, zero_mul, zero_pow (by decide +kernel)]
  · -- twice the exponent, on a square, is one more than the order of the field
    have hexp : (curveP + 1) / 4 + (curveP + 1) / 4 = (curveP - 1) / 2 + 1 := by decide +kernel
    rw [hexp, ← pow_two, ← pow_mul, show 2 * ((curveP - 1) / 2 + 1) = curveP - 1 + 2 by decide +kernel,
      pow_add, ZMod.pow_card_sub_one_eq_one hne, one_mul]

namespace PublicKey

variable {p q : PublicKey}

theorem Valid.equation (h : p.Valid) : p.y * p.y % curveP = (p.x * p.x * p.x + 7) % curveP := by
  simpa [PublicKey.isOnCurve] using h.isOnCurve

theorem eq_of_compress (hp : p.Valid) (hq : q.Valid) (h : p.compress = q.compress) : p = q := by
  obtain ⟨x, y⟩ := p
  obtain ⟨x', y'⟩ := q
  obtain ⟨hparity, rfl⟩ : y % 2 = y' % 2 ∧ x = x' := Prod.mk.inj h
  rcases eq_of_sq_modEq hp.y_lt hq.y_lt (hp.equation.trans hq.equation.symm) with rfl | hsum
  · rfl
  · have hodd : curveP % 2 = 1 := by decide +kernel
    simp only at hsum
    omega

theorem decompress_compress (hp : p.Valid) : decompress p.compress = some p := by
  obtain ⟨x, y⟩ := p
  have hroot := sq_powMod hp.equation
  have hlt : powMod curveP (x * x * x + 7) ((curveP + 1) / 4) 256 < curveP := by
    rw [powMod_eq _ _ (by decide +kernel)]
    exact Nat.mod_lt _ curveP_prime.pos
  have hodd : curveP % 2 = 1 := by decide +kernel
  unfold decompress compress
  simp only [if_neg (Nat.not_le.mpr hp.x_lt), hroot, ne_eq, not_true, if_false]
  generalize powMod curveP (x * x * x + 7) ((curveP + 1) / 4) 256 = r at hroot hlt
  congr 2
  have hy := hp.y_lt
  rcases eq_of_sq_modEq hlt hp.y_lt (hroot.trans hp.equation.symm) with rfl | hsum
  · exact if_pos rfl
  · simp only at hsum hy ⊢
    rcases Nat.eq_zero_or_pos r with rfl | hpos
    · omega
    · rw [if_neg (by omega), Nat.mod_eq_of_lt (by omega)]
      omega

theorem Valid.y_ne_zero (h : p.Valid) : p.y ≠ 0 := by
  intro hy
  have heq := h.equation
  rw [hy, Nat.zero_mul, Nat.zero_mod] at heq
  have hcube : (p.x : ZMod curveP) ^ 3 = ((curveP - 7 : ℕ) : ZMod curveP) := by
    have hzero : ((p.x * p.x * p.x + 7 : ℕ) : ZMod curveP) = 0 :=
      (ZMod.natCast_eq_zero_iff _ _).mpr (Nat.dvd_of_mod_eq_zero heq.symm)
    rw [Nat.cast_sub (by decide +kernel), ZMod.natCast_self]
    push_cast at hzero ⊢
    linear_combination hzero
  have hx : (p.x : ZMod curveP) ≠ 0 := by
    intro hx
    rw [hx, zero_pow (by decide)] at hcube
    exact absurd ((ZMod.natCast_eq_zero_iff _ _).mp hcube.symm) (by decide +kernel)
  -- a cube raised to a third of the order is one, and this number is not
  have hone : ((curveP - 7 : ℕ) : ZMod curveP) ^ ((curveP - 1) / 3) = 1 := by
    rw [← hcube, ← pow_mul, show 3 * ((curveP - 1) / 3) = curveP - 1 by decide +kernel]
    exact ZMod.pow_card_sub_one_eq_one hx
  rw [natCast_pow_eq_one_iff (by decide +kernel), ← powMod_eq (k := 256) _ _ (by decide +kernel)] at hone
  exact absurd hone (by decide +kernel)

theorem valid_of_decompress {b : ℕ × ℕ} (h : decompress b = some p) :
    p.Valid ∧ (b.1 < 2 → p.compress = b) := by
  obtain ⟨odd, x⟩ := b
  have hlt : powMod curveP (x * x * x + 7) ((curveP + 1) / 4) 256 < curveP := by
    rw [powMod_eq _ _ (by decide +kernel)]
    exact Nat.mod_lt _ curveP_prime.pos
  unfold decompress at h
  dsimp only at h
  generalize powMod curveP (x * x * x + 7) ((curveP + 1) / 4) 256 = r at h hlt
  by_cases hx : curveP ≤ x
  · simp [hx] at h
  by_cases hroot : r * r % curveP = (x * x * x + 7) % curveP
  · simp only [hx, hroot, if_false, ne_eq, not_true, Option.some.injEq] at h
    obtain rfl := h
    have hodd : curveP % 2 = 1 := by decide +kernel
    have hneg : (curveP - r) % curveP * ((curveP - r) % curveP) % curveP = r * r % curveP := by
      refine (ZMod.natCast_eq_natCast_iff' _ _ _).mp ?_
      push_cast
      rw [ZMod.natCast_mod, Nat.cast_sub hlt.le, ZMod.natCast_self]
      ring
    have hvalid : PublicKey.Valid ⟨x, if r % 2 = odd then r else (curveP - r) % curveP⟩ := by
      refine ⟨Nat.lt_of_not_le hx, ?_, ?_⟩
      · show (if r % 2 = odd then r else (curveP - r) % curveP) < curveP
        split
        · exact hlt
        · exact Nat.mod_lt _ curveP_prime.pos
      · simp only [isOnCurve, beq_iff_eq]
        split
        · exact hroot
        · exact hneg.trans hroot
    refine ⟨hvalid, fun hbit => ?_⟩
    have hne := hvalid.y_ne_zero
    simp only [compress, Prod.mk.injEq, and_true]
    simp only at hne
    split
    · assumption
    · next hpar =>
      rw [if_neg hpar] at hne
      have hr : r ≠ 0 := by
        rintro rfl
        exact hne (by simp)
      rw [Nat.mod_eq_of_lt (show curveP - r < curveP by omega)]
      simp only at hbit
      omega
  · simp [hx, hroot] at h

end PublicKey

end Kaia.AccountKey
