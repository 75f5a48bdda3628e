import Kaia.Istanbul.Types

/-! # The base fee

The base fee of a block follows from its parent: it rises when the parent used more gas than
the target and falls when it used less, within bounds. The target, the bounds and the speed
are governance parameters.
-/

namespace Kaia

/-- `KIP71Config`. -/
structure Kip71Config where
  lowerBoundBaseFee : ℕ
  upperBoundBaseFee : ℕ
  gasTarget : ℕ
  maxBlockGasUsedForBaseFee : ℕ
  baseFeeDenominator : ℕ

/-- What the base fee reads of the parent header. -/
structure FeeHeader where
  number : ℕ
  baseFee : Option ℕ
  gasUsed : ℕ

def bigDiv (x y : ℕ) : Except GoPanic ℕ := if y = 0 then .error .divideByZero else .ok (x / y)

def makeEvenByFloor (baseFee : ℕ) : ℕ := if baseFee % 2 = 1 then baseFee - 1 else baseFee

def makeEvenByCeil (baseFee : ℕ) : ℕ := if baseFee % 2 = 1 then baseFee + 1 else baseFee

def clampBaseFee (lowerBoundBaseFee upperBoundBaseFee fee : ℕ) : ℕ :=
  if upperBoundBaseFee ≤ fee then upperBoundBaseFee
  else if fee ≤ lowerBoundBaseFee then lowerBoundBaseFee
  else fee

def nextBlockBaseFee (parentHeader : FeeHeader) (kip71Config : Kip71Config)
    (lowerBoundBaseFee upperBoundBaseFee : ℕ) : Except GoPanic ℕ :=
  match parentHeader.number, parentHeader.baseFee with
  | 0, _ | _, none => .ok lowerBoundBaseFee
  | _, some fee =>
    -- a denominator of zero is replaced
    let baseFeeDenominator :=
      if kip71Config.baseFeeDenominator = 0 then 64 else kip71Config.baseFeeDenominator
    let gasTarget := kip71Config.gasTarget
    let parentBaseFee := clampBaseFee lowerBoundBaseFee upperBoundBaseFee fee
    let parentGasUsed := min parentHeader.gasUsed kip71Config.maxBlockGasUsedForBaseFee
    if parentGasUsed = gasTarget then .ok parentBaseFee
    else if gasTarget < parentGasUsed then
      if parentBaseFee = upperBoundBaseFee then .ok upperBoundBaseFee
      else do
        let y ← bigDiv (parentBaseFee * (parentGasUsed - gasTarget)) gasTarget
        let baseFeeDelta := max (← bigDiv y baseFeeDenominator) 1
        let nextBaseFee := parentBaseFee + baseFeeDelta
        .ok (if upperBoundBaseFee < nextBaseFee then upperBoundBaseFee else nextBaseFee)
    else if parentBaseFee = lowerBoundBaseFee then .ok lowerBoundBaseFee
    else do
      -- the difference is at most the fee itself
      let y ← bigDiv (parentBaseFee * (gasTarget - parentGasUsed)) gasTarget
      let baseFeeDelta ← bigDiv y baseFeeDenominator
      let nextBaseFee := parentBaseFee - baseFeeDelta
      .ok (if nextBaseFee < lowerBoundBaseFee then lowerBoundBaseFee else nextBaseFee)

def nextMagmaBlockBaseFee (parentHeader : FeeHeader) (kip71Config : Kip71Config) :
    Except GoPanic ℕ := do
  let lowerBoundBaseFee := makeEvenByCeil kip71Config.lowerBoundBaseFee
  let upperBoundBaseFee := makeEvenByFloor kip71Config.upperBoundBaseFee
  let nextFee ← nextBlockBaseFee parentHeader kip71Config lowerBoundBaseFee upperBoundBaseFee
  .ok (makeEvenByFloor nextFee)

variable {parentHeader : FeeHeader} {kip71Config : Kip71Config}
  {lowerBoundBaseFee upperBoundBaseFee : ℕ}

theorem bigDiv_of_ne_zero {x y : ℕ} (h : y ≠ 0) : bigDiv x y = .ok (x / y) := if_neg h

def baseFeeDelta (target denominator fee difference : ℕ) : ℕ :=
  fee * difference / target / denominator

/-- The fee after a parent past genesis, from its fee within the bounds and the gas that counts. -/
def movedBaseFee (lower upper target denominator fee gasUsed : ℕ) : ℕ :=
  if gasUsed = target then fee
  else if target < gasUsed then
    if fee = upper then upper
    else
      let next := fee + max (baseFeeDelta target denominator fee (gasUsed - target)) 1
      if upper < next then upper else next
  else if fee = lower then lower
  else
    let next := fee - baseFeeDelta target denominator fee (target - gasUsed)
    if next < lower then lower else next

variable {lower upper target denominator fee used used' : ℕ}

theorem baseFeeDelta_mono {d d' : ℕ} (h : d ≤ d') :
    baseFeeDelta target denominator fee d ≤ baseFeeDelta target denominator fee d' :=
  Nat.div_le_div_right (Nat.div_le_div_right (Nat.mul_le_mul_left fee h))

theorem clampBaseFee_bounds (h : lower ≤ upper) (fee : ℕ) :
    lower ≤ clampBaseFee lower upper fee ∧ clampBaseFee lower upper fee ≤ upper := by
  unfold clampBaseFee
  split
  · exact ⟨h, le_rfl⟩
  · split <;> omega

theorem movedBaseFee_below (hl : lower ≤ fee) (h : used ≤ target) :
    lower ≤ movedBaseFee lower upper target denominator fee used ∧
      movedBaseFee lower upper target denominator fee used ≤ fee := by
  unfold movedBaseFee
  split
  · exact ⟨hl, le_rfl⟩
  · rw [if_neg (by omega)]
    dsimp only
    split
    · omega
    · split <;> omega

theorem movedBaseFee_above (hu : fee ≤ upper) (h : target ≤ used) :
    fee ≤ movedBaseFee lower upper target denominator fee used ∧
      movedBaseFee lower upper target denominator fee used ≤ upper := by
  unfold movedBaseFee
  split
  · exact ⟨le_rfl, hu⟩
  · rw [if_pos (by omega)]
    dsimp only
    split
    · omega
    · split <;> omega

theorem movedBaseFee_mono_above (ht : target < used) (h : used ≤ used') :
    movedBaseFee lower upper target denominator fee used ≤
      movedBaseFee lower upper target denominator fee used' := by
  have hdelta : baseFeeDelta target denominator fee (used - target) ≤
      baseFeeDelta target denominator fee (used' - target) := baseFeeDelta_mono (by omega)
  have hne : used ≠ target ∧ used' ≠ target ∧ target < used' := by omega
  unfold movedBaseFee
  rw [if_neg hne.1, if_neg hne.2.1, if_pos ht, if_pos hne.2.2]
  dsimp only
  split
  · exact le_rfl
  · split <;> split <;> omega

theorem movedBaseFee_mono_below (ht : used' < target) (h : used ≤ used') :
    movedBaseFee lower upper target denominator fee used ≤
      movedBaseFee lower upper target denominator fee used' := by
  have hdelta : baseFeeDelta target denominator fee (target - used') ≤
      baseFeeDelta target denominator fee (target - used) := baseFeeDelta_mono (by omega)
  have hne : used ≠ target ∧ used' ≠ target ∧ ¬ target < used ∧ ¬ target < used' := by omega
  unfold movedBaseFee
  rw [if_neg hne.1, if_neg hne.2.1, if_neg hne.2.2.1, if_neg hne.2.2.2]
  dsimp only
  split
  · exact le_rfl
  · split <;> split <;> omega

theorem movedBaseFee_mono (hl : lower ≤ fee) (hu : fee ≤ upper) (h : used ≤ used') :
    movedBaseFee lower upper target denominator fee used ≤
      movedBaseFee lower upper target denominator fee used' := by
  rcases Nat.lt_or_ge target used with habove | hle
  · exact movedBaseFee_mono_above habove h
  · rcases Nat.lt_or_ge used' target with hbelow | hge
    · exact movedBaseFee_mono_below hbelow h
    · exact Nat.le_trans (movedBaseFee_below hl hle).2 (movedBaseFee_above hu hge).1

theorem movedBaseFee_bounds (hl : lower ≤ fee) (hu : fee ≤ upper) :
    lower ≤ movedBaseFee lower upper target denominator fee used ∧
      movedBaseFee lower upper target denominator fee used ≤ upper := by
  rcases Nat.le_total used target with h | h
  · exact ⟨(movedBaseFee_below hl h).1, Nat.le_trans (movedBaseFee_below hl h).2 hu⟩
  · exact ⟨Nat.le_trans hl (movedBaseFee_above hu h).1, (movedBaseFee_above hu h).2⟩

theorem nextBlockBaseFee_eq {number p : ℕ} (kip71Config : Kip71Config) (hnumber : number ≠ 0)
    (htarget : kip71Config.gasTarget ≠ 0) (lower upper gasUsed : ℕ) :
    nextBlockBaseFee ⟨number, some p, gasUsed⟩ kip71Config lower upper =
      .ok (movedBaseFee lower upper kip71Config.gasTarget
        (if kip71Config.baseFeeDenominator = 0 then 64 else kip71Config.baseFeeDenominator)
        (clampBaseFee lower upper p) (min gasUsed kip71Config.maxBlockGasUsedForBaseFee)) := by
  have hden : (if kip71Config.baseFeeDenominator = 0 then 64
      else kip71Config.baseFeeDenominator) ≠ 0 := by
    split
    · decide
    · assumption
  unfold nextBlockBaseFee movedBaseFee
  simp only [bigDiv_of_ne_zero htarget, bind, Except.bind, bigDiv_of_ne_zero hden]
  split
  · rfl
  · split
    · split <;> rfl
    · split <;> rfl

theorem nextBlockBaseFee_defined (h : kip71Config.gasTarget ≠ 0) :
    ∃ fee, nextBlockBaseFee parentHeader kip71Config lowerBoundBaseFee upperBoundBaseFee =
      .ok fee := by
  obtain ⟨_ | n, _ | p, used⟩ := parentHeader
  · exact ⟨_, rfl⟩
  · exact ⟨_, rfl⟩
  · exact ⟨_, rfl⟩
  · exact ⟨_, nextBlockBaseFee_eq kip71Config n.succ_ne_zero h _ _ _⟩

theorem nextBlockBaseFee_defined_iff {n : ℕ} :
    (∀ parent config lower upper, config.gasTarget = n →
      ∃ fee, nextBlockBaseFee parent config lower upper = .ok fee) ↔ n ≠ 0 := by
  constructor
  · rintro h rfl
    obtain ⟨fee, hfee⟩ := h ⟨1, some 1, 1⟩ ⟨0, 2, 0, 1, 20⟩ 0 2 rfl
    cases hfee
  · rintro hn parent config lower upper rfl
    exact nextBlockBaseFee_defined hn

theorem makeEvenByFloor_eq (n : ℕ) : makeEvenByFloor n = n - n % 2 := by
  unfold makeEvenByFloor
  split <;> omega

theorem makeEvenByCeil_even (n : ℕ) : makeEvenByCeil n % 2 = 0 := by
  unfold makeEvenByCeil
  split <;> omega

theorem makeEvenByFloor_mono {m n : ℕ} (h : m ≤ n) : makeEvenByFloor m ≤ makeEvenByFloor n := by
  rw [makeEvenByFloor_eq, makeEvenByFloor_eq]
  omega

theorem makeEvenByFloor_bounds {l u n : ℕ} (hl : makeEvenByCeil l ≤ n) (hu : n ≤ u) :
    makeEvenByFloor n % 2 = 0 ∧ makeEvenByCeil l ≤ makeEvenByFloor n ∧ makeEvenByFloor n ≤ u := by
  have heven := makeEvenByCeil_even l
  rw [makeEvenByFloor_eq]
  omega

variable (parentHeader : FeeHeader) (kip71Config : Kip71Config)

theorem nextMagmaBlockBaseFee_cases {kip71Config : Kip71Config}
    (htarget : kip71Config.gasTarget ≠ 0) :
    (parentHeader.number = 0 ∨ parentHeader.baseFee = none) ∧
      (∀ gasUsed, nextMagmaBlockBaseFee { parentHeader with gasUsed } kip71Config =
        .ok (makeEvenByFloor (makeEvenByCeil kip71Config.lowerBoundBaseFee))) ∨
    ∃ p, parentHeader.baseFee = some p ∧
      ∀ gasUsed, nextMagmaBlockBaseFee { parentHeader with gasUsed } kip71Config =
        .ok (makeEvenByFloor (movedBaseFee (makeEvenByCeil kip71Config.lowerBoundBaseFee)
          (makeEvenByFloor kip71Config.upperBoundBaseFee) kip71Config.gasTarget
          (if kip71Config.baseFeeDenominator = 0 then 64 else kip71Config.baseFeeDenominator)
          (clampBaseFee (makeEvenByCeil kip71Config.lowerBoundBaseFee)
            (makeEvenByFloor kip71Config.upperBoundBaseFee) p)
          (min gasUsed kip71Config.maxBlockGasUsedForBaseFee))) := by
  obtain ⟨number, baseFee, used⟩ := parentHeader
  rcases number with _ | n
  · exact .inl ⟨.inl rfl, fun _ ↦ rfl⟩
  · rcases baseFee with _ | p
    · exact .inl ⟨.inr rfl, fun _ ↦ rfl⟩
    · right
      use p, rfl
      intro gasUsed
      unfold nextMagmaBlockBaseFee
      dsimp only
      rw [nextBlockBaseFee_eq kip71Config (Nat.succ_ne_zero n) htarget]
      rfl

/-- The next base fee is even and within the bounds, does not fall with the gas used, and stays at
the target. -/
theorem nextMagmaBlockBaseFee_bounded_monotone (htarget : 0 < kip71Config.gasTarget)
    (hbounds : makeEvenByCeil kip71Config.lowerBoundBaseFee ≤
      makeEvenByFloor kip71Config.upperBoundBaseFee) :
    (∃ fee, nextMagmaBlockBaseFee parentHeader kip71Config = .ok fee ∧ fee % 2 = 0 ∧
      makeEvenByCeil kip71Config.lowerBoundBaseFee ≤ fee ∧
      fee ≤ makeEvenByFloor kip71Config.upperBoundBaseFee) ∧
    (∀ gasUsed fee fee', parentHeader.gasUsed ≤ gasUsed →
      nextMagmaBlockBaseFee parentHeader kip71Config = .ok fee →
      nextMagmaBlockBaseFee { parentHeader with gasUsed } kip71Config = .ok fee' → fee ≤ fee') ∧
    ∀ p, parentHeader.number ≠ 0 → parentHeader.baseFee = some p →
      min parentHeader.gasUsed kip71Config.maxBlockGasUsedForBaseFee = kip71Config.gasTarget →
      nextMagmaBlockBaseFee parentHeader kip71Config =
        .ok (makeEvenByFloor (clampBaseFee (makeEvenByCeil kip71Config.lowerBoundBaseFee)
          (makeEvenByFloor kip71Config.upperBoundBaseFee) p)) := by
  have hcases := nextMagmaBlockBaseFee_cases parentHeader (Nat.ne_of_gt htarget)
  rcases hcases with ⟨hnone, hlower⟩ | ⟨p, hp, hmoved⟩
  · constructor
    · exact ⟨_, hlower parentHeader.gasUsed, makeEvenByFloor_bounds le_rfl hbounds⟩
    · constructor
      · rintro gasUsed fee fee' - h h'
        rw [hlower] at h'
        cases (hlower parentHeader.gasUsed).symm.trans h
        cases h'
        exact le_rfl
      · rintro p hnumber hp -
        rcases hnone with h | h
        · exact absurd h hnumber
        · rw [h] at hp
          cases hp
  · have hclamp := clampBaseFee_bounds hbounds p
    constructor
    · refine ⟨_, hmoved parentHeader.gasUsed, ?_⟩
      apply makeEvenByFloor_bounds
      · exact (movedBaseFee_bounds hclamp.1 hclamp.2).1
      · exact (movedBaseFee_bounds hclamp.1 hclamp.2).2
    · constructor
      · rintro gasUsed fee fee' hgas h h'
        rw [hmoved] at h'
        cases (hmoved parentHeader.gasUsed).symm.trans h
        cases h'
        apply makeEvenByFloor_mono
        apply movedBaseFee_mono hclamp.1 hclamp.2
        omega
      · rintro p' - hp' htarget'
        rw [hp] at hp'
        cases hp'
        have h := hmoved parentHeader.gasUsed
        rw [htarget', movedBaseFee, if_pos rfl] at h
        exact h

/-- A parent that met the target with a fee of `9`. -/
theorem nextMagmaBlockBaseFee_at_target :
    nextMagmaBlockBaseFee ⟨1, some 9, 5⟩ ⟨1, 11, 5, 20, 4⟩ = .ok 8 :=
  (nextMagmaBlockBaseFee_bounded_monotone ⟨1, some 9, 5⟩ ⟨1, 11, 5, 20, 4⟩ (by decide)
    (by decide)).2.2 9 (by decide) rfl rfl

/-- A fee in the genesis header is not handed on: its child starts from the lower bound. -/
theorem genesis_fee_not_kept :
    nextMagmaBlockBaseFee ⟨0, some 8, 5⟩ ⟨1, 11, 5, 20, 4⟩ = .ok 2 ∧
      makeEvenByFloor (clampBaseFee (makeEvenByCeil 1) (makeEvenByFloor 11) 8) = 8 ∧
      min 5 20 = 5 :=
  ⟨rfl, rfl, rfl⟩

theorem two_le_baseFeeDelta_iff {difference : ℕ} (ht : 0 < target) (hd : 0 < denominator) :
    2 ≤ baseFeeDelta target denominator fee difference ↔
      2 * (target * denominator) ≤ fee * difference := by
  rw [baseFeeDelta, Nat.div_div_eq_div_mul, Nat.le_div_iff_mul_le (Nat.mul_pos ht hd)]

theorem makeEvenByFloor_movedBaseFee_above (hfee : fee % 2 = 0) (hupper : upper % 2 = 0)
    (hu : fee < upper) (h : target < used) :
    fee < makeEvenByFloor (movedBaseFee lower upper target denominator fee used) ↔
      2 ≤ baseFeeDelta target denominator fee (used - target) := by
  rw [makeEvenByFloor_eq, movedBaseFee, if_neg (by omega), if_pos h, if_neg (by omega)]
  dsimp only
  split <;> omega

/-- Under load the fee rises exactly when its step is at least two: evening undoes a step of one. -/
theorem nextMagmaBlockBaseFee_rises_iff {p : ℕ} (hnumber : parentHeader.number ≠ 0) (hp : parentHeader.baseFee = some p)
    (heven : p % 2 = 0) (hl : makeEvenByCeil kip71Config.lowerBoundBaseFee ≤ p)
    (hu : p < makeEvenByFloor kip71Config.upperBoundBaseFee)
    (htarget : 0 < kip71Config.gasTarget)
    (hload : kip71Config.gasTarget <
      min parentHeader.gasUsed kip71Config.maxBlockGasUsedForBaseFee) :
    (∃ fee, nextMagmaBlockBaseFee parentHeader kip71Config = .ok fee ∧ p < fee) ↔
      2 * (kip71Config.gasTarget *
        (if kip71Config.baseFeeDenominator = 0 then 64 else kip71Config.baseFeeDenominator)) ≤
      p * (min parentHeader.gasUsed kip71Config.maxBlockGasUsedForBaseFee -
        kip71Config.gasTarget) := by
  have hden : 0 < if kip71Config.baseFeeDenominator = 0 then 64
      else kip71Config.baseFeeDenominator := by
    split <;> omega
  have hupper : makeEvenByFloor kip71Config.upperBoundBaseFee % 2 = 0 := by
    rw [makeEvenByFloor_eq]
    omega
  rcases nextMagmaBlockBaseFee_cases parentHeader (Nat.ne_of_gt htarget) with
    ⟨hnone, -⟩ | ⟨p', hp', hmoved⟩
  · simp [hnumber, hp] at hnone
  · cases hp.symm.trans hp'
    have hclamp : clampBaseFee (makeEvenByCeil kip71Config.lowerBoundBaseFee)
        (makeEvenByFloor kip71Config.upperBoundBaseFee) p = p := by
      unfold clampBaseFee
      split
      · omega
      · split <;> omega
    rw [← two_le_baseFeeDelta_iff htarget hden,
      ← makeEvenByFloor_movedBaseFee_above heven hupper hu hload, hmoved parentHeader.gasUsed,
      hclamp]
    constructor
    · rintro ⟨fee, h, hlt⟩
      cases h
      exact hlt
    · intro h
      exact ⟨_, rfl, h⟩

/-- A fee of `80` after a block with three halves of the target, at a denominator of `20`. -/
theorem nextMagmaBlockBaseFee_rises_by_two :
    ∃ fee, nextMagmaBlockBaseFee ⟨1, some 80, 150⟩ ⟨2, 100, 100, 200, 20⟩ = .ok fee ∧ 80 < fee :=
  (nextMagmaBlockBaseFee_rises_iff ⟨1, some 80, 150⟩ ⟨2, 100, 100, 200, 20⟩ (by decide) rfl
    rfl (by decide) (by decide) (by decide) (by decide)).mpr (by decide)

/-- A fee of `2` stays where it is after a block over the target. -/
theorem small_fee_does_not_rise :
    nextMagmaBlockBaseFee ⟨1, some 2, 150⟩ ⟨2, 100, 100, 200, 20⟩ = .ok 2 ∧
      makeEvenByCeil 2 ≤ 2 ∧ 2 < makeEvenByFloor 100 ∧ 100 < min 150 200 :=
  ⟨rfl, by decide, by decide, by decide⟩

end Kaia
