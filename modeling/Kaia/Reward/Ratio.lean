import Kaia.Foundation.Shares
import Kaia.Governance.Votes

/-! # Reward ratios

The shares of the block reward are texts such as `34/54/12`. They are parsed when a reward is
computed, and every share is divided by their sum.
-/

namespace Kaia

open Foundation

/-- `strconv.ParseInt` in base ten for 64 bits, and `strconv.Atoi`. -/
def parseInt (t : Bytes) : Option ℤ :=
  match t with
  | 43 :: digits => if digits ≠ [] ∧ digits.all isDigit ∧ decimal digits < 2 ^ 63 then
      some (decimal digits) else none
  | 45 :: digits => if digits ≠ [] ∧ digits.all isDigit ∧ decimal digits ≤ 2 ^ 63 then
      some (-(decimal digits : ℤ)) else none
  | digits => if digits ≠ [] ∧ digits.all isDigit ∧ decimal digits < 2 ^ 63 then
      some (decimal digits) else none

inductive RatioErr
  | invalidFormat | parsingRatio
  deriving DecidableEq

/-- `parseRewardRatio`: the three shares and their sum. -/
def parseRewardRatio (ratio : Bytes) : Except RatioErr (ℤ × ℤ × ℤ × ℤ) :=
  match ratio.splitOn 47 with
  | [s₀, s₁, s₂] =>
    match parseInt s₀, parseInt s₁, parseInt s₂ with
    | some cn, some kif, some kef => .ok (cn, kif, kef, int64 (cn + kif + kef))
    | _, _, _ => .error .parsingRatio
  | _ => .error .invalidFormat

/-- `parseRewardKip82Ratio`: the two shares and their sum. -/
def parseRewardKip82Ratio (ratio : Bytes) : Except RatioErr (ℤ × ℤ × ℤ) :=
  match ratio.splitOn 47 with
  | [s₀, s₁] =>
    match parseInt s₀, parseInt s₁ with
    | some proposer, some stakers => .ok (proposer, stakers, int64 (proposer + stakers))
    | _, _ => .error .parsingRatio
  | _ => .error .invalidFormat

def splitShare (source ratio total : ℤ) : Except GoPanic ℤ :=
  if total = 0 then .error .divideByZero else .ok (source * ratio / total)

def splitByRatio (rc : ℤ × ℤ × ℤ × ℤ) (source : ℤ) : Except GoPanic (ℤ × ℤ × ℤ) := do
  let (cnRatio, kifRatio, kefRatio, totalRatio) := rc
  let cn ← splitShare source cnRatio totalRatio
  let kif ← splitShare source kifRatio totalRatio
  let kef ← splitShare source kefRatio totalRatio
  .ok (cn, kif, kef)

def splitByKip82Ratio (rc : ℤ × ℤ × ℤ) (source : ℤ) : Except GoPanic (ℤ × ℤ) := do
  let (cnProposerRatio, cnStakingRatio, cnTotalRatio) := rc
  let proposer ← splitShare source cnProposerRatio cnTotalRatio
  let stakers ← splitShare source cnStakingRatio cnTotalRatio
  .ok (proposer, stakers)

variable {t : Bytes} {n : ℕ} {count : ℕ}

theorem parseInt_of_parseUint (h : parseUint t = some n) :
    parseInt t = if n < 2 ^ 63 then some (n : ℤ) else none := by
  obtain ⟨⟨hne, hdigits, -⟩, hn⟩ := Option.ite_none_right_eq_some.mp h
  obtain rfl := Option.some.inj hn
  unfold parseInt
  split
  · simp [isDigit] at hdigits
  · simp [isDigit] at hdigits
  · simp only [hne, hdigits, ne_eq, not_false_eq_true, true_and]

theorem checkShares_eq_true_iff : checkShares count t = true ↔
    ∃ shares, (t.splitOn 47).mapM parseUint = some shares ∧ (t.splitOn 47).length = count ∧
      uint64 shares.sum = 100 := by
  unfold checkShares
  cases (t.splitOn 47).mapM parseUint <;> simp

theorem int64_of_uint64 (h : uint64 n = 100) : int64 n = 100 := by
  unfold uint64 at h
  unfold int64
  rw [Int.bmod_def]
  omega

def sharesSum (t : Bytes) : Option ℕ := ((t.splitOn 47).mapM parseUint).map List.sum

/-- All shares of a ratio fit into signed words. -/
def SignedShares (t : Bytes) : Prop :=
  ∀ s ∈ t.splitOn 47, ∀ n, parseUint s = some n → n < 2 ^ 63

theorem parseRewardRatio_of_check (h : checkRatio t = true) : ∃ n₀ n₁ n₂ : ℕ,
    sharesSum t = some (n₀ + n₁ + n₂) ∧ uint64 (n₀ + n₁ + n₂) = 100 ∧
    (SignedShares t ↔ n₀ < 2 ^ 63 ∧ n₁ < 2 ^ 63 ∧ n₂ < 2 ^ 63) ∧
    parseRewardRatio t = if n₀ < 2 ^ 63 ∧ n₁ < 2 ^ 63 ∧ n₂ < 2 ^ 63 then
      .ok (n₀, n₁, n₂, 100) else .error .parsingRatio := by
  obtain ⟨shares, hm, hlen, hsum⟩ := checkShares_eq_true_iff.mp h
  obtain ⟨s₀, s₁, s₂, hparts⟩ := List.length_eq_three.mp hlen
  rw [hparts, mapM_eq_some] at hm
  obtain _ | @⟨_, n₀, _, _, h₀, _ | @⟨_, n₁, _, _, h₁, _ | @⟨_, n₂, _, _, h₂, ⟨⟩⟩⟩⟩ := hm
  rw [List.sum_cons, List.sum_cons, List.sum_singleton, ← Nat.add_assoc] at hsum
  refine ⟨n₀, n₁, n₂, by simp [sharesSum, hparts, h₀, h₁, h₂, Nat.add_assoc], hsum,
    by simp [SignedShares, hparts, h₀, h₁, h₂], ?_⟩
  have htotal := int64_of_uint64 hsum
  push_cast at htotal
  rw [parseRewardRatio, hparts]
  dsimp only
  rw [parseInt_of_parseUint h₀, parseInt_of_parseUint h₁, parseInt_of_parseUint h₂]
  by_cases n₀ < 2 ^ 63 <;> by_cases n₁ < 2 ^ 63 <;> by_cases n₂ < 2 ^ 63 <;>
    simp only [*, and_self, and_true, and_false, if_true, if_false]

theorem parseRewardKip82Ratio_of_check (h : checkKip82Ratio t = true) : ∃ n₀ n₁ : ℕ,
    sharesSum t = some (n₀ + n₁) ∧ uint64 (n₀ + n₁) = 100 ∧
    (SignedShares t ↔ n₀ < 2 ^ 63 ∧ n₁ < 2 ^ 63) ∧
    parseRewardKip82Ratio t = if n₀ < 2 ^ 63 ∧ n₁ < 2 ^ 63 then .ok (n₀, n₁, 100)
      else .error .parsingRatio := by
  obtain ⟨shares, hm, hlen, hsum⟩ := checkShares_eq_true_iff.mp h
  obtain ⟨s₀, s₁, hparts⟩ := List.length_eq_two.mp hlen
  rw [hparts, mapM_eq_some] at hm
  obtain _ | @⟨_, n₀, _, _, h₀, _ | @⟨_, n₁, _, _, h₁, ⟨⟩⟩⟩ := hm
  rw [List.sum_cons, List.sum_singleton] at hsum
  refine ⟨n₀, n₁, by simp [sharesSum, hparts, h₀, h₁], hsum,
    by simp [SignedShares, hparts, h₀, h₁], ?_⟩
  have htotal := int64_of_uint64 hsum
  push_cast at htotal
  rw [parseRewardKip82Ratio, hparts]
  dsimp only
  rw [parseInt_of_parseUint h₀, parseInt_of_parseUint h₁]
  by_cases n₀ < 2 ^ 63 <;> by_cases n₁ < 2 ^ 63 <;>
    simp only [*, and_self, and_true, and_false, if_true, if_false]

theorem splitByRatio_eq {cn kif kef total : ℤ} (source : ℤ) (h : total ≠ 0) :
    splitByRatio (cn, kif, kef, total) source =
      .ok (share source total cn, share source total kif, share source total kef) := by
  simp only [splitByRatio, splitShare, if_neg h, bind, Except.bind]
  rfl

theorem splitByKip82Ratio_eq {proposer stakers total : ℤ} (source : ℤ) (h : total ≠ 0) :
    splitByKip82Ratio (proposer, stakers, total) source =
      .ok (share source total proposer, share source total stakers) := by
  simp only [splitByKip82Ratio, splitShare, if_neg h, bind, Except.bind]
  rfl

/-- Shares are parsed as parts of one hundred, and split amounts into parts of the whole. -/
def RatioWhole (t : Bytes) : Prop :=
  ∃ cn kif kef, parseRewardRatio t = .ok (cn, kif, kef, 100) ∧
    (0 ≤ cn ∧ cn ≤ 100) ∧ (0 ≤ kif ∧ kif ≤ 100) ∧ (0 ≤ kef ∧ kef ≤ 100) ∧
    ∀ source, 0 ≤ source → ∃ a b c, splitByRatio (cn, kif, kef, 100) source = .ok (a, b, c) ∧
      (0 ≤ a ∧ a ≤ source) ∧ (0 ≤ b ∧ b ≤ source) ∧ (0 ≤ c ∧ c ≤ source) ∧ a + b + c ≤ source

def Kip82RatioWhole (t : Bytes) : Prop :=
  ∃ proposer stakers, parseRewardKip82Ratio t = .ok (proposer, stakers, 100) ∧
    (0 ≤ proposer ∧ proposer ≤ 100) ∧ (0 ≤ stakers ∧ stakers ≤ 100) ∧
    ∀ source, 0 ≤ source → ∃ a b, splitByKip82Ratio (proposer, stakers, 100) source = .ok (a, b) ∧
      (0 ≤ a ∧ a ≤ source) ∧ (0 ≤ b ∧ b ≤ source) ∧ a + b ≤ source

theorem ratioWhole_iff (h : checkRatio t = true) : RatioWhole t ↔ sharesSum t = some 100 := by
  obtain ⟨n₀, n₁, n₂, hshares, hsum, -, hparse⟩ := parseRewardRatio_of_check h
  rw [hshares, Option.some.injEq]
  constructor
  · rintro ⟨cn, kif, kef, hok, hcn, hkif, hkef, -⟩
    rw [hok] at hparse
    split at hparse
    · cases hparse
      unfold uint64 at hsum
      omega
    · cases hparse
  · intro hhundred
    rw [if_pos (by omega)] at hparse
    refine ⟨n₀, n₁, n₂, hparse, by omega, by omega, by omega, ?_⟩
    intro source hs
    have hparts : ([(n₀ : ℤ), n₁, n₂].map (share source 100)).sum ≤ source :=
      sum_share_le hs (by decide) (by simp; omega)
    have ha : 0 ≤ share source 100 n₀ := share_nonneg hs (by decide) (by omega)
    have hb : 0 ≤ share source 100 n₁ := share_nonneg hs (by decide) (by omega)
    have hc : 0 ≤ share source 100 n₂ := share_nonneg hs (by decide) (by omega)
    simp only [List.map_cons, List.map_nil, List.sum_cons, List.sum_nil] at hparts
    refine ⟨_, _, _, splitByRatio_eq source (by decide), ?_⟩
    omega

theorem kip82RatioWhole_iff (h : checkKip82Ratio t = true) :
    Kip82RatioWhole t ↔ sharesSum t = some 100 := by
  obtain ⟨n₀, n₁, hshares, hsum, -, hparse⟩ := parseRewardKip82Ratio_of_check h
  rw [hshares, Option.some.injEq]
  constructor
  · rintro ⟨proposer, stakers, hok, hproposer, hstakers, -⟩
    rw [hok] at hparse
    split at hparse
    · cases hparse
      unfold uint64 at hsum
      omega
    · cases hparse
  · intro hhundred
    rw [if_pos (by omega)] at hparse
    refine ⟨n₀, n₁, hparse, by omega, by omega, ?_⟩
    intro source hs
    have hparts : ([(n₀ : ℤ), n₁].map (share source 100)).sum ≤ source :=
      sum_share_le hs (by decide) (by simp; omega)
    have ha : 0 ≤ share source 100 n₀ := share_nonneg hs (by decide) (by omega)
    have hb : 0 ≤ share source 100 n₁ := share_nonneg hs (by decide) (by omega)
    simp only [List.map_cons, List.map_nil, List.sum_cons, List.sum_nil] at hparts
    refine ⟨_, _, splitByKip82Ratio_eq source (by decide), ?_⟩
    omega

/-- An accepted ratio divides the whole just when its shares sum up without wrapping. -/
theorem accepted_ratio_whole_iff (t : Bytes) :
    ((checkRatio t = true → RatioWhole t) ∧ (checkKip82Ratio t = true → Kip82RatioWhole t)) ↔
      (checkRatio t = true ∨ checkKip82Ratio t = true → sharesSum t = some 100) := by
  constructor
  · rintro ⟨hratio, hkip82⟩ (h | h)
    · exact (ratioWhole_iff h).mp (hratio h)
    · exact (kip82RatioWhole_iff h).mp (hkip82 h)
  · intro hsum
    constructor
    · intro h
      exact (ratioWhole_iff h).mpr (hsum (.inl h))
    · intro h
      exact (kip82RatioWhole_iff h).mpr (hsum (.inr h))

/-- A ratio that is accepted, parsed, and gives far more than there is. -/
theorem accepted_ratio_exceeds_whole : let nines : Bytes :=
      [57, 50, 50, 51, 51, 55, 50, 48, 51, 54, 56, 53, 52, 55, 55, 53, 56, 48, 55]
    let t := nines ++ 47 :: nines ++ [47, 49, 48, 50]
    checkRatio t = true ∧
      parseRewardRatio t = .ok (2 ^ 63 - 1, 2 ^ 63 - 1, 102, 100) ∧
      splitByRatio (2 ^ 63 - 1, 2 ^ 63 - 1, 102, 100) 100 = .ok (2 ^ 63 - 1, 2 ^ 63 - 1, 102) := by
  decide +kernel

end Kaia
