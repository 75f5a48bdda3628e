import Kaia.Reward.Conservation

/-! # Rewards whose sums overflow

A sum of ratios or stakes that is no machine word is replaced by a smaller one. Shares are divided by
it, and exceed the amount that is shared.
-/

namespace Kaia.Reward

open Foundation

/-- Fork rules before any fork, but for Kore. -/
def plainRules (isKore : Bool) : Params.Rules where
  chainID := 0
  isIstanbul := false
  isLondon := false
  isEthTxType := false
  isMagma := false
  isKore := isKore
  isShanghai := false
  isCancun := false
  isKaia := false
  isRandao := false

/-- A block without fees. -/
def feeless (isKore : Bool) (ratio kip82Ratio : Bytes) (minted minimumStake : ℤ)
    (stakingInfo : Option StakingInfo) : RewardInput where
  header := ⟨0, 0, none, 0⟩
  txs := []
  receipts := []
  rules := plainRules isKore
  pset := ⟨weightedRandom, 0, minted, minimumStake, ratio, kip82Ratio, false⟩
  getStakingInfo := fun _ => stakingInfo

variable {rc : RewardConfig} {minted fee cn kif kef total proposer stakers cnTotal : ℤ}

theorem calcSplit_of_isKore (hkore : rc.rules.isKore = true)
    (hratio : rc.ratio = (cn, kif, kef, total)) (ht : total ≠ 0)
    (hkip82 : rc.kip82Ratio = (proposer, stakers, cnTotal)) (hcnt : cnTotal ≠ 0) :
    ∃ rest, calcSplit rc minted fee =
      .ok (share (share minted total cn) cnTotal proposer + fee,
        share (share minted total cn) cnTotal stakers, share minted total kif,
        share minted total kef, rest) := by
  unfold calcSplit
  rw [hkore, hratio, hkip82, splitByRatio_eq _ ht]
  dsimp only [bind, Except.bind]
  rw [splitByKip82Ratio_eq _ hcnt]
  exact ⟨_, rfl⟩

variable {isKore : Bool} {ratio kip82Ratio : Bytes} {minimumStake : ℤ}
  {stakingInfo : Option StakingInfo}

theorem feeless_proper (hminted : 0 ≤ minted) (hratio : ProperRatio ratio)
    (hkip82 : ProperKip82Ratio kip82Ratio) :
    (feeless isKore ratio kip82Ratio minted minimumStake stakingInfo).Proper :=
  ⟨hminted, ⟨0, rfl, le_rfl⟩, hratio, fun _ => hkip82⟩

variable {rc : ℤ × ℤ × ℤ × ℤ} {kip82 : ℤ × ℤ × ℤ}

theorem newRewardConfig_feeless (hratio : parseRewardRatio ratio = .ok rc)
    (hkip82 : (if isKore then (parseRewardKip82Ratio kip82Ratio).mapError RewardErr.ratio
      else .ok (0, 0, 0)) = .ok kip82) :
    newRewardConfig ⟨0, 0, none, 0⟩ [] [] (plainRules isKore)
      ⟨weightedRandom, 0, minted, minimumStake, ratio, kip82Ratio, false⟩ =
        .ok ⟨plainRules isKore, 0, minted, minimumStake, false, rc, kip82⟩ := by
  unfold newRewardConfig
  have hkore : (plainRules isKore).isKore = isKore := rfl
  rw [hratio, hkore, hkip82]
  rfl

theorem feeless_conserved
    (h : (feeless isKore ratio kip82Ratio minted minimumStake stakingInfo).Conserved)
    (hratio : parseRewardRatio ratio = .ok rc)
    (hkip82 : (if isKore then (parseRewardKip82Ratio kip82Ratio).mapError RewardErr.ratio
      else .ok (0, 0, 0)) = .ok kip82) :
    ∃ split shares shareRem,
      calcSplit ⟨plainRules isKore, 0, minted, minimumStake, false, rc, kip82⟩ minted 0 = .ok split ∧
      calcShares stakingInfo split.2.1 (UInt64.ofNat minimumStake.natAbs) = .ok (shares, shareRem) ∧
      (assembleSpec (.plain _ _) 0 stakingInfo minted 0 0 split shares shareRem).Balanced := by
  have hcalc := (h (.plain _ _) fun _ => none).1
  obtain ⟨spec, hspec, hbalanced⟩ := hcalc.exists_ok
  unfold calcDeferredReward at hspec
  obtain ⟨_, hrc, hspec⟩ := bind_eq_ok.mp hspec
  obtain rfl := Except.ok.inj ((newRewardConfig_feeless hratio hkip82).symm.trans hrc)
  obtain ⟨_, hfees, hspec⟩ := bind_eq_ok.mp hspec
  obtain rfl := Except.ok.inj hfees
  obtain ⟨split, hsplit, hspec⟩ := bind_eq_ok.mp hspec
  obtain ⟨⟨shares, shareRem⟩, hshares, hspec⟩ := bind_eq_ok.mp hspec
  obtain rfl := Except.ok.inj hspec
  exact ⟨split, shares, shareRem, mapError_eq_ok.mp hsplit, mapError_eq_ok.mp hshares, hbalanced⟩

def fundsOnly : StakingInfo := ⟨[], 1, 2⟩

def nodesOnly : Bytes := [49, 48, 48, 47, 48, 47, 48]

def stakersOnly : Bytes := [48, 47, 49, 48, 48]

theorem parse_nodesOnly : parseRewardRatio nodesOnly = .ok (100, 0, 0, 100) := by decide +kernel

theorem parse_stakersOnly : parseRewardKip82Ratio stakersOnly = .ok (0, 100, 100) := by decide +kernel

theorem nodesOnly_proper : ProperRatio nodesOnly :=
  ⟨100, 0, 0, 100, parse_nodesOnly, by decide, by decide, by decide, by decide⟩

theorem stakersOnly_proper : ProperKip82Ratio stakersOnly :=
  ⟨0, 100, 100, parse_stakersOnly, by decide, by decide, by decide⟩

theorem nodesOnly_fits : RatioFits nodesOnly := by
  rintro cn kif kef total h
  obtain ⟨rfl, rfl, rfl, rfl⟩ := by simpa using parse_nodesOnly.symm.trans h
  decide

theorem stakersOnly_fits : Kip82RatioFits stakersOnly := by
  rintro proposer stakers total h
  obtain ⟨rfl, rfl, rfl⟩ := by simpa using parse_stakersOnly.symm.trans h
  decide

theorem fundsOnly_fit (minStake : UInt64) : StakesFit (some fundsOnly) minStake := by
  rintro info h
  obtain rfl := Option.some.inj h
  exact Nat.two_pow_pos 64

theorem share_all (amount : ℤ) : share amount 100 100 = amount :=
  Int.mul_ediv_cancel amount (by decide)

/-- A sum of ratios that overflows gives somebody a negative amount, or divides by zero. -/
theorem exists_not_conserved_of_ratio (h : ProperRatio ratio) (hfit : ¬ RatioFits ratio) :
    ∃ minted, 0 ≤ minted ∧
      ¬ (feeless false ratio stakersOnly minted 0 (some fundsOnly)).Conserved := by
  obtain ⟨cn, kif, kef, total, hparse, hcn, hkif, hkef, -⟩ := h
  have hsum : 2 ^ 63 ≤ cn + kif + kef := by
    by_contra hlt
    refine hfit fun cn' kif' kef' total' hparse' => ?_
    obtain ⟨rfl, rfl, rfl, rfl⟩ := by simpa using hparse.symm.trans hparse'
    exact not_le.mp hlt
  obtain ⟨hltcn, hltkif, hltkef, htotal⟩ := parseRewardRatio_eq_ok hparse
  have hle : total + 2 ^ 64 ≤ cn + kif + kef := htotal ▸ int64_add_le hsum
  refine ⟨|total|, abs_nonneg total, fun hconserved => ?_⟩
  obtain ⟨split, shares, shareRem, hsplit, hshares, hbalanced⟩ :=
    feeless_conserved hconserved hparse rfl
  have hne : total ≠ 0 := by
    rintro rfl
    cases hsplit
  simp only [calcSplit, plainRules, Bool.false_eq_true, if_false, splitByRatio_eq _ hne] at hsplit
  obtain rfl := Except.ok.inj hsplit
  obtain ⟨rfl, rfl⟩ := Prod.mk.inj (Except.ok.inj hshares)
  have hproposer : 0 ≤ share (|total| + 0) total cn + 0 := hbalanced.proposer_nonneg
  have hkefpos : 0 ≤ share (|total| + 0) total kef := hbalanced.kef_nonneg
  -- the fund with the rest gets what the two other parts leave
  have hkifpos : 0 ≤ share (|total| + 0) total kif + (|total| + 0 - share (|total| + 0) total kif -
      share (|total| + 0) total kef - share (|total| + 0) total cn) := hbalanced.kif_nonneg
  rw [add_zero] at hproposer hkefpos hkifpos
  rw [add_zero] at hproposer
  rcases lt_or_gt_of_ne hne with hneg | hpos
  · rw [abs_of_neg hneg, share_neg_self hne] at hproposer hkefpos
    omega
  · rw [abs_of_pos hpos, share_self hne, share_self hne, share_self hne] at hkifpos
    omega

/-- A sum of the ratios of the nodes that overflows is negative, and so is the part of the
proposer. -/
theorem exists_not_conserved_of_kip82Ratio (h : ProperKip82Ratio kip82Ratio)
    (hfit : ¬ Kip82RatioFits kip82Ratio) : ∃ minted, 0 ≤ minted ∧
      ¬ (feeless true nodesOnly kip82Ratio minted 0 (some fundsOnly)).Conserved := by
  obtain ⟨proposer, stakers, total, hparse, hproposer, hstakers, -⟩ := h
  have hsum : 2 ^ 63 ≤ proposer + stakers := by
    by_contra hlt
    refine hfit fun proposer' stakers' total' hparse' => ?_
    obtain ⟨rfl, rfl, rfl⟩ := by simpa using hparse.symm.trans hparse'
    exact not_le.mp hlt
  obtain ⟨hltp, hlts, htotal⟩ := parseRewardKip82Ratio_eq_ok hparse
  have hle : total + 2 ^ 64 ≤ proposer + stakers := htotal ▸ int64_add_le hsum
  have hneg : total < 0 := by omega
  refine ⟨-total, by omega, fun hconserved => ?_⟩
  obtain ⟨split, shares, shareRem, hsplit, hshares, hbalanced⟩ :=
    feeless_conserved hconserved parse_nodesOnly (by rw [if_pos rfl, hparse]; rfl)
  obtain ⟨rest, hrest⟩ := @calcSplit_of_isKore
    ⟨plainRules true, 0, -total, 0, false, (100, 0, 0, 100), (proposer, stakers, total)⟩ (-total) 0
    100 0 0 100 proposer stakers total rfl rfl (by decide) rfl hneg.ne
  rw [hrest] at hsplit
  obtain rfl := Except.ok.inj hsplit
  obtain ⟨rfl, rfl⟩ := Prod.mk.inj (Except.ok.inj hshares)
  have hpos : 0 ≤ share (share (-total) 100 100) total proposer + 0 +
      share (share (-total) 100 100) total stakers := hbalanced.proposer_nonneg
  rw [share_all, share_neg_self hneg.ne, share_neg_self hneg.ne] at hpos
  omega

theorem total_ne_zero_of_addShare {stakeReward : ℤ} {minStake total : UInt64}
    {nodes : List CouncilNode} {acc shares : Rewards × ℤ}
    (h : nodes.foldlM (addShare stakeReward minStake total) acc = .ok shares) :
    ∀ node ∈ nodes, minStake < node.stakingAmount → total ≠ 0 := by
  induction nodes generalizing acc with
  | nil => exact fun node hnode => absurd hnode List.not_mem_nil
  | cons node nodes ih =>
    rw [List.foldlM_cons] at h
    obtain ⟨acc', hstep, h⟩ := bind_eq_ok.mp h
    refine List.forall_mem_cons.mpr ⟨?_, ih h⟩
    rintro hstake rfl
    rw [addShare, if_pos hstake] at hstep
    cases hstep

/-- A sum of stakes that overflows: the shares exceed what there is, or nothing can be divided. -/
theorem exists_not_conserved_of_stakes
    (hfit : ¬ StakesFit stakingInfo (UInt64.ofNat minimumStake.natAbs)) : ∃ minted, 0 ≤ minted ∧
      ¬ (feeless true nodesOnly stakersOnly minted minimumStake stakingInfo).Conserved := by
  unfold StakesFit at hfit
  push Not at hfit
  obtain ⟨info, rfl, hsum⟩ := hfit
  generalize hT : totalStakes info.consolidated (UInt64.ofNat minimumStake.natAbs) = total
  refine ⟨total.toNat, Int.natCast_nonneg _, fun hconserved => ?_⟩
  obtain ⟨split, shares, shareRem, hsplit, hshares, hbalanced⟩ :=
    feeless_conserved hconserved parse_nodesOnly (by rw [if_pos rfl, parse_stakersOnly]; rfl)
  -- the stakers are to get the total of the stakes
  obtain ⟨rest, hrest⟩ := @calcSplit_of_isKore
    ⟨plainRules true, 0, total.toNat, minimumStake, false, (100, 0, 0, 100), (0, 100, 100)⟩
    total.toNat 0 100 0 0 100 0 100 100 rfl rfl (by decide) rfl (by decide)
  rw [hrest] at hsplit
  obtain rfl := Except.ok.inj hsplit
  have hone : share (share total.toNat 100 100) 100 100 = total.toNat := by
    rw [share_all, share_all]
  have hstaked := total_ne_zero_of_addShare hshares
  obtain ⟨shares', hshares', -⟩ :=
    calcShares_some info (hone ▸ Int.natCast_nonneg total.toNat) hstaked
  obtain ⟨-, hrem⟩ := Prod.mk.inj (Except.ok.inj (hshares'.symm.trans hshares))
  rw [hT] at hrem hstaked
  have hne : total ≠ 0 := by
    intro hzero
    have hnone : (info.consolidated.map
        (stakeAbove (UInt64.ofNat minimumStake.natAbs))).sum = 0 := by
      refine List.sum_eq_zero ?_
      rintro _ hx
      obtain ⟨node, hnode, rfl⟩ := List.mem_map.mp hx
      exact stakeAbove_eq_zero fun hstake => hstaked node hnode hstake hzero
    omega
  -- every share is the stake itself
  have hsharesum : (info.consolidated.map (nodeShare (share (share total.toNat 100 100) 100 100)
      (UInt64.ofNat minimumStake.natAbs) total)).sum =
        ((info.consolidated.map (stakeAbove (UInt64.ofNat minimumStake.natAbs))).sum : ℕ) := by
    rw [hone, Nat.cast_list_sum, List.map_map]
    refine congrArg List.sum (List.map_congr_left fun node _ => ?_)
    exact share_self fun hzero => hne (UInt64.toNat_inj.mp (Int.natCast_eq_zero.mp hzero))
  rw [hsharesum] at hrem
  have hle := hbalanced.stakers_le
  simp only [assembleSpec] at hle
  have hlt := total.toNat_lt
  omega

/-- Rewards are conserved exactly if the sum fits into its word, where the other sums fit. -/
theorem rewards_conserved_iff (ratio kip82Ratio : Bytes) (stakingInfo : Option StakingInfo)
    (minimumStake : ℤ) (hratio : ProperRatio ratio) (hkip82 : ProperKip82Ratio kip82Ratio) :
    ((∀ i : RewardInput, i.Proper → i.pset.ratio = ratio →
        (i.rules.isKore = true → Kip82RatioFits i.pset.kip82Ratio) →
        StakesFit i.stakingInfo i.minStake → i.Conserved) ↔ RatioFits ratio) ∧
    ((∀ i : RewardInput, i.Proper → i.rules.isKore = true → i.pset.kip82Ratio = kip82Ratio →
        RatioFits i.pset.ratio → StakesFit i.stakingInfo i.minStake → i.Conserved) ↔
      Kip82RatioFits kip82Ratio) ∧
    ((∀ i : RewardInput, i.Proper → i.stakingInfo = stakingInfo →
        i.pset.minimumStake = minimumStake → RatioFits i.pset.ratio →
        (i.rules.isKore = true → Kip82RatioFits i.pset.kip82Ratio) → i.Conserved) ↔
      StakesFit stakingInfo (UInt64.ofNat minimumStake.natAbs)) := by
  refine ⟨⟨?_, ?_⟩, ⟨?_, ?_⟩, ⟨?_, ?_⟩⟩
  · intro h
    by_contra hfit
    obtain ⟨minted, hminted, hnot⟩ := exists_not_conserved_of_ratio hratio hfit
    exact hnot (h _ (feeless_proper hminted hratio stakersOnly_proper) rfl nofun (fundsOnly_fit _))
  · rintro hfit i hproper rfl hkip hstakes
    exact RewardInput.Regular.conserved ⟨hproper, hfit, hkip⟩ hstakes
  · intro h
    by_contra hfit
    obtain ⟨minted, hminted, hnot⟩ := exists_not_conserved_of_kip82Ratio hkip82 hfit
    exact hnot (h _ (feeless_proper hminted nodesOnly_proper hkip82) rfl rfl nodesOnly_fits
      (fundsOnly_fit _))
  · rintro hfit i hproper - rfl hrat hstakes
    exact RewardInput.Regular.conserved ⟨hproper, hrat, fun _ => hfit⟩ hstakes
  · intro h
    by_contra hfit
    obtain ⟨minted, hminted, hnot⟩ := exists_not_conserved_of_stakes hfit
    exact hnot (h _ (feeless_proper hminted nodesOnly_proper stakersOnly_proper) rfl rfl
      nodesOnly_fits fun _ => stakersOnly_fits)
  · rintro hfit i hproper rfl rfl hrat hkip
    exact RewardInput.Regular.conserved ⟨hproper, hrat, hkip⟩ hfit

theorem nodesOnly_stakersOnly_conserved :
    (∀ i : RewardInput, i.Proper → i.pset.ratio = nodesOnly →
        (i.rules.isKore = true → Kip82RatioFits i.pset.kip82Ratio) →
        StakesFit i.stakingInfo i.minStake → i.Conserved) ∧
    ∀ i : RewardInput, i.Proper → i.rules.isKore = true → i.pset.kip82Ratio = stakersOnly →
        RatioFits i.pset.ratio → StakesFit i.stakingInfo i.minStake → i.Conserved := by
  have h := rewards_conserved_iff nodesOnly stakersOnly none 0 nodesOnly_proper stakersOnly_proper
  exact ⟨h.1.mpr nodesOnly_fits, h.2.1.mpr stakersOnly_fits⟩

def halves : StakingInfo := ⟨[⟨1, 2 ^ 63⟩, ⟨2, 2 ^ 63⟩], 3, 4⟩

/-- The total of the stakes is zero, and the shares are divided by it. -/
theorem halves_divide_by_zero :
    (feeless true nodesOnly stakersOnly 100 0 (some halves)).Proper ∧
    calcDeferredReward (.plain _ _) (fun _ => some halves) ⟨0, 0, none, 0⟩ [] [] (plainRules true)
      ⟨weightedRandom, 0, 100, 0, nodesOnly, stakersOnly, false⟩ =
        .error (.panic .divideByZero) := by
  refine ⟨feeless_proper (by decide) nodesOnly_proper stakersOnly_proper, ?_⟩
  have hsplit : calcSplit ⟨plainRules true, 0, 100, 0, false, (100, 0, 0, 100), (0, 100, 100)⟩ 100
      0 = .ok (0, 100, 0, 0, 0) := by decide +kernel
  have hshares : calcShares (some halves) 100 (UInt64.ofNat (Int.natAbs 0)) =
      .error .divideByZero := by decide +kernel
  have hkip82 : (if true then (parseRewardKip82Ratio stakersOnly).mapError RewardErr.ratio
      else .ok (0, 0, 0)) = .ok (0, 100, 100) := by rw [if_pos rfl, parse_stakersOnly]; rfl
  unfold calcDeferredReward
  rw [newRewardConfig_feeless parse_nodesOnly hkip82]
  simp only [bind, Except.bind, calcDeferredFee, Bool.false_eq_true, not_false_eq_true, if_true,
    Except.mapError, hsplit, hshares]

end Kaia.Reward
