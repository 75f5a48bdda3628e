import Mathlib
import Kaia.Foundation.Outcomes
import Kaia.Foundation.Shares
import Kaia.Reward.Distributor

/-! # Conservation of rewards

What is minted, with the fees that are not burnt, is what the receivers get. The ratios are summed
up in signed words and the stakes in an unsigned one, and have to fit.
-/

namespace Kaia.Reward

open Foundation List

/-- The parts of a reward are what there is to pay, and what is paid. -/
structure RewardSpec.Balanced (spec : RewardSpec) : Prop where
  parts : spec.minted + spec.totalFee - spec.burntFee =
    spec.proposer + spec.stakers + spec.kif + spec.kef
  paid : spec.proposer + spec.stakers + spec.kif + spec.kef = sumValues spec.rewards
  minted_nonneg : 0 ≤ spec.minted
  totalFee_nonneg : 0 ≤ spec.totalFee
  burntFee_nonneg : 0 ≤ spec.burntFee
  proposer_nonneg : 0 ≤ spec.proposer
  stakers_nonneg : 0 ≤ spec.stakers
  kif_nonneg : 0 ≤ spec.kif
  kef_nonneg : 0 ≤ spec.kef
  rewards_nonneg : ∀ addr amount, spec.rewards.lookup addr = some amount → 0 ≤ amount
  burntFee_le : spec.burntFee ≤ spec.totalFee

variable {spec : RewardSpec} {source : ℤ}

theorem RewardSpec.Balanced.stakers_le (h : spec.Balanced) :
    spec.stakers ≤ spec.minted + spec.totalFee - spec.burntFee := by
  have hproposer := h.proposer_nonneg
  have hkif := h.kif_nonneg
  have hkef := h.kef_nonneg
  rw [h.parts]
  linarith

section Ratios

variable (t : Bytes)

/-- Three shares that are not negative and not all zero. -/
def ProperRatio : Prop :=
  ∃ cn kif kef total, parseRewardRatio t = .ok (cn, kif, kef, total) ∧
    0 ≤ cn ∧ 0 ≤ kif ∧ 0 ≤ kef ∧ 0 < cn + kif + kef

def ProperKip82Ratio : Prop :=
  ∃ proposer stakers total, parseRewardKip82Ratio t = .ok (proposer, stakers, total) ∧
    0 ≤ proposer ∧ 0 ≤ stakers ∧ 0 < proposer + stakers

/-- The sum of the shares is a signed word. -/
def RatioFits : Prop :=
  ∀ cn kif kef total, parseRewardRatio t = .ok (cn, kif, kef, total) → cn + kif + kef < 2 ^ 63

def Kip82RatioFits : Prop :=
  ∀ proposer stakers total, parseRewardKip82Ratio t = .ok (proposer, stakers, total) →
    proposer + stakers < 2 ^ 63

variable {t : Bytes} {cn kif kef proposer stakers total : ℤ}

theorem parseInt_lt {n : ℤ} (h : parseInt t = some n) : n < 2 ^ 63 := by
  unfold parseInt at h
  split at h
  all_goals
    obtain ⟨⟨-, -, hlt⟩, hn⟩ := Option.ite_none_right_eq_some.mp h
    obtain rfl := Option.some.inj hn
    omega

theorem parseRewardRatio_eq_ok (h : parseRewardRatio t = .ok (cn, kif, kef, total)) :
    cn < 2 ^ 63 ∧ kif < 2 ^ 63 ∧ kef < 2 ^ 63 ∧ total = int64 (cn + kif + kef) := by
  unfold parseRewardRatio at h
  split at h
  · split at h
    · next h₀ h₁ h₂ =>
      obtain ⟨rfl, rfl, rfl, rfl⟩ := by simpa using h
      exact ⟨parseInt_lt h₀, parseInt_lt h₁, parseInt_lt h₂, rfl⟩
    · cases h
  · cases h

theorem parseRewardKip82Ratio_eq_ok (h : parseRewardKip82Ratio t = .ok (proposer, stakers, total)) :
    proposer < 2 ^ 63 ∧ stakers < 2 ^ 63 ∧ total = int64 (proposer + stakers) := by
  unfold parseRewardKip82Ratio at h
  split at h
  · split at h
    · next h₀ h₁ =>
      obtain ⟨rfl, rfl, rfl⟩ := by simpa using h
      exact ⟨parseInt_lt h₀, parseInt_lt h₁, rfl⟩
    · cases h
  · cases h

theorem int64_eq_self {n : ℤ} (hn : 0 ≤ n) (h : n < 2 ^ 63) : int64 n = n := by
  unfold int64
  rw [Int.bmod_def]
  omega

theorem int64_add_le {n : ℤ} (h : 2 ^ 63 ≤ n) : int64 n + 2 ^ 64 ≤ n := by
  unfold int64
  rw [Int.bmod_def]
  omega

end Ratios

section Shares

def stakeAbove (minStake : UInt64) (node : CouncilNode) : ℕ :=
  node.stakingAmount.toNat - minStake.toNat

/-- The sum of the stakes above the minimum is a machine word. -/
def StakesFit (stakingInfo : Option StakingInfo) (minStake : UInt64) : Prop :=
  ∀ info, stakingInfo = some info → (info.consolidated.map (stakeAbove minStake)).sum < 2 ^ 64

variable {minStake total : UInt64} {node entry : CouncilNode} {nodes : List CouncilNode}
  {acc : Rewards × ℤ} {stakeReward : ℤ}

theorem stakeAbove_eq (h : minStake < node.stakingAmount) :
    (node.stakingAmount - minStake).toNat = stakeAbove minStake node :=
  UInt64.toNat_sub_of_le _ _ (UInt64.le_of_lt h)

theorem stakeAbove_eq_zero (h : ¬ minStake < node.stakingAmount) : stakeAbove minStake node = 0 :=
  Nat.sub_eq_zero_of_le (UInt64.not_lt.mp h)

theorem stakeAbove_pos (h : minStake < node.stakingAmount) : 0 < stakeAbove minStake node :=
  Nat.sub_pos_of_lt h

theorem toNat_totalStakes (nodes : List CouncilNode) (minStake : UInt64) :
    (totalStakes nodes minStake).toNat = (nodes.map (stakeAbove minStake)).sum % 2 ^ 64 := by
  -- from any sum on
  suffices h : ∀ (total : UInt64), (nodes.foldl (fun total node =>
      if minStake < node.stakingAmount then total + (node.stakingAmount - minStake) else total)
      total).toNat = (total.toNat + (nodes.map (stakeAbove minStake)).sum) % 2 ^ 64 by
    rw [totalStakes, h 0, UInt64.toNat_zero, Nat.zero_add]
  induction nodes with
  | nil => exact fun total => (Nat.mod_eq_of_lt total.toNat_lt).symm
  | cons node nodes ih =>
    intro total
    rw [foldl_cons, ih, map_cons, sum_cons]
    split
    · next h =>
      rw [UInt64.toNat_add, stakeAbove_eq h]
      omega
    · next h => rw [stakeAbove_eq_zero h, Nat.zero_add]

theorem map_rewardAddr_consolidate (entry : CouncilNode) (nodes : List CouncilNode) :
    (consolidate entry nodes).map (·.rewardAddr) =
      if entry.rewardAddr ∈ nodes.map (·.rewardAddr) then nodes.map (·.rewardAddr)
      else nodes.map (·.rewardAddr) ++ [entry.rewardAddr] := by
  induction nodes with
  | nil => rfl
  | cons node nodes ih =>
    unfold consolidate
    by_cases h : node.rewardAddr = entry.rewardAddr
    · simp [h]
    · rw [if_neg h, map_cons, ih]
      have hmem : entry.rewardAddr ∈ (node :: nodes).map (·.rewardAddr) ↔
          entry.rewardAddr ∈ nodes.map (·.rewardAddr) := by
        rw [map_cons, mem_cons, or_iff_right (Ne.symm h)]
      simp only [hmem]
      split <;> rfl

theorem nodup_consolidate (h : (nodes.map (·.rewardAddr)).Nodup) :
    ((consolidate entry nodes).map (·.rewardAddr)).Nodup := by
  rw [map_rewardAddr_consolidate]
  split
  · exact h
  · next hmem => exact nodup_append.mpr ⟨h, nodup_singleton _, by
      rintro a ha b hb rfl
      exact hmem (mem_singleton.mp hb ▸ ha)⟩

theorem StakingInfo.nodup_consolidated (info : StakingInfo) :
    (info.consolidated.map (·.rewardAddr)).Nodup := by
  suffices h : ∀ nodes : List CouncilNode, (nodes.map (·.rewardAddr)).Nodup →
      ((info.council.foldl (fun nodes entry => consolidate entry nodes) nodes).map
        (·.rewardAddr)).Nodup from h [] nodup_nil
  induction info.council with
  | nil => exact fun _ h => h
  | cons entry council ih => exact fun nodes h => ih _ (nodup_consolidate h)

def nodeShare (stakeReward : ℤ) (minStake total : UInt64) (node : CouncilNode) : ℤ :=
  share stakeReward total.toNat (stakeAbove minStake node)

theorem nodeShare_nonneg (h : 0 ≤ stakeReward) : 0 ≤ nodeShare stakeReward minStake total node :=
  share_nonneg h (Int.natCast_nonneg _) (Int.natCast_nonneg _)

theorem addShare_eq (h : minStake < node.stakingAmount → total ≠ 0) :
    addShare stakeReward minStake total acc node =
      .ok (if 0 < nodeShare stakeReward minStake total node then
          acc.1.insert node.rewardAddr (nodeShare stakeReward minStake total node) else acc.1,
        acc.2 - nodeShare stakeReward minStake total node) := by
  unfold addShare nodeShare
  by_cases hstake : minStake < node.stakingAmount
  · have htotal : (total.toNat : ℤ) ≠ 0 :=
      fun h0 => h hstake (UInt64.toNat_inj.mp (Int.natCast_eq_zero.mp h0))
    rw [if_pos hstake, splitShare, if_neg htotal, stakeAbove_eq hstake]
    rfl
  · have hzero : share stakeReward total.toNat (0 : ℕ) = 0 := by simp [share]
    rw [if_neg hstake, stakeAbove_eq_zero hstake, hzero, if_neg (lt_irrefl 0), sub_zero]

theorem foldlM_addShare (hreward : 0 ≤ stakeReward) (hnodup : (nodes.map (·.rewardAddr)).Nodup)
    (hfresh : ∀ node ∈ nodes, node.rewardAddr ∉ acc.1)
    (htotal : ∀ node ∈ nodes, minStake < node.stakingAmount → total ≠ 0)
    (hacc : ∀ addr amount, acc.1.lookup addr = some amount → 0 ≤ amount) :
    ∃ shares : Rewards, nodes.foldlM (addShare stakeReward minStake total) acc =
        .ok (shares, acc.2 - (nodes.map (nodeShare stakeReward minStake total)).sum) ∧
      sumValues shares = sumValues acc.1 + (nodes.map (nodeShare stakeReward minStake total)).sum ∧
      ∀ addr amount, shares.lookup addr = some amount → 0 ≤ amount := by
  induction nodes generalizing acc with
  | nil => exact ⟨acc.1, by simp [pure, Except.pure], by simp, hacc⟩
  | cons node nodes ih =>
    obtain ⟨hfresh₁, hfresh⟩ := forall_mem_cons.mp hfresh
    obtain ⟨htotal₁, htotal⟩ := forall_mem_cons.mp htotal
    rw [map_cons, nodup_cons] at hnodup
    obtain ⟨hnotMem, hnodup⟩ := hnodup
    rw [foldlM_cons, addShare_eq htotal₁, map_cons, sum_cons]
    generalize hamount : nodeShare stakeReward minStake total node = amount
    have hnonneg : 0 ≤ amount := hamount ▸ nodeShare_nonneg hreward
    -- an entry for a new address is an entry that is added to
    generalize hpaid : (if 0 < amount then acc.1.insert node.rewardAddr amount else acc.1) = paid
    have hinsert : acc.1.insert node.rewardAddr amount =
        increment acc.1 node.rewardAddr amount := by
      rw [increment, AList.lookup_eq_none.mpr hfresh₁, Option.getD_none, zero_add]
    have hsum : sumValues paid = sumValues acc.1 + amount := by
      rw [← hpaid, hinsert]
      split
      · exact sumValues_increment
      · next h => rw [le_antisymm (not_lt.mp h) hnonneg, add_zero]
    have hfresh' : ∀ other ∈ nodes, other.rewardAddr ∉ paid := by
      intro other hother hmem
      rw [← hpaid] at hmem
      split at hmem
      · rcases AList.mem_insert _ |>.mp hmem with heq | hmem
        · exact hnotMem (heq ▸ mem_map_of_mem hother)
        · exact hfresh other hother hmem
      · exact hfresh other hother hmem
    have hpaid' : ∀ addr value, paid.lookup addr = some value → 0 ≤ value := by
      intro addr value hvalue
      rw [← hpaid, hinsert] at hvalue
      split at hvalue
      · exact increment_forall hacc hnonneg hvalue
      · exact hacc addr value hvalue
    obtain ⟨shares, hshares, hvalues, hpos⟩ := @ih (paid, acc.2 - amount) hnodup hfresh' htotal hpaid'
    refine ⟨shares, ?_, ?_, hpos⟩
    · rw [← sub_sub]
      exact hshares
    · rw [hvalues, hsum, add_assoc]

theorem sum_nodeShare_le (hreward : 0 ≤ stakeReward)
    (h : (nodes.map (stakeAbove minStake)).sum ≤ total.toNat) :
    (nodes.map (nodeShare stakeReward minStake total)).sum ≤ stakeReward := by
  have hmap : nodes.map (nodeShare stakeReward minStake total) =
      (nodes.map fun node => (stakeAbove minStake node : ℤ)).map
        (share stakeReward total.toNat) := by
    rw [map_map]
    rfl
  rw [hmap]
  rcases Nat.eq_zero_or_pos total.toNat with hzero | hpos
  · -- nothing is shared
    have hnone : share stakeReward (total.toNat : ℤ) = fun _ => 0 := by
      funext part
      rw [share, hzero, Nat.cast_zero, Int.ediv_zero]
    rw [hnone, map_const', sum_replicate, nsmul_zero]
    exact hreward
  · refine sum_share_le hreward (Int.natCast_pos.mpr hpos) ?_
    rw [← Function.comp_def (fun n : ℕ => (n : ℤ)), ← map_map, ← Nat.cast_list_sum]
    exact_mod_cast h

theorem calcShares_some (info : StakingInfo) (hreward : 0 ≤ stakeReward)
    (htotal : ∀ node ∈ info.consolidated, minStake < node.stakingAmount →
      totalStakes info.consolidated minStake ≠ 0) :
    ∃ shares : Rewards, calcShares (some info) stakeReward minStake =
        .ok (shares, stakeReward - (info.consolidated.map
          (nodeShare stakeReward minStake (totalStakes info.consolidated minStake))).sum) ∧
      sumValues shares = (info.consolidated.map
          (nodeShare stakeReward minStake (totalStakes info.consolidated minStake))).sum ∧
      ∀ addr amount, shares.lookup addr = some amount → 0 ≤ amount := by
  have hnone : ∀ addr amount, (∅ : Rewards).lookup addr = some amount → 0 ≤ amount := by simp
  obtain ⟨shares, hshares, hsum, hpos⟩ := @foldlM_addShare _ _ _ (∅, stakeReward) _ hreward
    info.nodup_consolidated (fun _ _ => AList.notMem_empty _) htotal hnone
  exact ⟨shares, hshares, by rw [hsum]; exact zero_add _, hpos⟩

/-- The shares are what the stakers get, and the rest of it is left. -/
structure Shared (stakeReward : ℤ) (shares : Rewards × ℤ) : Prop where
  rest_nonneg : 0 ≤ shares.2
  rest_le : shares.2 ≤ stakeReward
  sum : sumValues shares.1 = stakeReward - shares.2
  nonneg : ∀ addr amount, shares.1.lookup addr = some amount → 0 ≤ amount

theorem totalStakes_ne_zero (hfit : (nodes.map (stakeAbove minStake)).sum < 2 ^ 64)
    (hnode : node ∈ nodes) (hstake : minStake < node.stakingAmount) :
    totalStakes nodes minStake ≠ 0 := by
  intro hzero
  have htotal := toNat_totalStakes nodes minStake
  rw [hzero, UInt64.toNat_zero, Nat.mod_eq_of_lt hfit] at htotal
  have hle := single_le_sum (fun _ _ => Nat.zero_le _) _
    (mem_map_of_mem (f := stakeAbove minStake) hnode)
  exact absurd (stakeAbove_pos hstake) (by omega)

theorem calcShares_spec {stakingInfo : Option StakingInfo} (hreward : 0 ≤ stakeReward)
    (hfit : StakesFit stakingInfo minStake) :
    Outcome (fun _ => False) (Shared stakeReward) (calcShares stakingInfo stakeReward minStake) := by
  cases stakingInfo with
  | none => exact ⟨hreward, le_rfl, (sub_self stakeReward).symm, by simp⟩
  | some info =>
    have htotal : (totalStakes info.consolidated minStake).toNat =
        (info.consolidated.map (stakeAbove minStake)).sum := by
      rw [toNat_totalStakes, Nat.mod_eq_of_lt (hfit info rfl)]
    obtain ⟨shares, hshares, hsum, hpos⟩ := calcShares_some info hreward
      fun _ hnode hstake => totalStakes_ne_zero (hfit info rfl) hnode hstake
    rw [hshares]
    have hle := sum_nodeShare_le hreward htotal.ge
    have hnonneg : 0 ≤ (info.consolidated.map (nodeShare stakeReward minStake
        (totalStakes info.consolidated minStake))).sum := by
      refine sum_nonneg ?_
      rintro _ hx
      obtain ⟨node, -, rfl⟩ := mem_map.mp hx
      exact nodeShare_nonneg hreward
    exact ⟨sub_nonneg.mpr hle, sub_le_self _ hnonneg, by rw [hsum, sub_sub_cancel], hpos⟩

end Shares

variable {rc : RewardConfig} {minted fee : ℤ}

/-- The ratios of a configuration can be divided by. -/
structure RewardConfig.Divisible (rc : RewardConfig) : Prop where
  minted_nonneg : 0 ≤ rc.mintingAmount
  totalFee_nonneg : 0 ≤ rc.totalFee
  ratio : ∃ cn kif kef, rc.ratio = (cn, kif, kef, cn + kif + kef) ∧ 0 ≤ cn ∧ 0 ≤ kif ∧ 0 ≤ kef ∧
    0 < cn + kif + kef
  kip82Ratio : rc.rules.isKore = true → ∃ proposer stakers,
    rc.kip82Ratio = (proposer, stakers, proposer + stakers) ∧ 0 ≤ proposer ∧ 0 ≤ stakers ∧
      0 < proposer + stakers

/-- Parts of an amount that are not more than it. -/
structure Parts (source : ℤ) (parts : List ℤ) : Prop where
  nonneg : ∀ part ∈ parts, 0 ≤ part
  sum_le : parts.sum ≤ source

theorem splitByRatio_spec (h : rc.Divisible) (hs : 0 ≤ source) :
    Outcome (fun _ => False) (fun r => Parts source [r.1, r.2.1, r.2.2])
      (splitByRatio rc.ratio source) := by
  obtain ⟨cn, kif, kef, hratio, hcn, hkif, hkef, hpos⟩ := h.ratio
  rw [hratio, splitByRatio_eq source hpos.ne']
  constructor
  · simp only [forall_mem_cons, not_mem_nil, false_imp_iff, implies_true, and_true]
    exact ⟨share_nonneg hs hpos.le hcn, share_nonneg hs hpos.le hkif, share_nonneg hs hpos.le hkef⟩
  · have hsum : [cn, kif, kef].sum ≤ cn + kif + kef := by simp [add_assoc]
    exact sum_share_le hs hpos hsum

theorem splitByKip82Ratio_spec (h : rc.Divisible) (hkore : rc.rules.isKore = true) (hs : 0 ≤ source)
    :
    Outcome (fun _ => False) (fun r => Parts source [r.1, r.2])
      (splitByKip82Ratio rc.kip82Ratio source) := by
  obtain ⟨proposer, stakers, hratio, hproposer, hstakers, hpos⟩ := h.kip82Ratio hkore
  rw [hratio, splitByKip82Ratio_eq source hpos.ne']
  constructor
  · simp only [forall_mem_cons, not_mem_nil, false_imp_iff, implies_true, and_true]
    exact ⟨share_nonneg hs hpos.le hproposer, share_nonneg hs hpos.le hstakers⟩
  · have hsum : [proposer, stakers].sum ≤ proposer + stakers := by simp
    exact sum_share_le hs hpos hsum

theorem getBurnAmountKore_spec (h : rc.Divisible) (hkore : rc.rules.isKore = true)
    (hfee : 0 ≤ fee) :
    Outcome (fun _ => False) (fun burnt => 0 ≤ burnt ∧ burnt ≤ fee) (getBurnAmountKore rc fee) := by
  refine (splitByRatio_spec h h.minted_nonneg).bind ?_
  rintro ⟨cn, kif, kef⟩ hparts
  refine (splitByKip82Ratio_spec h hkore (hparts.nonneg cn (by simp))).bind ?_
  rintro ⟨proposer, stakers⟩ hcn
  have hproposer : 0 ≤ proposer := hcn.nonneg proposer (by simp)
  dsimp only [outcome_ok]
  split
  · next hle => exact ⟨hproposer, hle⟩
  · exact ⟨hfee, le_rfl⟩

/-- The fees are paid or burnt. Fees that are not deferred are neither. -/
structure FeesSplit (rc : RewardConfig) (fees : ℤ × ℤ × ℤ) : Prop where
  sum : fees.1 = fees.2.1 + fees.2.2
  paid_nonneg : 0 ≤ fees.2.1
  burnt_nonneg : 0 ≤ fees.2.2
  burnt_eq_zero : rc.deferredTxFee = false → fees.2.2 = 0

theorem calcDeferredFee_spec (h : rc.Divisible) :
    Outcome (fun _ => False) (FeesSplit rc) (calcDeferredFee rc) := by
  unfold calcDeferredFee
  by_cases hdeferred : rc.deferredTxFee = true
  · rw [if_neg (not_not.mpr hdeferred)]
    have hfee := h.totalFee_nonneg
    generalize hmagma : (if rc.rules.isMagma then getBurnAmountMagma rc.totalFee else 0) = burntMagma
    have hburnt : 0 ≤ burntMagma ∧ burntMagma ≤ rc.totalFee := by
      rw [← hmagma, getBurnAmountMagma]
      split <;> omega
    refine Outcome.bind (Q := fun burnt => 0 ≤ burnt ∧ burnt ≤ rc.totalFee - burntMagma) ?_ ?_
    · split
      · next hkore => exact getBurnAmountKore_spec h hkore (sub_nonneg.mpr hburnt.2)
      · exact ⟨le_rfl, sub_nonneg.mpr hburnt.2⟩
    · rintro burntKore ⟨hkore, hle⟩
      exact ⟨by ring, sub_nonneg.mpr hle, add_nonneg hburnt.1 hkore, by simp [hdeferred]⟩
  · rw [if_pos hdeferred]
    exact ⟨rfl, le_rfl, le_rfl, fun _ => rfl⟩

/-- What is split is the whole, in parts that are not negative. -/
structure WholeSplit (whole : ℤ) (split : ℤ × ℤ × ℤ × ℤ × ℤ) : Prop where
  proposer_nonneg : 0 ≤ split.1
  stakers_nonneg : 0 ≤ split.2.1
  kif_nonneg : 0 ≤ split.2.2.1
  kef_nonneg : 0 ≤ split.2.2.2.1
  rest_nonneg : 0 ≤ split.2.2.2.2
  sum : split.1 + split.2.1 + split.2.2.1 + split.2.2.2.1 + split.2.2.2.2 = whole

theorem calcSplit_spec (h : rc.Divisible) (hfee : 0 ≤ fee) :
    Outcome (fun _ => False) (WholeSplit (rc.mintingAmount + fee))
      (calcSplit rc rc.mintingAmount fee) := by
  unfold calcSplit
  have hminted := h.minted_nonneg
  split
  · next hkore =>
    refine (splitByRatio_spec h hminted).bind ?_
    rintro ⟨cn, kif, kef⟩ hparts
    refine (splitByKip82Ratio_spec h hkore (hparts.nonneg cn (by simp))).bind ?_
    rintro ⟨proposer, stakers⟩ hcn
    have hsum := hparts.sum_le
    have hcnsum := hcn.sum_le
    simp only [sum_cons, sum_nil] at hsum hcnsum
    have hp := hcn.nonneg proposer (by simp)
    exact ⟨add_nonneg hp hfee, hcn.nonneg stakers (by simp), hparts.nonneg kif (by simp),
      hparts.nonneg kef (by simp), by dsimp only; linarith, by ring⟩
  · refine (splitByRatio_spec h (add_nonneg hminted hfee)).bind ?_
    rintro ⟨cn, kif, kef⟩ hparts
    have hsum := hparts.sum_le
    simp only [sum_cons, sum_nil] at hsum
    exact ⟨hparts.nonneg cn (by simp), le_rfl, hparts.nonneg kif (by simp),
      hparts.nonneg kef (by simp), by dsimp only; linarith, by ring⟩

section Funds

variable {fund : Option Address} {rewards : Rewards} {proposer amount : ℤ}

theorem assignFund_add (fund : Option Address) (proposer amount : ℤ) :
    (assignFund fund proposer amount).1 + (assignFund fund proposer amount).2 =
      proposer + amount := by
  unfold assignFund
  split
  · exact add_zero _
  · rfl

theorem assignFund_nonneg (hp : 0 ≤ proposer) (ha : 0 ≤ amount) :
    0 ≤ (assignFund fund proposer amount).1 ∧ 0 ≤ (assignFund fund proposer amount).2 := by
  unfold assignFund
  split
  · exact ⟨add_nonneg hp ha, le_rfl⟩
  · exact ⟨hp, ha⟩

theorem sumValues_incrementFund : sumValues (incrementFund rewards fund
    (assignFund fund proposer amount).2) =
      sumValues rewards + (assignFund fund proposer amount).2 := by
  cases fund with
  | none => exact (add_zero _).symm
  | some addr => exact sumValues_increment

theorem incrementFund_forall (hr : ∀ addr v, rewards.lookup addr = some v → 0 ≤ v)
    (ha : 0 ≤ amount) : ∀ addr v, (incrementFund rewards fund amount).lookup addr = some v →
      0 ≤ v := by
  cases fund with
  | none => exact hr
  | some addr => exact fun _ _ h => increment_forall hr ha h

theorem assembleSpec_balanced {order : MapOrder Address ℤ} {rewardbase : Address}
    {stakingInfo : Option StakingInfo} {minted : ℤ} {fees : ℤ × ℤ × ℤ} {split : ℤ × ℤ × ℤ × ℤ × ℤ}
    {shares : Rewards} {shareRem : ℤ} (hminted : 0 ≤ minted) (hfees : FeesSplit rc fees)
    (hsplit : WholeSplit (minted + fees.2.1) split) (hshares : Shared split.2.1 (shares, shareRem))
    :
    (assembleSpec order rewardbase stakingInfo minted fees.1 fees.2.2 split shares
      shareRem).Balanced := by
  obtain ⟨proposer, stakers, kif, kef, splitRem⟩ := split
  obtain ⟨hfee, hpaid, hburnt, -⟩ := hfees
  obtain ⟨hproposer, hstakers, hkif, hkef, hrest, hwhole⟩ := hsplit
  obtain ⟨hrem, hremle, hsum, hpos⟩ := hshares
  unfold assembleSpec
  dsimp only
  generalize fundAddr stakingInfo StakingInfo.kifAddr = kifAddr
  generalize fundAddr stakingInfo StakingInfo.kefAddr = kefAddr
  have hkif₁ := @assignFund_nonneg kifAddr _ _ (add_nonneg hproposer hrem) (add_nonneg hkif hrest)
  have hkifadd := assignFund_add kifAddr (proposer + shareRem) (kif + splitRem)
  generalize hk : assignFund kifAddr (proposer + shareRem) (kif + splitRem) = k at hkif₁ hkifadd ⊢
  have hkef₁ := @assignFund_nonneg kefAddr _ _ hkif₁.1 hkef
  have hkefadd := assignFund_add kefAddr k.1 kef
  generalize hf : assignFund kefAddr k.1 kef = f at hkef₁ hkefadd ⊢
  have hstart : ∀ addr v, (increment (∅ : Rewards) rewardbase f.1).lookup addr = some v → 0 ≤ v :=
    fun addr v h => increment_forall (by simp) hkef₁.1 h
  constructor
  case parts => dsimp only; linarith
  case paid =>
    have hvisit : ((order.visit shares.entries).map (·.2)).sum = sumValues shares :=
      order.sum_visit shares
    rw [sumValues_incrementAll, hvisit, hsum, ← hf, sumValues_incrementFund, hf, ← hk,
      sumValues_incrementFund, hk, sumValues_increment]
    have hempty : sumValues (∅ : Rewards) = 0 := rfl
    rw [hempty]
    ring
  case rewards_nonneg =>
    intro addr v h
    refine incrementAll_forall
      (incrementFund_forall (incrementFund_forall hstart hkif₁.2) hkef₁.2) ?_ h
    rintro ⟨a, share⟩ he
    exact hpos a share (MapOrder.mem_visit.mp he)
  case burntFee_le => dsimp only; linarith
  case minted_nonneg => exact hminted
  case totalFee_nonneg => dsimp only; linarith
  case burntFee_nonneg => exact hburnt
  case proposer_nonneg => exact hkef₁.1
  case stakers_nonneg => exact sub_nonneg.mpr hremle
  case kif_nonneg => exact hkif₁.2
  case kef_nonneg => exact hkef₁.2

end Funds

theorem RewardSpec.balanced_of_proposer {totalFee burntFee : ℤ} (rewardbase : Address)
    (hminted : 0 ≤ minted) (hburnt : 0 ≤ burntFee) (hle : burntFee ≤ totalFee) :
    RewardSpec.Balanced { minted, totalFee, burntFee, proposer := minted + (totalFee - burntFee),
                          stakers := 0, kif := 0, kef := 0,
                          rewards := increment ∅ rewardbase (minted + (totalFee - burntFee)) } := by
  have hproposer : 0 ≤ minted + (totalFee - burntFee) :=
    add_nonneg hminted (sub_nonneg.mpr hle)
  have hempty : sumValues (∅ : Rewards) = 0 := rfl
  constructor
  case parts => dsimp only; ring
  case paid =>
    rw [sumValues_increment, hempty]
    ring
  case rewards_nonneg => exact fun _ _ h => increment_forall (by simp) hproposer h
  case minted_nonneg => exact hminted
  case totalFee_nonneg => exact hburnt.trans hle
  case burntFee_nonneg => exact hburnt
  case burntFee_le => exact hle
  case proposer_nonneg => exact hproposer
  all_goals exact le_rfl

theorem RewardSpec.Balanced.addFee (h : spec.Balanced) (addr : Address) {burnt : ℤ}
    (hburnt : 0 ≤ burnt) (hle : burnt ≤ fee) :
    RewardSpec.Balanced { spec with
      burntFee := spec.burntFee + burnt
      proposer := spec.proposer + (fee - burnt)
      totalFee := spec.totalFee + fee
      rewards := increment spec.rewards addr (fee - burnt) } := by
  have hparts := h.parts
  have hpaid : 0 ≤ fee - burnt := sub_nonneg.mpr hle
  constructor
  case parts => dsimp only; linarith
  case paid =>
    rw [sumValues_increment, ← h.paid]
    ring
  case rewards_nonneg => exact fun _ _ hv => increment_forall h.rewards_nonneg hpaid hv
  case minted_nonneg => exact h.minted_nonneg
  case totalFee_nonneg => exact add_nonneg h.totalFee_nonneg (hburnt.trans hle)
  case burntFee_nonneg => exact add_nonneg h.burntFee_nonneg hburnt
  case burntFee_le => exact add_le_add h.burntFee_le hle
  case proposer_nonneg => exact add_nonneg h.proposer_nonneg hpaid
  case stakers_nonneg => exact h.stakers_nonneg
  case kif_nonneg => exact h.kif_nonneg
  case kef_nonneg => exact h.kef_nonneg

/-- What the reward of a block is computed from. -/
structure RewardInput where
  header : Header
  txs : List Tx
  receipts : List ℕ
  rules : Params.Rules
  pset : RewardParams
  getStakingInfo : ℕ → Option StakingInfo

namespace RewardInput

variable (i : RewardInput)

def stakingInfo : Option StakingInfo := i.getStakingInfo i.header.number

def minStake : UInt64 := UInt64.ofNat i.pset.minimumStake.natAbs

/-- Neither the minted amount nor the fees are negative, and the ratios divide amounts. -/
structure Proper (i : RewardInput) : Prop where
  minted_nonneg : 0 ≤ i.pset.mintingAmount
  fee_nonneg : ∃ fee, getTotalTxFee i.header i.txs i.receipts i.rules i.pset = .ok fee ∧ 0 ≤ fee
  ratio : ProperRatio i.pset.ratio
  kip82Ratio : i.rules.isKore = true → ProperKip82Ratio i.pset.kip82Ratio

/-- The deferred reward is balanced, and so is the reported one if the signer is known. -/
def Conserved : Prop :=
  ∀ (order : MapOrder Address ℤ) (ecrecover : Header → Option Address),
    Outcome (fun _ => False) RewardSpec.Balanced
      (calcDeferredReward order i.getStakingInfo i.header i.txs i.receipts i.rules i.pset) ∧
    Outcome (fun e => e = .noSigner) RewardSpec.Balanced
      (getBlockReward order i.getStakingInfo ecrecover i.header i.txs i.receipts i.rules i.pset)

variable {i : RewardInput}

/-- An input whose ratios fit. Stakes do not matter for what is minted and burnt. -/
structure Regular (i : RewardInput) : Prop where
  proper : i.Proper
  ratio : RatioFits i.pset.ratio
  kip82Ratio : i.rules.isKore = true → Kip82RatioFits i.pset.kip82Ratio

/-- The configuration of a regular input. -/
structure Configured (i : RewardInput) (rc : RewardConfig) : Prop where
  divisible : rc.Divisible
  rules : rc.rules = i.rules
  deferredTxFee : rc.deferredTxFee = i.pset.deferredTxFee
  minimumStake : rc.minimumStake = i.pset.minimumStake

theorem newRewardConfig_spec (h : i.Regular) :
    Outcome (fun _ => False) (Configured i)
      (newRewardConfig i.header i.txs i.receipts i.rules i.pset) := by
  obtain ⟨h, hratio, hkip82⟩ := h
  obtain ⟨fee, hfee, hfeenonneg⟩ := h.fee_nonneg
  obtain ⟨cn, kif, kef, total, hparse, hcn, hkif, hkef, hpos⟩ := h.ratio
  have htotal : total = cn + kif + kef := by
    rw [(parseRewardRatio_eq_ok hparse).2.2.2]
    exact int64_eq_self hpos.le (hratio _ _ _ _ hparse)
  unfold newRewardConfig
  rw [hparse, hfee, htotal]
  by_cases hkore : i.rules.isKore = true
  · obtain ⟨proposer, stakers, total', hparse', hp, hs, hpos'⟩ := h.kip82Ratio hkore
    have htotal' : total' = proposer + stakers := by
      rw [(parseRewardKip82Ratio_eq_ok hparse').2.2]
      exact int64_eq_self hpos'.le (hkip82 hkore _ _ _ hparse')
    rw [if_pos hkore, hparse', htotal']
    exact ⟨⟨h.minted_nonneg, hfeenonneg, ⟨cn, kif, kef, rfl, hcn, hkif, hkef, hpos⟩,
      fun _ => ⟨proposer, stakers, rfl, hp, hs, hpos'⟩⟩, rfl, rfl, rfl⟩
  · rw [if_neg hkore]
    exact ⟨⟨h.minted_nonneg, hfeenonneg, ⟨cn, kif, kef, rfl, hcn, hkif, hkef, hpos⟩,
      fun h => absurd h hkore⟩, rfl, rfl, rfl⟩

/-- Balanced, where nothing is burnt of fees that are not deferred. -/
structure Calculated (i : RewardInput) (spec : RewardSpec) : Prop where
  balanced : spec.Balanced
  burntFee_eq_zero : i.pset.deferredTxFee = false → i.rules.isMagma = true → spec.burntFee = 0

theorem calcDeferredReward_spec (order : MapOrder Address ℤ) (h : i.Regular)
    (hstakes : StakesFit i.stakingInfo i.minStake) :
    Outcome (fun _ => False) (Calculated i)
      (calcDeferredReward order i.getStakingInfo i.header i.txs i.receipts i.rules i.pset) := by
  refine (newRewardConfig_spec h).bind ?_
  intro rc hrc
  refine ((calcDeferredFee_spec hrc.divisible).mapError fun _ he => he).bind ?_
  rintro ⟨totalFee, rewardFee, burntFee⟩ hfees
  refine ((calcSplit_spec hrc.divisible hfees.paid_nonneg).mapError fun _ he => he).bind ?_
  intro split hsplit
  refine ((calcShares_spec hsplit.stakers_nonneg ?_).mapError fun _ he => he).bind ?_
  · rw [hrc.minimumStake]
    exact hstakes
  · rintro ⟨shares, shareRem⟩ hshares
    exact ⟨assembleSpec_balanced hrc.divisible.minted_nonneg hfees hsplit hshares,
      fun hdeferred _ => hfees.burnt_eq_zero (hrc.deferredTxFee.trans hdeferred)⟩

theorem calcDeferredRewardSimple_spec (h : i.Regular) :
    Outcome (fun _ => False) (Calculated i)
      (calcDeferredRewardSimple i.header i.txs i.receipts i.rules i.pset) := by
  refine (newRewardConfig_spec h).bind ?_
  intro rc hrc
  have hminted := hrc.divisible.minted_nonneg
  have hfee := hrc.divisible.totalFee_nonneg
  split
  · have hbalanced := RewardSpec.balanced_of_proposer i.header.rewardbase hminted le_rfl (le_refl (0 : ℤ))
    rw [sub_zero, add_zero] at hbalanced
    exact ⟨hbalanced, fun _ _ => rfl⟩
  · next hcond =>
    refine ⟨RewardSpec.balanced_of_proposer i.header.rewardbase hminted ?_ ?_, ?_⟩
    · unfold getBurnAmountMagma
      split <;> omega
    · unfold getBurnAmountMagma
      split <;> omega
    · intro hdeferred hmagma
      rw [hrc.deferredTxFee, hrc.rules, hdeferred, hmagma] at hcond
      exact absurd ⟨Bool.false_ne_true, rfl⟩ hcond

theorem compensate_spec (ecrecover : Header → Option Address) (h : i.Proper) {spec : RewardSpec}
    (hspec : Calculated i spec) :
    Outcome (fun e => e = .noSigner) RewardSpec.Balanced
      (compensate ecrecover i.header i.txs i.receipts i.rules i.pset spec) := by
  obtain ⟨hb, hzero⟩ := hspec
  unfold compensate
  split
  · exact hb
  · next hdeferred =>
    split
    · next hmagma =>
      obtain ⟨fee, hfee, hnonneg⟩ := h.fee_nonneg
      have hburnt : 0 ≤ getBurnAmountMagma fee ∧ getBurnAmountMagma fee ≤ fee := by
        unfold getBurnAmountMagma
        omega
      have hadd := hb.addFee i.header.rewardbase hburnt.1 hburnt.2
      rw [hzero (Bool.eq_false_of_not_eq_true hdeferred) hmagma, zero_add] at hadd
      rw [hfee]
      exact hadd
    · next hmagma =>
      -- before Magma the fee is the gas at the unit price
      have hfee : getTotalTxFee i.header [] [] i.rules i.pset =
          .ok (i.header.gasUsed * i.pset.unitPrice) := by
        unfold getTotalTxFee getTotalGasFee
        rw [if_neg hmagma]
        simp [bind, Except.bind]
      rw [hfee]
      cases ecrecover i.header with
      | none => exact rfl
      | some signer =>
        have hadd := hb.addFee signer le_rfl
          (mul_nonneg (Int.natCast_nonneg i.header.gasUsed) (Int.natCast_nonneg i.pset.unitPrice))
        rw [sub_zero, add_zero] at hadd
        exact hadd

theorem Regular.conserved (h : i.Regular) (hstakes : StakesFit i.stakingInfo i.minStake) :
    i.Conserved := by
  intro order ecrecover
  have hcalc := calcDeferredReward_spec order h hstakes
  refine ⟨hcalc.mono fun _ hspec => hspec.balanced, ?_⟩
  refine Outcome.bind (Q := Calculated i) ?_ fun spec hspec => compensate_spec ecrecover h.proper hspec
  split
  · exact (calcDeferredRewardSimple_spec h).mono_error fun _ he => he.elim
  · exact hcalc.mono_error fun _ he => he.elim

theorem getTotalReward_spec (h : i.Regular) :
    Outcome (fun _ => False) (fun total => 0 ≤ total.minted ∧ 0 ≤ total.burntFee)
      (getTotalReward i.header i.txs i.receipts i.rules i.pset) := by
  refine (newRewardConfig_spec h).bind ?_
  intro rc hrc
  refine Outcome.bind (Q := fun total => 0 ≤ total.minted ∧ 0 ≤ total.burntFee) ?_ ?_
  · split
    · refine (calcDeferredRewardSimple_spec h).bind ?_
      exact fun spec hspec => ⟨hspec.balanced.minted_nonneg, hspec.balanced.burntFee_nonneg⟩
    · refine ((calcDeferredFee_spec hrc.divisible).mapError fun _ he => he).bind ?_
      exact fun fees hfees => ⟨hrc.divisible.minted_nonneg, hfees.burnt_nonneg⟩
  · rintro total ⟨hminted, hburnt⟩
    obtain ⟨fee, hfee, hnonneg⟩ := h.proper.fee_nonneg
    split
    · rw [hfee]
      exact ⟨hminted, add_nonneg hburnt (Int.ediv_nonneg hnonneg (by decide))⟩
    · exact ⟨hminted, hburnt⟩

end RewardInput

end Kaia.Reward
