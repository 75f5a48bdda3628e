import Kaia.Governance.Engine
import Kaia.Reward.Distributor

/-! # Reported rewards

Three places choose the parameters of a block reward. The block is finalized, and rewards are
accumulated, with the parameters of its own number. A query takes those of the epoch before for the
first block of an epoch before Kore.
-/

namespace Kaia

open Foundation

namespace GovParamSet

variable (pset : GovParamSet)

variable (key : GovKey)

def mustGet : Except GoPanic VoteValue :=
  match pset key with
  | none => .error .crit
  | some v => .ok v

def mustUint64 : Except GoPanic UInt64 := do
  match ← pset.mustGet key with
  | .uint64 n => .ok (.ofNat n)
  | _ => .error .typeAssertion

def mustText : Except GoPanic Bytes := do
  match ← pset.mustGet key with
  | .text t => .ok t
  | _ => .error .typeAssertion

def mustBool : Except GoPanic Bool := do
  match ← pset.mustGet key with
  | .bool b => .ok b
  | _ => .error .typeAssertion

/-- `SetString` in base ten. -/
def parseBigInt : Bytes → Option ℤ
  | 43 :: digits => if digits ≠ [] ∧ digits.all isDigit then some (decimal digits) else none
  | 45 :: digits => if digits ≠ [] ∧ digits.all isDigit then some (-(decimal digits : ℤ)) else none
  | digits => if digits ≠ [] ∧ digits.all isDigit then some (decimal digits) else none

def mustBigInt : Except GoPanic ℤ := do
  match parseBigInt (← pset.mustText key) with
  | none => .error .nilPointer
  | some n => .ok n

def epoch : Except GoPanic UInt64 := pset.mustUint64 .epoch

/-- The parameters that rewards depend on. -/
def rewardParams : Except GoPanic Reward.RewardParams := do
  let ratio ← pset.mustText .ratio
  let kip82Ratio ← pset.mustText .kip82Ratio
  let unitPrice ← pset.mustUint64 .unitPrice
  let mintingAmount ← pset.mustBigInt .mintingAmount
  let minimumStake ← pset.mustBigInt .minimumStake
  let deferredTxFee ← pset.mustBool .deferredTxFee
  let policy ← pset.mustUint64 .policy
  .ok { policy := policy.toNat, unitPrice := unitPrice.toNat, mintingAmount, minimumStake, ratio,
        kip82Ratio, deferredTxFee }

end GovParamSet

namespace Reward

def calcRewardParamBlock (num epoch : UInt64) (rules : Params.Rules) : Except GoPanic UInt64 :=
  if rules.isKore then .ok num
  else if epoch = 0 then .error .divideByZero
  else .ok (if num % epoch = 0 then num - epoch else num)

def distributeBlockReward (order : MapOrder Address ℤ) (rewards : Rewards) (balance : Address → ℤ) :
    Address → ℤ :=
  (order.visit rewards.entries).foldl
    (fun balance e => Function.update balance e.1 (balance e.1 + e.2)) balance

inductive ReportErr
  | engine (e : EngineErr)
  | reward (e : RewardErr)
  deriving DecidableEq

/-- A chain with its governance. The rules of a block follow the fork that the governance knows. -/
structure RewardChain (lib : JsonLib) where
  engine : MixedEngine lib
  rules : ℕ → Params.Rules
  rules_isKore : ∀ n, (rules n).isKore = isForked engine.koreCompatibleBlock n
  getStakingInfo : ℕ → Option StakingInfo
  ecrecover : Header → Option Address

namespace RewardChain

variable {lib : JsonLib} (chain : RewardChain lib)

def finalizeParams (num : UInt64) : Except EngineErr GovParamSet :=
  chain.engine.effectiveParams num.toNat

def accumulateParams (num : UInt64) : Except EngineErr GovParamSet :=
  chain.engine.effectiveParams num.toNat

def rewardParamSet (num : UInt64) : Except EngineErr GovParamSet := do
  let pset ← chain.engine.effectiveParams num.toNat
  let epoch ← pset.epoch.mapError .panic
  let rewardParamNum ← (calcRewardParamBlock num epoch (chain.rules num.toNat)).mapError .panic
  chain.engine.effectiveParams rewardParamNum.toNat

variable (order : MapOrder Address ℤ) (header : Header) (txs : List Tx) (receipts : List ℕ)

def readRewardParams (pset : GovParamSet) : Except ReportErr RewardParams :=
  pset.rewardParams.mapError fun p => .reward (.panic p)

/-- The reward that `Finalize` pays. -/
def finalizeReward : Except ReportErr RewardSpec := do
  let pset ← (chain.finalizeParams (.ofNat header.number)).mapError .engine
  let p ← readRewardParams pset
  let rules := chain.rules (UInt64.ofNat header.number).toNat
  (if isRewardSimple p then calcDeferredRewardSimple header txs receipts rules p
    else calcDeferredReward order chain.getStakingInfo header txs receipts rules p).mapError .reward

def finalize (payment : MapOrder Address ℤ) (balance : Address → ℤ) :
    Except ReportErr (Address → ℤ) := do
  let spec ← chain.finalizeReward order header txs receipts
  .ok (distributeBlockReward payment spec.rewards balance)

def getRewards : Except ReportErr RewardSpec := do
  let pset ← (chain.rewardParamSet (.ofNat header.number)).mapError .engine
  let p ← readRewardParams pset
  let rules := chain.rules (UInt64.ofNat header.number).toNat
  (getBlockReward order chain.getStakingInfo chain.ecrecover header txs receipts rules p).mapError
    .reward

end RewardChain

variable {order order' : MapOrder Address ℤ} {getStakingInfo : ℕ → Option StakingInfo}
  {header : Header} {txs : List Tx} {receipts : List ℕ} {rules : Params.Rules}
  {pset : RewardParams} {spec : RewardSpec}

theorem calcDeferredReward_reorder (order' : MapOrder Address ℤ)
    (h : calcDeferredReward order getStakingInfo header txs receipts rules pset = .ok spec) :
    ∃ spec', calcDeferredReward order' getStakingInfo header txs receipts rules pset = .ok spec' ∧
      ∀ a, spec'.rewards.lookup a = spec.rewards.lookup a := by
  obtain ⟨rc, hrc, h⟩ := bind_eq_ok.mp h
  obtain ⟨⟨totalFee, rewardFee, burntFee⟩, hfees, h⟩ := bind_eq_ok.mp h
  obtain ⟨split, hsplit, h⟩ := bind_eq_ok.mp h
  obtain ⟨⟨shares, shareRem⟩, hshares, h⟩ := bind_eq_ok.mp h
  obtain rfl := Except.ok.inj h
  refine ⟨assembleSpec order' header.rewardbase (getStakingInfo header.number) rc.mintingAmount
    totalFee burntFee split shares shareRem, ?_, fun a => lookup_incrementAll_visit⟩
  exact bind_eq_ok.mpr ⟨rc, hrc, bind_eq_ok.mpr ⟨_, hfees, bind_eq_ok.mpr ⟨split, hsplit,
    bind_eq_ok.mpr ⟨_, hshares, rfl⟩⟩⟩⟩

variable {ecrecover : Header → Option Address} {rc : RewardConfig}

def calculated (order : MapOrder Address ℤ) (getStakingInfo : ℕ → Option StakingInfo)
    (header : Header) (txs : List Tx) (receipts : List ℕ) (rules : Params.Rules)
    (pset : RewardParams) : Except RewardErr RewardSpec :=
  if isRewardSimple pset then calcDeferredRewardSimple header txs receipts rules pset
  else calcDeferredReward order getStakingInfo header txs receipts rules pset

theorem newRewardConfig_eq_ok (h : newRewardConfig header txs receipts rules pset = .ok rc) :
    rc.rules = rules ∧ rc.deferredTxFee = pset.deferredTxFee ∧
      rc.mintingAmount = pset.mintingAmount := by
  obtain ⟨ratio, -, h⟩ := bind_eq_ok.mp h
  obtain ⟨kip82Ratio, -, h⟩ := bind_eq_ok.mp h
  obtain ⟨totalFee, -, h⟩ := bind_eq_ok.mp h
  obtain rfl := Except.ok.inj h
  exact ⟨rfl, rfl, rfl⟩

theorem calcDeferredReward_eq_ok
    (hrc : newRewardConfig header txs receipts rules pset = .ok rc)
    (h : calcDeferredReward order getStakingInfo header txs receipts rules pset = .ok spec) :
    ∃ totalFee rewardFee, calcDeferredFee rc = .ok (totalFee, rewardFee, spec.burntFee) ∧
      spec.minted = rc.mintingAmount := by
  obtain ⟨rc', hrc', h⟩ := bind_eq_ok.mp h
  obtain ⟨⟨totalFee, rewardFee, burntFee⟩, hfees, h⟩ := bind_eq_ok.mp h
  obtain ⟨split, -, h⟩ := bind_eq_ok.mp h
  obtain ⟨⟨shares, shareRem⟩, -, h⟩ := bind_eq_ok.mp h
  obtain rfl := Except.ok.inj h
  cases hrc.symm.trans hrc'
  exact ⟨totalFee, rewardFee, mapError_eq_ok.mp hfees, rfl⟩

theorem calculated_burntFee_eq_zero
    (h : calculated order getStakingInfo header txs receipts rules pset = .ok spec)
    (hdeferred : pset.deferredTxFee = false) (hmagma : rules.isMagma = true) :
    spec.burntFee = 0 := by
  unfold calculated at h
  split at h
  · obtain ⟨rc, hrc, h⟩ := bind_eq_ok.mp h
    obtain ⟨hrules, hfee, -⟩ := newRewardConfig_eq_ok hrc
    rw [hrules, hfee, hdeferred, hmagma] at h
    cases h
    rfl
  · cases hrc : newRewardConfig header txs receipts rules pset with
    | error e =>
      rw [calcDeferredReward, hrc] at h
      cases h
    | ok rc =>
      obtain ⟨totalFee, rewardFee, hfees, -⟩ := calcDeferredReward_eq_ok hrc h
      rw [calcDeferredFee, (newRewardConfig_eq_ok hrc).2.1, hdeferred] at hfees
      exact (congrArg (·.2.2) (Except.ok.inj hfees)).symm

theorem getTotalReward_eq_ok {total : TotalReward}
    (hspec : calculated order getStakingInfo header txs receipts rules pset = .ok spec)
    (h : getTotalReward header txs receipts rules pset = .ok total) :
    total.minted = spec.minted ∧
      if pset.deferredTxFee = false ∧ rules.isMagma then
        ∃ txFee, getTotalTxFee header txs receipts rules pset = .ok txFee ∧
          total.burntFee = spec.burntFee + getBurnAmountMagma txFee
      else total.burntFee = spec.burntFee := by
  obtain ⟨rc, hrc, h⟩ := bind_eq_ok.mp h
  obtain ⟨total₀, htotal, h⟩ := bind_eq_ok.mp h
  have hstart : total₀ = ⟨spec.minted, spec.burntFee⟩ := by
    unfold calculated at hspec
    split at htotal
    · next hsimple =>
      rw [if_pos hsimple] at hspec
      rw [hspec] at htotal
      cases htotal
      rfl
    · next hsimple =>
      rw [if_neg hsimple] at hspec
      obtain ⟨totalFee, rewardFee, hfees, hminted⟩ := calcDeferredReward_eq_ok hrc hspec
      rw [hfees] at htotal
      cases htotal
      rw [hminted]
  subst hstart
  rw [(newRewardConfig_eq_ok hrc).2.1] at h
  split at h
  · next hcond =>
    obtain ⟨txFee, hfee, h⟩ := bind_eq_ok.mp h
    cases h
    rw [if_pos ⟨Bool.eq_false_of_not_eq_true hcond.1, hcond.2⟩]
    exact ⟨rfl, txFee, mapError_eq_ok.mp hfee, rfl⟩
  · next hcond =>
    cases h
    rw [if_neg fun hc => hcond ⟨by rw [hc.1]; decide, hc.2⟩]
    exact ⟨rfl, rfl⟩

/-- The light path, without staking info, reports what the full one mints and burns. -/
theorem getTotalReward_agrees (order : MapOrder Address ℤ)
    (getStakingInfo : ℕ → Option StakingInfo) (ecrecover : Header → Option Address)
    (header : Header) (txs : List Tx) (receipts : List ℕ) (rules : Params.Rules)
    (pset : RewardParams) (total : TotalReward) (spec : RewardSpec)
    (htotal : getTotalReward header txs receipts rules pset = .ok total)
    (hspec : getBlockReward order getStakingInfo ecrecover header txs receipts rules pset =
      .ok spec) : total.minted = spec.minted ∧ total.burntFee = spec.burntFee := by
  obtain ⟨spec₀, hspec₀, hspec⟩ := bind_eq_ok.mp hspec
  obtain ⟨hminted, hburnt⟩ := getTotalReward_eq_ok hspec₀ htotal
  unfold compensate at hspec
  split at hspec
  · next hdeferred =>
    cases hspec
    rw [if_neg fun hc => by rw [hc.1] at hdeferred; cases hdeferred] at hburnt
    exact ⟨hminted, hburnt⟩
  · next hdeferred =>
    have hdeferred := Bool.eq_false_of_not_eq_true hdeferred
    split at hspec
    · next hmagma =>
      rw [if_pos ⟨hdeferred, hmagma⟩] at hburnt
      obtain ⟨txFee, hfee, hburnt⟩ := hburnt
      rw [hfee] at hspec
      cases hspec
      rw [calculated_burntFee_eq_zero hspec₀ hdeferred hmagma, Int.zero_add] at hburnt
      exact ⟨hminted, hburnt⟩
    · next hmagma =>
      rw [if_neg fun hc => hmagma hc.2] at hburnt
      obtain ⟨txFee, -, hspec⟩ := bind_eq_ok.mp hspec
      cases hsigner : ecrecover header with
      | none =>
        rw [hsigner] at hspec
        cases hspec
      | some proposer =>
        rw [hsigner] at hspec
        cases hspec
        exact ⟨hminted, hburnt⟩

/-- Since Kore, for the ratios `1/1/1` and `1/1`, six of a fee of ten are burnt. -/
theorem getTotalReward_agrees_burnt :
    let header : Header := ⟨1, 10, some 1, 7⟩
    let rules : Params.Rules := ⟨0, true, true, true, true, true, false, false, false, false⟩
    let pset : RewardParams := ⟨weightedRandom, 0, 6, 0, [49, 47, 49, 47, 49], [49, 47, 49], true⟩
    ∃ spec, getTotalReward header [] [] rules pset = .ok ⟨6, 6⟩ ∧
      getBlockReward (.plain _ _) (fun _ => none) (fun _ => none) header [] [] rules pset =
        .ok spec ∧ 6 = spec.minted ∧ 6 = spec.burntFee := by
  intro header rules pset
  have hok : (getBlockReward (.plain _ _) (fun _ => none) (fun _ => none) header [] [] rules
      pset).isOk = true := by decide +kernel
  have htotal : getTotalReward header [] [] rules pset = .ok ⟨6, 6⟩ := by decide +kernel
  cases hspec : getBlockReward (.plain _ _) (fun _ => none) (fun _ => none) header [] [] rules
      pset with
  | error e =>
    rw [hspec] at hok
    cases hok
  | ok spec =>
    exact ⟨spec, htotal, rfl, getTotalReward_agrees _ _ _ _ _ _ _ _ _ _ htotal hspec⟩

end Reward

namespace MixedEngine

variable {lib : JsonLib} (e : MixedEngine lib)

/-- The items in force for two blocks set the same parameters, defaults included. -/
def RecordsAgree (n m : ℕ) : Prop :=
  ∃ epoch params params', e.headerGov.epochWithFallback = .ok epoch ∧
    e.headerGov.readParamsAtNumber n epoch = .ok params ∧
    e.headerGov.readParamsAtNumber m epoch = .ok params' ∧
    ∀ k, (params k).or ((e.initialParams k).or (e.defaultParams k)) =
      (params' k).or ((e.initialParams k).or (e.defaultParams k))

variable {e} {n m : ℕ} {pset : GovParamSet}

theorem assemble_new_eq_iff {params params' : GovParamSet} :
    e.assemble params .new = e.assemble params' .new ↔
      ∀ k, (params k).or ((e.initialParams k).or (e.defaultParams k)) =
        (params' k).or ((e.initialParams k).or (e.defaultParams k)) := by
  have happly : ∀ params k, e.assemble params .new k =
      (params k).or ((e.initialParams k).or (e.defaultParams k)) := by
    intro params k
    simp [assemble, assembleParams, GovParamSet.merged, GovParamSet.new]
  simp only [funext_iff, happly]

theorem effectiveParams_of_not_forked (h : isForked e.koreCompatibleBlock n = false) :
    e.effectiveParams n = .ok pset ↔ ∃ epoch params, e.headerGov.epochWithFallback = .ok epoch ∧
      e.headerGov.readParamsAtNumber (n - 1) epoch = .ok params ∧ e.assemble params .new = pset := by
  have hnum : (if ¬ isForked e.headerGov.koreCompatibleBlock n ∧ n ≠ 0 then n - 1 else n) = n - 1 := by
    rw [koreCompatibleBlock] at h
    split <;> simp_all
  rw [effectiveParams_eq_ok, contractEffectiveParams, h, if_neg Bool.false_ne_true]
  unfold HeaderGov.effectiveParams
  rw [hnum]
  simp only [bind_eq_ok, Except.ok.injEq]
  constructor
  · rintro ⟨_, params, rfl, ⟨epoch, hepoch, hread⟩, hpset⟩
    exact ⟨epoch, params, hepoch, hread, hpset⟩
  · rintro ⟨epoch, params, hepoch, hread, hpset⟩
    exact ⟨_, params, rfl, ⟨epoch, hepoch, hread⟩, hpset⟩

theorem effectiveParams_eq_iff (hn : isForked e.koreCompatibleBlock n = false)
    (hm : isForked e.koreCompatibleBlock m = false) (h : e.effectiveParams n = .ok pset) :
    e.effectiveParams m = .ok pset ↔ e.RecordsAgree (n - 1) (m - 1) := by
  obtain ⟨epoch, params, hepoch, hread, rfl⟩ := (effectiveParams_of_not_forked hn).mp h
  rw [effectiveParams_of_not_forked hm]
  constructor
  · rintro ⟨epoch', params', hepoch', hread', heq⟩
    obtain rfl := Except.ok.inj (hepoch.symm.trans hepoch')
    exact ⟨epoch, params, params', hepoch, hread, hread', assemble_new_eq_iff.mp heq.symm⟩
  · rintro ⟨epoch', params'', params', hepoch', hread'', hread', heq⟩
    obtain rfl := Except.ok.inj (hepoch.symm.trans hepoch')
    obtain rfl := Except.ok.inj (hread.symm.trans hread'')
    exact ⟨epoch, params', hepoch, hread', (assemble_new_eq_iff.mpr heq).symm⟩

end MixedEngine

namespace Reward.RewardChain

variable {lib : JsonLib} (chain : RewardChain lib)

/-- Reported are the same parameters and, if fees are deferred, the amounts that are paid. -/
structure Reported (num : UInt64) (pset : GovParamSet) : Prop where
  params : chain.rewardParamSet num = .ok pset
  accumulated : chain.accumulateParams num = .ok pset
  amounts : ∀ order order' payment header txs receipts balance balance',
    header.number = num.toNat → pset .deferredTxFee = some (.bool true) →
    chain.finalize order header txs receipts payment balance = .ok balance' →
    ∃ spec, chain.getRewards order' header txs receipts = .ok spec ∧
      ∀ a, balance' a = balance a + (spec.rewards.lookup a).getD 0

/-- Kore, not the first block of an epoch, or no parameter that changed in the one before. -/
def ParamsKept (num : UInt64) (pset : GovParamSet) : Prop :=
  ∃ epoch, pset.epoch = .ok epoch ∧
    (isForked chain.engine.koreCompatibleBlock num.toNat = true ∨
      epoch ≠ 0 ∧ (num % epoch ≠ 0 ∨
        chain.engine.RecordsAgree (num.toNat - 1) ((num - epoch).toNat - 1)))

variable {chain} {num : UInt64} {pset : GovParamSet}

theorem isForked_mono {fork : Option ℕ} {n m : ℕ} (hle : m ≤ n) (h : isForked fork n = false) :
    isForked fork m = false := by
  cases fork with
  | none => rfl
  | some b =>
    simp only [isForked, decide_eq_false_iff_not] at h ⊢
    omega

theorem rewardParamSet_eq_iff (hnum : num ≠ 0) (h : chain.finalizeParams num = .ok pset) :
    chain.rewardParamSet num = .ok pset ↔ chain.ParamsKept num pset := by
  have hfinal : chain.engine.effectiveParams num.toNat = .ok pset := h
  unfold rewardParamSet ParamsKept
  rw [hfinal]
  simp only [bind_eq_ok, mapError_eq_ok, Except.ok.injEq, exists_eq_left']
  refine exists_congr fun epoch => and_congr_right fun hepoch => ?_
  unfold calcRewardParamBlock
  rw [chain.rules_isKore]
  by_cases hkore : isForked chain.engine.koreCompatibleBlock num.toNat = true
  · simp [hkore, hfinal]
  · rw [if_neg hkore, or_iff_right hkore]
    by_cases hzero : epoch = 0
    · simp [hzero]
    · rw [if_neg hzero, and_iff_right hzero]
      simp only [Except.ok.injEq, exists_eq_left']
      split
      · next hmod =>
        -- the last block of an epoch is not before the epoch before
        have hle : epoch ≤ num := by
          refine UInt64.not_lt.mp fun hlt => hnum ?_
          rwa [UInt64.mod_eq_of_lt hlt] at hmod
        have hsub : (num - epoch).toNat ≤ num.toNat := by
          rw [UInt64.toNat_sub_of_le _ _ hle]
          exact Nat.sub_le _ _
        have hkore := Bool.eq_false_of_not_eq_true hkore
        rw [or_iff_right (not_not.mpr hmod)]
        exact MixedEngine.effectiveParams_eq_iff hkore (isForked_mono hsub hkore) hfinal
      · next hmod => exact iff_of_true hfinal (.inl hmod)

theorem deferredTxFee_of_rewardParams {p : RewardParams} (h : pset.rewardParams = .ok p)
    (hdeferred : pset .deferredTxFee = some (.bool true)) : p.deferredTxFee = true := by
  have hmust : pset.mustBool .deferredTxFee = .ok true := by
    unfold GovParamSet.mustBool GovParamSet.mustGet
    rw [hdeferred]
    rfl
  unfold GovParamSet.rewardParams at h
  simp only [bind_eq_ok] at h
  obtain ⟨_, -, _, -, _, -, _, -, _, -, deferred, hd, _, -, h⟩ := h
  obtain rfl := Except.ok.inj h
  exact Except.ok.inj (hd.symm.trans hmust)

/-- With the same parameters, and fees that are deferred, the amounts are reported as they are
paid. -/
theorem getRewards_of_finalize {order order' payment : MapOrder Address ℤ} {header : Header}
    {txs : List Tx} {receipts : List ℕ} {balance balance' : Address → ℤ}
    (hfinal : chain.finalizeParams num = .ok pset) (hreport : chain.rewardParamSet num = .ok pset)
    (hnumber : header.number = num.toNat) (hdeferred : pset .deferredTxFee = some (.bool true))
    (h : chain.finalize order header txs receipts payment balance = .ok balance') :
    ∃ spec, chain.getRewards order' header txs receipts = .ok spec ∧
      ∀ a, balance' a = balance a + (spec.rewards.lookup a).getD 0 := by
  have hof : UInt64.ofNat header.number = num := by rw [hnumber, UInt64.ofNat_toNat]
  unfold finalize finalizeReward at h
  rw [hof, hfinal] at h
  obtain ⟨spec, hspec, h⟩ := bind_eq_ok.mp h
  obtain rfl := Except.ok.inj h
  obtain ⟨_, hread, hspec⟩ := bind_eq_ok.mp hspec
  obtain rfl := Except.ok.inj hread
  obtain ⟨p, hp, hspec⟩ := bind_eq_ok.mp hspec
  have hd := deferredTxFee_of_rewardParams (mapError_eq_ok.mp hp) hdeferred
  have hspec := mapError_eq_ok.mp hspec
  -- nothing is added to the reward of a block whose fees are deferred
  suffices hcalc : ∃ spec', (if isRewardSimple p then
        calcDeferredRewardSimple header txs receipts (chain.rules num.toNat) p
      else calcDeferredReward order' chain.getStakingInfo header txs receipts
        (chain.rules num.toNat) p) = .ok spec' ∧
      ∀ a, spec'.rewards.lookup a = spec.rewards.lookup a by
    obtain ⟨spec', hspec', hsame⟩ := hcalc
    refine ⟨spec', ?_, fun a => ?_⟩
    · unfold getRewards
      rw [hof, hreport]
      refine bind_eq_ok.mpr ⟨pset, rfl, bind_eq_ok.mpr ⟨p, hp, mapError_eq_ok.mpr ?_⟩⟩
      refine bind_eq_ok.mpr ⟨spec', hspec', ?_⟩
      rw [compensate, if_pos hd]
    · rw [hsame]
      exact foldl_update_add payment balance
  split at hspec
  · next hsimple => exact ⟨spec, by rw [if_pos hsimple, hspec], fun _ => rfl⟩
  · next hsimple =>
    rw [if_neg hsimple]
    exact calcDeferredReward_reorder order' hspec

theorem reported_iff (chain : RewardChain lib) (num : UInt64) (pset : GovParamSet) (hnum : num ≠ 0)
    (h : chain.finalizeParams num = .ok pset) :
    chain.Reported num pset ↔ chain.ParamsKept num pset := by
  rw [← rewardParamSet_eq_iff hnum h]
  constructor
  · exact fun hreported => hreported.params
  · intro hreport
    exact ⟨hreport, h, fun _ _ _ _ _ _ _ _ hnumber hdeferred hfinal =>
      getRewards_of_finalize h hreport hnumber hdeferred hfinal⟩

/-- Two epochs of ten blocks have passed since the minting amount was raised. The proposer gets all
of it, and half of the fees. -/
def raised : RewardChain .braces where
  engine :=
    { initialParams := fun
        | .epoch => some (.uint64 10)
        | .policy => some (.uint64 2)
        | .deferredTxFee => some (.bool true)
        | .ratio => some (.text [49, 48, 48, 47, 48, 47, 48])
        | .kip82Ratio => some (.text [50, 48, 47, 56, 48])
        | .unitPrice => some (.uint64 1)
        | .minimumStake => some (.text [48])
        | _ => none
      defaultParams := .new
      currentParams := .new
      headerGov :=
        { koreCompatibleBlock := none
          istanbulEpoch := 10
          db := ⟨some [0, 10], fun n =>
            some [("reward.mintingamount", .text (if n = 0 then [49] else [50]))]⟩
          newGovParamSetStrMap := fun
            | [(_, .text t)] => some fun k => if k = .mintingAmount then some (.text t) else none
            | _ => none
          initialParams := .new
          currentParams := .new }
      contractParams := .new
      getAllParamsAt := fun _ _ => none }
  rules := fun _ => ⟨0, true, true, true, true, false, false, false, false, false⟩
  rules_isKore := fun _ => rfl
  getStakingInfo := fun _ => none
  ecrecover := fun _ => none

/-- In the middle of an epoch the raised amount is reported, with the fees, as it is paid. -/
theorem raised_reported : ∃ pset balance spec, raised.finalizeParams 25 = .ok pset ∧
    raised.Reported 25 pset ∧
    raised.finalize (.plain _ _) ⟨25, 6, some 1, 9⟩ [] [] (.plain _ _) (fun _ => 0) = .ok balance ∧
    raised.getRewards (.plain _ _) ⟨25, 6, some 1, 9⟩ [] [] = .ok spec ∧
    balance 9 = 5 ∧ ∀ a, balance a = 0 + (spec.rewards.lookup a).getD 0 := by
  have hreported := (reported_iff raised 25 _ (by decide) rfl).mpr
    ⟨10, rfl, .inr ⟨by decide, .inl (by decide)⟩⟩
  obtain ⟨spec, hspec, hamounts⟩ := hreported.amounts (.plain _ _) (.plain _ _) (.plain _ _)
    ⟨25, 6, some 1, 9⟩ [] [] (fun _ => 0) _ rfl rfl rfl
  exact ⟨_, _, spec, rfl, hreported, rfl, hspec, by decide +kernel, hamounts⟩

/-- The first block of an epoch is paid with the raised amount, and reported with the old one. -/
theorem raised_amount_not_reported : ∃ pset pset', raised.finalizeParams 30 = .ok pset ∧
    raised.rewardParamSet 30 = .ok pset' ∧ pset .mintingAmount = some (.text [50]) ∧
    pset' .mintingAmount = some (.text [49]) :=
  ⟨_, _, rfl, rfl, rfl, rfl⟩

end Reward.RewardChain

end Kaia
