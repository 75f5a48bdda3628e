import Kaia.Foundation.Maps
import Kaia.Governance.Contract
import Kaia.Params.Rules
import Kaia.Reward.Ratio
import Kaia.Validator.Basic

/-! # Block rewards

At the end of a block the minted amount and the fees of its transactions are divided between the
proposer, the stakers and two funds. A part of the fees is burnt. What rounding leaves goes to one of
the receivers.
-/

namespace Kaia.Reward

open Foundation

inductive RewardErr
  | panic (p : GoPanic)
  | ratio (e : RatioErr)
  | noSigner
  deriving DecidableEq

structure Header where
  number : ℕ
  gasUsed : ℕ
  baseFee : Option ℤ
  rewardbase : Address

structure Tx where
  gasFeeCap : ℤ
  gasTipCap : ℤ

def Tx.effectiveGasTip (tx : Tx) : Option ℤ → ℤ
  | some baseFee => min tx.gasTipCap (max 0 (tx.gasFeeCap - baseFee))
  | none => tx.gasTipCap

/-- The values of a parameter set that rewards depend on. -/
structure RewardParams where
  policy : ProposerPolicy
  unitPrice : ℕ
  mintingAmount : ℤ
  minimumStake : ℤ
  ratio : Bytes
  kip82Ratio : Bytes
  deferredTxFee : Bool

/-- One entry of the parallel lists of a `StakingInfo`. -/
structure CouncilNode where
  rewardAddr : Address
  stakingAmount : UInt64

structure StakingInfo where
  council : List CouncilNode
  kifAddr : Address
  kefAddr : Address

abbrev Rewards := AList fun _ : Address => ℤ

structure RewardSpec where
  minted : ℤ
  totalFee : ℤ
  burntFee : ℤ
  proposer : ℤ
  stakers : ℤ
  kif : ℤ
  kef : ℤ
  rewards : Rewards

structure TotalReward where
  minted : ℤ
  burntFee : ℤ
  deriving DecidableEq

structure RewardConfig where
  rules : Params.Rules
  totalFee : ℤ
  mintingAmount : ℤ
  minimumStake : ℤ
  deferredTxFee : Bool
  ratio : ℤ × ℤ × ℤ × ℤ
  kip82Ratio : ℤ × ℤ × ℤ

section Config

variable (header : Header) (txs : List Tx) (receipts : List ℕ) (rules : Params.Rules)
  (pset : RewardParams)

def getTotalGasFee : Except GoPanic ℤ :=
  if rules.isMagma then
    match header.baseFee with
    | none => .error .nilPointer
    | some baseFee => .ok (header.gasUsed * baseFee)
  else .ok (header.gasUsed * pset.unitPrice)

/-- `GetTotalTxFee`, where the receipts are given by the gas they report. Since Kaia, tips are
added. -/
def getTotalTxFee : Except GoPanic ℤ := do
  let totalFee ← getTotalGasFee header rules pset
  if ¬ rules.isKaia ∨ txs.length ≠ receipts.length then .ok totalFee
  else .ok ((txs.zip receipts).foldl (fun totalFee (tx, gasUsed) =>
    totalFee + int64 gasUsed * tx.effectiveGasTip header.baseFee) totalFee)

def newRewardConfig : Except RewardErr RewardConfig := do
  let ratio ← (parseRewardRatio pset.ratio).mapError .ratio
  let kip82Ratio ← (if rules.isKore then (parseRewardKip82Ratio pset.kip82Ratio).mapError .ratio
    else .ok (0, 0, 0))
  let totalFee ← (getTotalTxFee header txs receipts rules pset).mapError .panic
  .ok { rules, totalFee, mintingAmount := pset.mintingAmount, minimumStake := pset.minimumStake,
        deferredTxFee := pset.deferredTxFee, ratio, kip82Ratio }

end Config

def isRewardSimple (pset : RewardParams) : Bool := pset.policy ≠ weightedRandom

def getBurnAmountMagma (fee : ℤ) : ℤ := fee / 2

variable (rc : RewardConfig) (stakingInfo : Option StakingInfo)

def getBurnAmountKore (fee : ℤ) : Except GoPanic ℤ := do
  let (cn, _, _) ← splitByRatio rc.ratio rc.mintingAmount
  let (proposer, _) ← splitByKip82Ratio rc.kip82Ratio cn
  .ok (if proposer ≤ fee then proposer else fee)

/-- The fees in total, those that are paid out, and those that are burnt. -/
def calcDeferredFee : Except GoPanic (ℤ × ℤ × ℤ) := do
  if ¬ rc.deferredTxFee then .ok (0, 0, 0)
  else
    let burntMagma := if rc.rules.isMagma then getBurnAmountMagma rc.totalFee else 0
    let rewardFee := rc.totalFee - burntMagma
    let burntKore ← (if rc.rules.isKore then getBurnAmountKore rc rewardFee else .ok 0)
    .ok (rc.totalFee, rewardFee - burntKore, burntMagma + burntKore)

/-- The parts of the proposer, the stakers and the two funds, and what is left of the whole. -/
def calcSplit (minted fee : ℤ) : Except GoPanic (ℤ × ℤ × ℤ × ℤ × ℤ) := do
  let totalResource := minted + fee
  if rc.rules.isKore then
    let (cn, kif, kef) ← splitByRatio rc.ratio minted
    let (proposer, stakers) ← splitByKip82Ratio rc.kip82Ratio cn
    let proposer := proposer + fee
    .ok (proposer, stakers, kif, kef, totalResource - kif - kef - proposer - stakers)
  else
    let (cn, kif, kef) ← splitByRatio rc.ratio totalResource
    .ok (cn, 0, kif, kef, totalResource - kif - kef - cn)

/-- One entry of the council is added to the node with its reward address, or is a new node. -/
def consolidate (entry : CouncilNode) : List CouncilNode → List CouncilNode
  | [] => [entry]
  | node :: nodes =>
    if node.rewardAddr = entry.rewardAddr then
      { node with stakingAmount := node.stakingAmount + entry.stakingAmount } :: nodes
    else node :: consolidate entry nodes

def StakingInfo.consolidated (info : StakingInfo) : List CouncilNode :=
  info.council.foldl (fun nodes entry => consolidate entry nodes) []

def totalStakes (nodes : List CouncilNode) (minStake : UInt64) : UInt64 :=
  nodes.foldl (fun total node =>
    if minStake < node.stakingAmount then total + (node.stakingAmount - minStake) else total) 0

/-- One round of the loop of `calcShares`. -/
def addShare (stakeReward : ℤ) (minStake total : UInt64) (acc : Rewards × ℤ) (node : CouncilNode) :
    Except GoPanic (Rewards × ℤ) := do
  if minStake < node.stakingAmount then
    let rewardAmount ← splitShare stakeReward (node.stakingAmount - minStake).toNat total.toNat
    .ok (if 0 < rewardAmount then acc.1.insert node.rewardAddr rewardAmount else acc.1,
      acc.2 - rewardAmount)
  else .ok acc

/-- The shares of the stakers and what is left. -/
def calcShares (stakeReward : ℤ) (minStake : UInt64) : Except GoPanic (Rewards × ℤ) :=
  match stakingInfo with
  | none => .ok (∅, stakeReward)
  | some info =>
    info.consolidated.foldlM (addShare stakeReward minStake (totalStakes info.consolidated minStake))
      (∅, stakeReward)

def fundAddr (addr : StakingInfo → Address) : Option Address :=
  match stakingInfo with
  | none => none
  | some info => if addr info = 0 then none else some (addr info)

def assignFund (fund : Option Address) (proposer amount : ℤ) : ℤ × ℤ :=
  if fund.isNone then (proposer + amount, 0) else (proposer, amount)

def incrementFund (rewards : Rewards) (fund : Option Address) (amount : ℤ) : Rewards :=
  match fund with
  | none => rewards
  | some addr => increment rewards addr amount

/-- The end of `CalcDeferredReward`, from the parts on. -/
def assembleSpec (order : MapOrder Address ℤ) (rewardbase : Address)
    (stakingInfo : Option StakingInfo) (minted totalFee burntFee : ℤ)
    (split : ℤ × ℤ × ℤ × ℤ × ℤ) (shares : Rewards) (shareRem : ℤ) : RewardSpec :=
  let (proposer, stakers, kif, kef, splitRem) := split
  let kifAddr := fundAddr stakingInfo StakingInfo.kifAddr
  let kefAddr := fundAddr stakingInfo StakingInfo.kefAddr
  let kif := kif + splitRem
  let proposer := proposer + shareRem
  let stakers := stakers - shareRem
  let (proposer, kif) := assignFund kifAddr proposer kif
  let (proposer, kef) := assignFund kefAddr proposer kef
  let rewards := increment ∅ rewardbase proposer
  let rewards := incrementFund rewards kifAddr kif
  let rewards := incrementFund rewards kefAddr kef
  { minted, totalFee, burntFee, proposer, stakers, kif, kef,
    rewards := incrementAll rewards (order.visit shares.entries) }

variable (order : MapOrder Address ℤ) (getStakingInfo : ℕ → Option StakingInfo)
  (ecrecover : Header → Option Address)
variable (header : Header) (txs : List Tx) (receipts : List ℕ) (rules : Params.Rules)
  (pset : RewardParams)

def calcDeferredReward : Except RewardErr RewardSpec := do
  let rc ← newRewardConfig header txs receipts rules pset
  let minted := rc.mintingAmount
  let stakingInfo := getStakingInfo header.number
  let (totalFee, rewardFee, burntFee) ← (calcDeferredFee rc).mapError .panic
  let split ← (calcSplit rc minted rewardFee).mapError .panic
  let (shares, shareRem) ← (calcShares stakingInfo split.2.1
    (UInt64.ofNat rc.minimumStake.natAbs)).mapError .panic
  .ok (assembleSpec order header.rewardbase stakingInfo minted totalFee burntFee split shares shareRem)

/-- Everything goes to the proposer. Before Magma the fees do so even if they are not deferred. -/
def calcDeferredRewardSimple : Except RewardErr RewardSpec := do
  let rc ← newRewardConfig header txs receipts rules pset
  let minted := rc.mintingAmount
  if ¬ rc.deferredTxFee ∧ rc.rules.isMagma then
    .ok { minted, totalFee := 0, burntFee := 0, proposer := minted, stakers := 0, kif := 0,
          kef := 0, rewards := increment ∅ header.rewardbase minted }
  else
    let burntFee := if rc.rules.isMagma then getBurnAmountMagma rc.totalFee else 0
    let proposer := minted + (rc.totalFee - burntFee)
    .ok { minted, totalFee := rc.totalFee, burntFee, proposer, stakers := 0, kif := 0, kef := 0,
          rewards := increment ∅ header.rewardbase proposer }

/-- Only what is minted and burnt, without the staking info. -/
def getTotalReward : Except RewardErr TotalReward := do
  let rc ← newRewardConfig header txs receipts rules pset
  let total ← (if isRewardSimple pset then do
      let spec ← calcDeferredRewardSimple header txs receipts rules pset
      .ok (TotalReward.mk spec.minted spec.burntFee)
    else do
      let (_, _, burntFee) ← (calcDeferredFee rc).mapError .panic
      .ok (TotalReward.mk rc.mintingAmount burntFee))
  if ¬ rc.deferredTxFee ∧ rules.isMagma then
    let txFee ← (getTotalTxFee header txs receipts rules pset).mapError .panic
    .ok { total with burntFee := total.burntFee + getBurnAmountMagma txFee }
  else .ok total

/-- Fees paid before are reported too: for the reward address since Magma, for the signer before. -/
def compensate (spec : RewardSpec) : Except RewardErr RewardSpec := do
  if pset.deferredTxFee then .ok spec
  else if rules.isMagma then
    let txFee ← (getTotalTxFee header txs receipts rules pset).mapError .panic
    let txFeeBurn := getBurnAmountMagma txFee
    let txFeeRemained := txFee - txFeeBurn
    .ok { spec with
      burntFee := txFeeBurn
      proposer := spec.proposer + txFeeRemained
      totalFee := spec.totalFee + txFee
      rewards := increment spec.rewards header.rewardbase txFeeRemained }
  else
    let txFee ← (getTotalTxFee header [] [] rules pset).mapError .panic
    match ecrecover header with
    | none => .error .noSigner
    | some proposer =>
      .ok { spec with
        proposer := spec.proposer + txFee
        totalFee := spec.totalFee + txFee
        rewards := increment spec.rewards proposer txFee }

def getBlockReward : Except RewardErr RewardSpec := do
  let spec ← (if isRewardSimple pset then calcDeferredRewardSimple header txs receipts rules pset
    else calcDeferredReward order getStakingInfo header txs receipts rules pset)
  compensate ecrecover header txs receipts rules pset spec

end Kaia.Reward
