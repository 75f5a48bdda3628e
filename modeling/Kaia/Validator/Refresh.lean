import Kaia.Validator.Committee

/-! # Refreshing the weighted council

After each block the council is divided by stakes and weighed anew, and once per interval proposers
are drawn. Stakes are summed in floating point, whose operations are kept abstract.
-/

namespace Kaia

open Foundation

/-- The operations on `float64` that the refresh uses. -/
structure FloatOps (F : Type) where
  zero : F
  one : F
  hundred : F
  ofUint64 : ℕ → F
  toUint64 : F → ℕ
  add : F → F → F
  mul : F → F → F
  div : F → F → F
  pow : F → F → F
  round : F → F
  isPositive : F → Bool
  calcGiniCoefficient : List F → F

/-- Natural numbers in the place of floating point numbers. -/
def FloatOps.nat : FloatOps ℕ where
  zero := 0
  one := 1
  hundred := 100
  ofUint64 := id
  toUint64 := uint64
  add := (· + ·)
  mul := (· * ·)
  div := (· / ·)
  pow := (· ^ ·)
  round := id
  isPositive := fun x => 0 < x
  calcGiniCoefficient := fun _ => 0

/-- Staking information: parallel lists of the nodes, their reward addresses and the
amounts they stake. -/
structure StakingInfo where
  councilNodeAddrs : List Address
  councilRewardAddrs : List Address
  useGini : Bool
  councilStakingAmounts : List ℕ

def StakingInfo.getIndexByNodeAddress (info : StakingInfo) (a : Address) : Option ℕ :=
  info.councilNodeAddrs.findIdx? (· = a)

section Stakes

variable {F : Type} (fl : FloatOps F)

variable (info : StakingInfo) (candidates : List (Validator × F))

/-- The sum of the amounts that are staked for one reward address. -/
def rewardStake (reward : Address) : Except GoPanic F :=
  info.councilRewardAddrs.zipIdx.foldlM (fun amount (rewardAddr, rIdx) =>
    if rewardAddr = reward then
      match info.councilStakingAmounts[rIdx]? with
      | none => .error .indexOutOfRange
      | some staked => .ok (fl.add amount (fl.ofUint64 staked))
    else .ok amount) fl.zero

/-- The stake of one candidate, which also learns its reward address. -/
def stakingAmountOf (val : Validator) : Except GoPanic (Validator × F) :=
  match info.getIndexByNodeAddress val.address with
  | none => .ok (val, fl.zero)
  | some cIdx =>
    match info.councilRewardAddrs[cIdx]? with
    | none => .error .indexOutOfRange
    | some valRewardAddr => do
      .ok ({ val with rewardAddress := valRewardAddr }, ← rewardStake fl info valRewardAddr)

def getStakingAmountsOfValidators (validators : List Validator) :
    Except GoPanic (List (Validator × F)) :=
  validators.mapM (stakingAmountOf fl info)

/-- Divide the candidates by the minimum stake. In single mode the governing node is a validator;
if it is no candidate, a nil pointer takes its place. -/
def filterValidators (isSingleMode : Bool) (govNodeAddr : Address)
    (candidates : List (Validator × F)) (minStaking : ℕ) :
    Except GoPanic (List (Validator × F) × List (Validator × F)) :=
  let isGovNode := fun c : Validator × F => isSingleMode && govNodeAddr == c.1.address
  let enough := fun c : Validator × F => decide (minStaking ≤ fl.toUint64 c.2)
  let others := candidates.filter fun c => !isGovNode c
  let newValidators := others.filter enough
  let newDemoted := others.filter fun c => !enough c
  let govNode := (candidates.filter isGovNode).getLast?
  let govNodeStaking := govNode.elim fl.zero Prod.snd
  -- when nobody stakes enough, everyone is a validator
  let (newValidators, newDemoted) :=
    if newValidators = [] ∧ (¬ isSingleMode ∨ fl.toUint64 govNodeStaking < minStaking) then
      (newDemoted, [])
    else (newValidators, newDemoted)
  if isSingleMode then
    match govNode with
    | none => .error .nilPointer
    | some g => .ok (newValidators ++ [g], newDemoted)
  else .ok (newValidators, newDemoted)

def setZeroWeight (vals : List Validator) : List Validator :=
  vals.map fun val => { val with weight := 0 }

/-- The total of the stakes, and the stakes after the Gini coefficient is applied. -/
def calcTotalAmount : F × List (Validator × F) :=
  if info.councilNodeAddrs = [] then (fl.zero, candidates)
  else
    let candidates :=
      if info.useGini then
        let gini := fl.calcGiniCoefficient
          ((candidates.filter fun c => (info.getIndexByNodeAddress c.1.address).isSome).map Prod.snd)
        candidates.map fun c =>
          (c.1, fl.round (fl.pow c.2 (fl.div fl.one (fl.add fl.one gini))))
      else candidates
    (candidates.foldl (fun total c => fl.add total c.2) fl.zero, candidates)

def calcWeight (totalStaking : F) : List Validator :=
  if fl.isPositive totalStaking then
    candidates.map fun c =>
      { c.1 with
        weight := max 1 (fl.toUint64 (fl.round (fl.div (fl.mul c.2 fl.hundred) totalStaking))) }
  else setZeroWeight (candidates.map Prod.fst)

def reweigh (isKore : Bool) (info : StakingInfo) (candidates : List (Validator × F)) :
    List Validator :=
  if isKore then setZeroWeight (candidates.map Prod.fst)
  else
    let (totalStaking, candidates) := calcTotalAmount fl info candidates
    calcWeight fl candidates totalStaking

end Stakes

/-- The reasons for which a refresh is skipped. -/
inductive RefreshErr
  | noValidator | noStakingInfo
  deriving DecidableEq

section Refresh

variable {F : Type} (fl : FloatOps F) (env : ChainEnv) (stakingInfo : ℕ → Option StakingInfo)

def stakingBlockNum (blockNum : ℕ) : Except GoPanic ℕ :=
  if isForked env.forks.kaia blockNum then .ok blockNum
  else if env.proposerUpdateInterval = 0 then .error .divideByZero
  else .ok (uint64 (calcProposerBlockNumber env.proposerUpdateInterval blockNum + 1))

/-- Both lists after a refresh; demoted members are weighed only together with all candidates. -/
def refreshedLists (blockNum : ℕ) (isSingle : Bool) (governingNode : Address) (minStaking : ℕ)
    (validators demoted : List Validator) :
    Except GoPanic (Except RefreshErr (List Validator × List Validator)) :=
  if validators = [] then .ok (.error .noValidator)
  else do
    match stakingInfo (← stakingBlockNum env blockNum) with
    | none => .ok (.error .noStakingInfo)
    | some info =>
      let isKore := isForked env.forks.kore blockNum
      let candidates ← getStakingAmountsOfValidators fl info (validators ++ demoted)
      if isForked env.forks.istanbul blockNum then
        let (kept, demoted) ← filterValidators fl isSingle governingNode candidates minStaking
        .ok (.ok (env.order.sort (reweigh fl isKore info kept),
          env.order.sort (demoted.map Prod.fst)))
      else
        let weighed := reweigh fl isKore info candidates
        .ok (.ok (weighed.take validators.length, weighed.drop validators.length))

/-- `RefreshValSet`. The plain set has nothing to refresh. -/
def ValidatorSet.refreshValSet (V : ValidatorSet) (blockNum : ℕ) (isSingle : Bool)
    (governingNode : Address) (minStaking : ℕ) :
    Except GoPanic (Except RefreshErr ValidatorSet) :=
  match V with
  | .default s => .ok (.ok (.default s))
  | .weighted c => do
    match ← refreshedLists fl env stakingInfo blockNum isSingle governingNode minStaking
        c.validators c.demotedValidators with
    | .error e => .ok (.error e)
    | .ok (validators, demotedValidators) =>
      .ok (.ok (.weighted { c with validators, demotedValidators }))

/-- Every validator as often as it weighs, or everyone once without weights, shuffled. -/
def drawProposers (seed : ℤ) (validators : List Validator) : List Address :=
  let weighted := validators.zipIdx.flatMap fun (val, index) => List.replicate val.weight index
  let candidateValsIdx := if weighted = [] then List.range validators.length else weighted
  let limit := candidateValsIdx.length
  let shuffled := swaps candidateValsIdx
    ((List.range limit).map fun i => (i, env.rng.intn seed i limit))
  addresses (picks validators shuffled)

/-- `RefreshProposers`, once for each block at which proposers are determined. -/
def ValidatorSet.refreshProposers (V : ValidatorSet) (hash : Hash) (blockNum : ℕ) :
    Except RefreshErr ValidatorSet :=
  match V with
  | .default s => .ok (.default s)
  | .weighted c =>
    if c.validators = [] then .error .noValidator
    else if c.proposersBlockNum = blockNum then .ok (.weighted c)
    else
      .ok (.weighted { c with
        proposers := drawProposers env (convertHashToSeed hash) c.validators
        proposersBlockNum := blockNum })

end Refresh

namespace ValidatorSet

variable (V : ValidatorSet)

def setSubGroupSize (size : ℕ) : ValidatorSet :=
  if size = 0 then V
  else
    match V with
    | .default s => .default { s with subSize := size }
    | .weighted c => .weighted { c with subSize := size }

def setBlockNum (blockNum : ℕ) : ValidatorSet :=
  match V with
  | .default s => .default s
  | .weighted c => .weighted { c with blockNum }

def setMixHash (mixHash : Option Bytes) : ValidatorSet :=
  match V with
  | .default s => .default s
  | .weighted c => .weighted { c with mixHash }

def proposers : ValidatorSet → List Address
  | .default _ => []
  | .weighted c => c.proposers

def proposersBlockNum : ValidatorSet → ℕ
  | .default _ => 0
  | .weighted c => c.proposersBlockNum

end ValidatorSet

/-- The part of a validator set that neither votes nor refreshes read or change. -/
structure SetFrame where
  subSize : ℕ
  proposer : Option Address
  blockNum : ℕ
  mixHash : Option Bytes

variable (φ ψ : SetFrame) (V : ValidatorSet) (a : Address)

namespace ValidatorSet

def frame : ValidatorSet → SetFrame
  | .default s => ⟨s.subSize, s.proposer, 0, none⟩
  | .weighted c => ⟨c.subSize, c.proposer, c.blockNum, c.mixHash⟩

def reframe (φ : SetFrame) : ValidatorSet → ValidatorSet
  | .default s => .default { s with subSize := φ.subSize, proposer := φ.proposer }
  | .weighted c =>
      .weighted { c with
        subSize := φ.subSize, proposer := φ.proposer, blockNum := φ.blockNum
        mixHash := φ.mixHash }

@[simp] theorem frame_reframe_weighted (c : WeightedCouncil) :
    ((weighted c).reframe φ).frame = φ := rfl

@[simp] theorem reframe_frame : V.reframe V.frame = V := by cases V <;> rfl

@[simp] theorem reframe_reframe : (V.reframe φ).reframe ψ = V.reframe ψ := by cases V <;> rfl

@[simp] theorem list_reframe : (V.reframe φ).list = V.list := by cases V <;> rfl

@[simp] theorem demotedList_reframe : (V.reframe φ).demotedList = V.demotedList := by
  cases V <;> rfl

@[simp] theorem policy_reframe : (V.reframe φ).policy = V.policy := by cases V <;> rfl

@[simp] theorem proposers_reframe : (V.reframe φ).proposers = V.proposers := by cases V <;> rfl

@[simp] theorem proposersBlockNum_reframe :
    (V.reframe φ).proposersBlockNum = V.proposersBlockNum := by cases V <;> rfl

@[simp] theorem subGroupSize_reframe : (V.reframe φ).subGroupSize = φ.subSize := by
  cases V <;> rfl

@[simp] theorem getByAddress_reframe : (V.reframe φ).getByAddress a = V.getByAddress a := by
  simp only [getByAddress, list_reframe]

@[simp] theorem getDemotedByAddress_reframe :
    (V.reframe φ).getDemotedByAddress a = V.getDemotedByAddress a := by
  simp only [getDemotedByAddress, demotedList_reframe]

@[simp] theorem totalVotingPower_reframe : (V.reframe φ).totalVotingPower = V.totalVotingPower := by
  simp only [totalVotingPower, list_reframe]

theorem addValidator_reframe (o : AddressOrder) :
    (V.reframe φ).addValidator o a = (V.addValidator o a).reframe φ := by
  simp only [addValidator, getByAddress_reframe, getDemotedByAddress_reframe]
  split
  · rfl
  · cases V <;> rfl

theorem removeValidator_reframe :
    (V.reframe φ).removeValidator a = Prod.map (reframe φ) id (V.removeValidator a) := by
  cases V with
  | default s =>
    simp only [removeValidator, reframe]
    split <;> rfl
  | weighted c =>
    simp only [removeValidator, reframe]
    split
    · rfl
    · split <;> rfl

@[simp] theorem addValidator_policy (o : AddressOrder) :
    (V.addValidator o a).policy = V.policy := by
  unfold addValidator
  split
  · rfl
  · cases V <;> rfl

@[simp] theorem removeValidator_policy : (V.removeValidator a).1.policy = V.policy := by
  cases V with
  | default s =>
    simp only [removeValidator]
    split <;> rfl
  | weighted c =>
    simp only [removeValidator]
    split
    · rfl
    · split <;> rfl

theorem setSubGroupSize_eq_reframe (size : ℕ) :
    V.setSubGroupSize size =
      V.reframe { V.frame with subSize := if size = 0 then V.frame.subSize else size } := by
  unfold setSubGroupSize
  split <;> cases V <;> rfl

variable {F : Type} (fl : FloatOps F) (env : ChainEnv) (stakingInfo : ℕ → Option StakingInfo)

theorem refreshValSet_reframe (blockNum : ℕ) (isSingle : Bool) (governingNode : Address)
    (minStaking : ℕ) :
    (V.reframe φ).refreshValSet fl env stakingInfo blockNum isSingle governingNode minStaking =
      (V.refreshValSet fl env stakingInfo blockNum isSingle governingNode minStaking).map
        (Except.map (reframe φ)) := by
  cases V with
  | default s => rfl
  | weighted c =>
    simp only [refreshValSet, reframe]
    rcases refreshedLists fl env stakingInfo blockNum isSingle governingNode minStaking
      c.validators c.demotedValidators with e | e | ⟨vs, ds⟩ <;> rfl

theorem refreshProposers_reframe (hash : Hash) (blockNum : ℕ) :
    (V.reframe φ).refreshProposers env hash blockNum =
      (V.refreshProposers env hash blockNum).map (reframe φ) := by
  cases V with
  | default s => rfl
  | weighted c =>
    simp only [refreshProposers, reframe]
    split
    · rfl
    · split <;> rfl

end ValidatorSet

variable (o : AddressOrder) {V : ValidatorSet}

/-- The members of a plain set are fresh and sorted, the mix hash of a council is not missing. -/
def ValidatorSet.Settled : ValidatorSet → Prop
  | .default s => (∀ v ∈ s.validators, newValidator v.address = v) ∧ s.validators.Pairwise o.le
  | .weighted c => c.mixHash.isSome

namespace ValidatorSet

variable {o}

theorem copy_settled (V : ValidatorSet) : (V.copy o).Settled o := by
  cases V with
  | weighted c => rfl
  | default s =>
    simp only [copy, Settled, DefaultSet.copy_validators]
    constructor
    · intro v hv
      obtain ⟨a, -, rfl⟩ := List.mem_map.mp ((o.sort_perm _).mem_iff.mp hv)
      rfl
    · exact List.pairwise_insertionSort o.le _

theorem Settled.addValidator (h : V.Settled o) (a : Address) : (V.addValidator o a).Settled o := by
  unfold ValidatorSet.addValidator
  split
  · exact h
  · cases V with
    | weighted c => exact h
    | default s =>
      constructor
      · intro v hv
        rcases List.mem_append.mp ((o.sort_perm _).mem_iff.mp hv) with hv | hv
        · exact h.1 v hv
        · obtain rfl := List.mem_singleton.mp hv
          rfl
      · exact List.pairwise_insertionSort o.le _

theorem Settled.removeValidator (h : V.Settled o) (a : Address) :
    (V.removeValidator a).1.Settled o := by
  cases V with
  | weighted c =>
    simp only [ValidatorSet.removeValidator]
    split
    · exact h
    · split <;> exact h
  | default s =>
    simp only [ValidatorSet.removeValidator]
    split
    · constructor
      · intro v hv
        exact h.1 v (List.mem_of_mem_eraseP hv)
      · exact h.2.sublist (List.eraseP_sublist)
    · exact h

variable {F : Type} {fl : FloatOps F} {env : ChainEnv} {stakingInfo : ℕ → Option StakingInfo}

theorem refreshValSet_settled {blockNum minStaking : ℕ} {isSingle : Bool} {node : Address}
    {r : Except RefreshErr ValidatorSet}
    (h : V.refreshValSet fl env stakingInfo blockNum isSingle node minStaking = .ok r) :
    (r.toOption.getD V).policy = V.policy ∧ (V.Settled o → (r.toOption.getD V).Settled o) := by
  cases V with
  | default s =>
    cases h
    exact ⟨rfl, id⟩
  | weighted c =>
    simp only [refreshValSet] at h
    rcases hl : refreshedLists fl env stakingInfo blockNum isSingle node minStaking
      c.validators c.demotedValidators with e | e | ⟨vs, ds⟩ <;> rw [hl] at h <;> cases h
    all_goals exact ⟨rfl, id⟩

theorem refreshProposers_settled (env : ChainEnv) (V : ValidatorSet) (hash : Hash) (blockNum : ℕ) :
    ((V.refreshProposers env hash blockNum).toOption.getD V).policy = V.policy ∧
      (V.Settled o → ((V.refreshProposers env hash blockNum).toOption.getD V).Settled o) := by
  cases V with
  | default s => exact ⟨rfl, id⟩
  | weighted c =>
    simp only [refreshProposers]
    split
    · exact ⟨rfl, id⟩
    · split <;> exact ⟨rfl, id⟩

theorem Settled.copy_reframe (h : V.Settled o) (φ : SetFrame) :
    ∃ proposer, (V.reframe φ).copy o =
      V.reframe { φ with proposer, mixHash := some (φ.mixHash.getD []) } := by
  cases V with
  | weighted c => exact ⟨φ.proposer, rfl⟩
  | default s =>
    have hfresh : (addresses s.validators).map newValidator = s.validators := by
      rw [addresses, List.map_map]
      exact (List.map_congr_left h.1).trans (List.map_id _)
    obtain ⟨p, hp⟩ :=
      DefaultSet.copy_eq o { s with subSize := φ.subSize, proposer := φ.proposer }
    rw [hfresh, AddressOrder.sort, h.2.insertionSort_eq] at hp
    exact ⟨p, congrArg ValidatorSet.default hp⟩

end ValidatorSet

end Kaia
