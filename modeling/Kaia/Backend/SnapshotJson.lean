import Kaia.Backend.Snapshot

/-! # Snapshots on disk

Checkpoint snapshots are stored as JSON, with the council in lists of addresses and numbers. The
values of votes are untyped and come back as texts and floating point numbers.
-/

namespace Kaia

open Foundation

def weightedValidators : List Address → List Address → List ℕ → List ℕ → List Validator
  | a :: addrs, r :: rewards, p :: votingPowers, w :: weights =>
      ⟨a, r, p, w⟩ :: weightedValidators addrs rewards votingPowers weights
  | _, _, _, _ => []

/-- `NewWeightedCouncil`: nil for another policy or for lists of different lengths. -/
def newWeightedCouncil (o : AddressOrder) (addrs demotedAddrs : List Address)
    (rewards : Option (List Address)) (votingPowers weights : Option (List ℕ))
    (policy : ProposerPolicy) (committeeSize blockNum proposersBlockNum : ℕ) (chain : Bool) :
    Except GoPanic (Option WeightedCouncil) :=
  if policy ≠ weightedRandom then .ok none
  else if votingPowers = none ∧ ¬ chain then .error .crit
  else
    let rewards := rewards.getD (addrs.map fun _ => 0)
    let weights := weights.getD (addrs.map fun _ => 0)
    let votingPowers := votingPowers.getD (addrs.map fun _ => 1000)
    if addrs.length ≠ rewards.length ∨ addrs.length ≠ votingPowers.length ∨
        addrs.length ≠ weights.length then .ok none
    else
      let validators := o.sort (weightedValidators addrs rewards votingPowers weights)
      .ok (some
        { subSize := committeeSize
          demotedValidators := o.sort (demotedAddrs.map newValidator)
          validators, policy
          proposer := validators.head?.map Validator.address
          proposers := addresses validators
          proposersBlockNum, blockNum, mixHash := none })

def newValidatorSet (o : AddressOrder) (addrs : List Address) (policy : ProposerPolicy)
    (subGroupSize : ℕ) : Except GoPanic ValidatorSet :=
  if policy = weightedRandom then do
    match ← newWeightedCouncil o addrs [] none none none policy subGroupSize 0 0 true with
    | some c => .ok (.weighted c)
    | none => .error .nilPointer
  else .ok (.default (newDefaultSubSet o addrs policy subGroupSize))

/-- Look up the stored proposers; logging one that is not a validator asks it for its address. -/
def recoverWeightedCouncilProposer (c : WeightedCouncil) (proposerAddrs : List Address) :
    Except GoPanic WeightedCouncil :=
  if proposerAddrs.all fun a => (getByAddress c.validators a).isSome then
    .ok { c with proposers := proposerAddrs }
  else .error .nilPointer

def hexDigit (n : ℕ) : UInt8 := UInt8.ofNat (if n < 10 then 48 + n else 87 + n)

def Address.text (a : Address) : Bytes :=
  48 :: 120 :: (List.range 40).map fun i => hexDigit (a.toNat >>> (4 * (39 - i)) % 16)

/-- The nearest `float64` of a machine word, ties to even. -/
def nearestFloat64 (n : ℕ) : ℕ :=
  if n < 2 ^ 53 then n
  else
    let e := n.log2 - 52
    let q := n >>> e
    let r := n % 2 ^ e
    if 2 ^ e < 2 * r ∨ (2 ^ e = 2 * r ∧ q % 2 = 1) then (q + 1) <<< e else q <<< e

/-- An untyped value from JSON; texts that pass the checks of governance are plain ASCII. -/
def VoteValue.decoded : VoteValue → VoteValue
  | .address a => .text a.text
  | .addresses as => .texts (as.map Address.text)
  | .uint64 n => .float64 (nearestFloat64 n)
  | v => v

/-- `snapshotJSON`; `none` stands for a nil slice. -/
structure SnapshotJSON where
  epoch : ℕ
  number : ℕ
  hash : Hash
  votes : List GovernanceVote
  tally : List GovernanceTallyItem
  validators : Option (List Address)
  policy : ProposerPolicy
  subGroupSize : ℕ
  rewardAddrs : Option (List Address)
  votingPowers : Option (List ℕ)
  weights : Option (List ℕ)
  proposers : Option (List Address)
  proposersBlockNum : ℕ
  demotedValidators : Option (List Address)
  mixHash : Option Bytes

/-- `json.Unmarshal` after `json.Marshal`: an empty mix hash comes back as nil. -/
def SnapshotJSON.decoded (j : SnapshotJSON) : SnapshotJSON :=
  { j with
    votes := j.votes.map fun v => { v with value := v.value.decoded }
    tally := j.tally.map fun t => { t with value := t.value.decoded }
    mixHash := if j.mixHash = some [] then none else j.mixHash }

namespace Snapshot

variable (o : AddressOrder) (s : Snapshot)

def validators : List Address :=
  (addresses s.valSet.list).insertionSort fun a b => a.toNat ≤ b.toNat

def toJSONStruct : SnapshotJSON :=
  let j : SnapshotJSON :=
    { epoch := s.epoch, number := s.number, hash := s.hash, votes := s.votes, tally := s.tally
      validators := none, policy := s.policy, subGroupSize := s.committeeSize
      rewardAddrs := none, votingPowers := none, weights := none, proposers := none
      proposersBlockNum := 0, demotedValidators := none, mixHash := none }
  if s.valSet.policy = weightedRandom then
    match s.valSet with
    | .weighted c =>
      { j with
        validators := some (addresses c.validators)
        rewardAddrs := some (c.validators.map Validator.rewardAddress)
        votingPowers := some (c.validators.map Validator.votingPower)
        weights := some (c.validators.map Validator.weight)
        proposers := some c.proposers
        proposersBlockNum := c.proposersBlockNum
        demotedValidators := some (addresses c.demotedValidators)
        mixHash := c.mixHash }
    | .default _ => j
  else { j with validators := some s.validators }

/-- The validator set that is rebuilt from its JSON form. -/
def restoredSet (j : SnapshotJSON) : Except GoPanic ValidatorSet :=
  let addrs := j.validators.getD []
  if j.policy = weightedRandom then do
    match ← newWeightedCouncil o addrs (j.demotedValidators.getD []) j.rewardAddrs
        j.votingPowers j.weights j.policy j.subGroupSize j.number j.proposersBlockNum false with
    | none => .error .nilPointer
    | some c =>
      let c ← recoverWeightedCouncilProposer c (j.proposers.getD [])
      .ok ((ValidatorSet.weighted c).setMixHash j.mixHash)
  else .ok (.default (newDefaultSubSet o addrs j.policy j.subGroupSize))

def unmarshalJSON (j : SnapshotJSON) : Except GoPanic Snapshot := do
  let valSet ← restoredSet o j
  .ok
    { epoch := j.epoch, number := j.number, hash := j.hash, valSet
      policy := 0, committeeSize := 0, votes := j.votes, tally := j.tally }

def roundTrip : Except GoPanic Snapshot :=
  unmarshalJSON o s.toJSONStruct.decoded

/-- The snapshot of a verified genesis block. -/
def initSnapshot {F : Type} (env : SnapshotEnv F) (genesis : Header) : Except ApplyErr Snapshot :=
  match genesis.extra, env.gov.effectiveParams 0 with
  | none, _ => .error (.verify .invalidExtraDataFormat)
  | some _, none => .error (.verify .governance)
  | some istanbulExtra, some pset => do
    let valSet ← (newValidatorSet env.chain.order istanbulExtra.validators pset.policy
      pset.committeeSize).mapError (.fault ∘ .panic)
    .ok (newSnapshot env 0 genesis.hash (valSet.setMixHash genesis.mixHash))

variable {F : Type} {env : SnapshotEnv F} {genesis : Header} {s t : Snapshot}

/-- The snapshots that headers lead to from the genesis block. -/
inductive Reachable (env : SnapshotEnv F) (genesis : Header) : Snapshot → Prop
  | init {s : Snapshot} : initSnapshot env genesis = .ok s → Reachable env genesis s
  | apply {s t : Snapshot} {headers : List Header} : Reachable env genesis s →
      s.apply env weightedRandom headers = .ok t → Reachable env genesis t

/-- Governance never gives another policy than the weighted-random one. -/
def WeightedGovernance (env : SnapshotEnv F) : Prop :=
  ∀ n pset, env.gov.effectiveParams n = some pset → pset.policy = weightedRandom

/-- The policy and the committee size are not both zero. -/
def HasParams (s : Snapshot) : Prop := s.policy = weightedRandom ∨ s.committeeSize = 21

section

variable (hgov : WeightedGovernance env)

include hgov

theorem effectiveParams_ne (n : ℕ) :
    (effectiveParams env n).2.1 = weightedRandom ∨ (effectiveParams env n).2.2 = 21 := by
  unfold effectiveParams
  cases hp : env.gov.effectiveParams n with
  | none => exact .inr rfl
  | some pset => exact .inl (hgov n pset hp)

theorem initSnapshot_hasParams (h : initSnapshot env genesis = .ok s) : s.HasParams := by
  unfold initSnapshot at h
  split at h
  · cases h
  · cases h
  · obtain ⟨V, -, hok⟩ := bind_eq_ok.mp h
    cases hok
    exact effectiveParams_ne hgov _

theorem apply_hasParams {policy : ProposerPolicy}
    {headers : List Header} (h : s.apply env policy headers = .ok t) (hs : s.HasParams) :
    t.HasParams := by
  cases hlast : headers.getLast? with
  | none =>
    obtain rfl := List.getLast?_eq_none_iff.mp hlast
    cases h
    exact hs
  | some last =>
    rw [apply_eq_fold hlast] at h
    split at h
    · obtain ⟨u, hfold, rfl⟩ := map_eq_ok.mp h
      have hreload := foldlM_reloaded hfold hlast
      have hparams := effectiveParams_ne hgov (uint64 (uint64 last.number + 1))
      rw [← hreload]
      exact hparams
    · cases h

theorem Reachable.hasParams (h : Reachable env genesis s) : s.HasParams := by
  induction h with
  | init hinit => exact initSnapshot_hasParams hgov hinit
  | apply _ happly ih => exact apply_hasParams hgov happly ih

end

/-- All that the choice of proposers and committees and the later votes read. -/
structure Restored (s t : Snapshot) : Prop where
  number : t.number = s.number
  hash : t.hash = s.hash
  epoch : t.epoch = s.epoch
  policy : t.policy = s.policy
  committeeSize : t.committeeSize = s.committeeSize
  votes : t.votes = s.votes
  tally : t.tally = s.tally
  validators : addresses t.valSet.list = addresses s.valSet.list
  rewardAddresses :
    t.valSet.list.map Validator.rewardAddress = s.valSet.list.map Validator.rewardAddress
  weights : t.valSet.list.map Validator.weight = s.valSet.list.map Validator.weight
  demotedValidators : addresses t.valSet.demotedList = addresses s.valSet.demotedList
  proposers : t.valSet.proposers = s.valSet.proposers
  proposersBlockNum : t.valSet.proposersBlockNum = s.valSet.proposersBlockNum
  blockNum : t.valSet.frame.blockNum = s.valSet.frame.blockNum
  mixHash : t.valSet.frame.mixHash = s.valSet.frame.mixHash
  subSize : t.valSet.subGroupSize = s.valSet.subGroupSize

theorem unmarshalJSON_zero {o : AddressOrder} {j : SnapshotJSON}
    (h : unmarshalJSON o j = .ok t) : t.policy = 0 ∧ t.committeeSize = 0 := by
  obtain ⟨V, -, hok⟩ := bind_eq_ok.mp h
  cases hok
  exact ⟨rfl, rfl⟩

/-- No snapshot that the chain comes to is restored by storing and loading it. -/
theorem stored_snapshot_not_restored (hgov : WeightedGovernance env)
    (h : Reachable env genesis s) :
    ¬ ∃ t, s.roundTrip env.chain.order = .ok t ∧ Restored s t := by
  rintro ⟨t, hload, hrestored⟩
  obtain ⟨hpolicy, hsize⟩ := unmarshalJSON_zero hload
  have hsame := hrestored.policy
  have hsizes := hrestored.committeeSize
  rcases h.hasParams hgov with hs | hs
  · rw [hpolicy, hs] at hsame
    exact absurd hsame (by decide)
  · rw [hsize, hs] at hsizes
    exact absurd hsizes (by decide)

def pairGenesis : Header := ⟨0, 0, 0, 0, some ⟨[1, 2], [], []⟩, some [], []⟩

/-- A chain on which the second of two validators stakes less than the minimum. -/
def demoting : SnapshotEnv ℕ where
  chain := { ChainEnv.counting with forks := ⟨some 0, none, none, none⟩ }
  gov :=
    { decodeVote := fun _ => none
      toLower := id
      effectiveParams := fun _ => some
        { epoch := 604800, policy := weightedRandom, committeeSize := 22
          governanceMode := .none, governingNode := 0, minimumStake := 5 } }
  float := FloatOps.nat
  recover := fun _ _ => .ok 1
  stakingInfo := fun _ => some ⟨[1, 2], [1, 2], false, [10, 0]⟩
  getHeaderByNumber := fun n => if n = 0 then some pairGenesis else none

theorem pair_not_restored :
    ∃ s, initSnapshot demoting pairGenesis = .ok s ∧
      ¬ ∃ t, s.roundTrip demoting.chain.order = .ok t ∧ Restored s t := by
  have hgov : WeightedGovernance demoting := by
    rintro n pset h
    cases h
    rfl
  obtain ⟨s, hs⟩ : ∃ s, initSnapshot demoting pairGenesis = .ok s := ⟨_, rfl⟩
  exact ⟨s, hs, stored_snapshot_not_restored hgov (.init hs)⟩

/-- A demoted validator is still a proposer, and loading the stored snapshot panics. -/
theorem stale_proposer_panics :
    ∃ s, Reachable demoting pairGenesis s ∧
      s.roundTrip demoting.chain.order = .error .nilPointer := by
  have hrun : (do
      let g ← initSnapshot demoting pairGenesis
      let s ← g.apply demoting weightedRandom [soloHeader 1]
      pure (s.roundTrip demoting.chain.order)) = .ok (.error .nilPointer) := by
    decide +kernel
  obtain ⟨g, hg, hrest⟩ := bind_eq_ok.mp hrun
  obtain ⟨s, hs, hload⟩ := bind_eq_ok.mp hrest
  exact ⟨s, .apply (.init hg) hs, Except.ok.inj hload⟩

end Snapshot

end Kaia
