import Kaia.Backend.Snapshot

/-! # Votes and the state of the node

A node that keeps its governance state also puts votes that pass in its set of changes and ticks
off those it has cast itself. Without write access this comes to reading the vote.
-/

namespace Kaia

open Foundation

/-- A vote of the node itself. -/
structure VoteStatus where
  value : VoteValue
  casted : Bool
  num : ℕ
  deriving DecidableEq

def VoteValue.isA : VoteValue → ValueType → Bool
  | .uint64 _, .uint64 | .text _, .string | .bool _, .bool | .address _, .address => true
  | _, _ => false

abbrev GovernanceSet := (k : GovKey) → Option { v : VoteValue // v.isA k.type }

/-- What votes change in the governance engine. -/
structure Governance where
  voteMap : GovKey → Option VoteStatus
  changeSet : GovernanceSet
  governanceVotes : List GovernanceVote
  governanceTallies : List GovernanceTallyItem
  /-- Up to this block the state was stored, and votes are not reflected again. -/
  lastGovernanceStateBlock : ℕ

def compareValues : VoteValue → VoteValue → Except GoPanic Bool
  | .addresses _, .addresses _ => .error .uncomparable
  | .texts _, .texts _ => .error .uncomparable
  | v, w => .ok (v = w)

namespace Governance

variable (g : Governance) (writable : Bool) (k : GovKey)

def setValue (value : { v : VoteValue // v.isA k.type }) : Governance :=
  { g with changeSet := Function.update g.changeSet k (some value) }

def removeItem : Governance :=
  { g with changeSet := Function.update g.changeSet k none }

/-- `updateChangeSet`: the value must have the type of its key, and validators are not
parameters. -/
def updateChangeSet (vote : GovernanceVote) : Except GoPanic Governance :=
  if vote.key = .addValidator ∨ vote.key = .removeValidator then .ok g
  else if h : vote.value.isA vote.key.type then .ok (g.setValue vote.key ⟨vote.value, h⟩)
  else .error .typeAssertion

/-- `RemoveVote`: a vote of the node is ticked off when it has been cast. -/
def removeVote (value : VoteValue) (number : ℕ) : Governance :=
  match g.voteMap k with
  | some status =>
    if isEqualValue k status.value value then
      { g with voteMap := Function.update g.voteMap k (some ⟨value, true, number⟩) }
    else g
  | none => g

def importVotes (number : ℕ) (votes : List GovernanceVote) (tally : List GovernanceTallyItem) :
    Governance :=
  if g.lastGovernanceStateBlock < number then
    { g with governanceVotes := votes, governanceTallies := tally }
  else g

def clearVotes : Governance :=
  { g with
    voteMap := fun k => (g.voteMap k).filter fun status => !status.casted
    changeSet := fun _ => none
    governanceVotes := []
    governanceTallies := [] }

def withdraw (value : VoteValue) : Except GoPanic Governance :=
  match g.changeSet k with
  | none => .ok g
  | some v => do .ok (if ← compareValues v.1 value then g.removeItem k else g)

variable (o : AddressOrder) (valset : ValidatorSet)

/-- What taking back an earlier vote does to the changes. -/
def retract (tally : List GovernanceTallyItem)
    (proposer : Address) (vote old : GovernanceVote) (mode : GovernanceMode)
    (governingNode : Address) : Except GoPanic Governance :=
  let vp := ((valset.getByAddress proposer).map fun p => p.2.votingPower).getD 0
  let currentVotes := (changeGovernanceTally vote.key old.value vp false tally).1
  if writable ∧ (isGovernanceModeSingleOrNone mode governingNode vote.validator ∨
      (mode = .ballot ∧ currentVotes ≤ valset.totalVotingPower / 2)) then
    g.withdraw vote.key old.value
  else .ok g

/-- `removePreviousVote`. -/
def removePreviousVote (votes : List GovernanceVote)
    (tally : List GovernanceTallyItem) (proposer : Address) (vote : GovernanceVote)
    (mode : GovernanceMode) (governingNode : Address) :
    Except GoPanic ((List GovernanceVote × List GovernanceTallyItem) × Governance) := do
  let r ← Kaia.removePreviousVote valset votes tally proposer vote.key
  match votes.find? fun v => v.validator = proposer ∧ v.key = vote.key with
  | none => .ok (r, g)
  | some old => do
    .ok (r, ← g.retract writable valset tally proposer vote old mode governingNode)

def passes (mode : GovernanceMode) (governingNode : Address) (valset : ValidatorSet)
    (vote : GovernanceVote) (currentVotes : ℕ) : Bool :=
  isGovernanceModeSingleOrNone mode governingNode vote.validator ∨
    (mode = .ballot ∧ valset.totalVotingPower / 2 < currentVotes)

/-- `addNewVote`. -/
def addNewVote (votes : List GovernanceVote) (tally : List GovernanceTallyItem) (vote : GovernanceVote)
    (mode : GovernanceMode) (governingNode : Address) (blockNum : ℕ) :
    Except Fault ((ValidatorSet × List GovernanceVote × List GovernanceTallyItem) × Governance) := do
  let r ← Kaia.addNewVote o valset votes tally vote mode governingNode
  match valset.getByAddress vote.validator with
  | none => .ok (r, g)
  | some (_, v) =>
    if passes mode governingNode valset vote
        (changeGovernanceTally vote.key vote.value v.votingPower true tally).1 ∧
        writable ∧ g.lastGovernanceStateBlock ≤ blockNum then do
      .ok (r, ← (g.updateChangeSet vote).mapError .panic)
    else .ok (r, g)

/-- Count a valid vote, and tick it off if it is the node's own. -/
def castVote (votes : List GovernanceVote) (tally : List GovernanceTallyItem) (pset : GovParams)
    (proposer self : Address) (number : ℕ) (vote : GovernanceVote) :
    Except Fault ((ValidatorSet × List GovernanceVote × List GovernanceTallyItem) × Governance) := do
  let ((votes, tally), g) ← (g.removePreviousVote writable valset votes tally proposer vote
    pset.governanceMode pset.governingNode).mapError .panic
  let (r, g) ← g.addNewVote writable o valset (votes ++ [vote]) tally vote pset.governanceMode
    pset.governingNode number
  .ok (r, if writable ∧ self = proposer then g.removeVote vote.key vote.value number else g)

/-- `HandleGovernanceVote`. -/
def handleGovernanceVote (gov : GovEnv)
    (valset : ValidatorSet) (votes : List GovernanceVote) (tally : List GovernanceTallyItem)
    (header : Header) (proposer self : Address) :
    Except Fault ((ValidatorSet × List GovernanceVote × List GovernanceTallyItem) × Governance) := do
  let number := uint64 header.number
  match ← (headerVote gov header).mapError .panic with
  | none => .ok ((valset, votes, tally), g)
  | some vote =>
    if voteApplies valset vote then
      match validateVote gov.toLower vote with
      | some vote =>
        match gov.effectiveParams number with
        | none => .ok ((valset, votes, tally), g)
        | some pset => do
          let (r, g) ← g.castVote writable o valset votes tally pset proposer self number vote
          .ok (r, if writable then g.importVotes number r.2.1 r.2.2 else g)
      | none =>
        .ok ((valset, votes, tally), if writable then g.importVotes number votes tally else g)
    else
      -- a vote for a validator that changes nothing is ticked off unseen
      .ok ((valset, votes, tally),
        if vote.key ≠ .governingNode ∧ writable ∧ proposer = self then
          g.removeVote vote.key vote.value number
        else g)

section Apply

variable {F : Type} (env : SnapshotEnv F) (policy : ProposerPolicy) (writable : Bool)
  (self : Address)

/-- Count the vote of a header and, under the weighted-random policy, refresh the council. -/
def countVote (g : Governance) (snap : Snapshot) (header : Header) (validator : Address) :
    Except ApplyErr (Snapshot × Governance) := do
  let ((valSet, votes, tally), g) ← (g.handleGovernanceVote writable env.chain.order env.gov
    snap.valSet snap.votes snap.tally header validator self).mapError .fault
  let refreshed :=
    if policy = weightedRandom then Snapshot.refreshCouncil env valSet (uint64 header.number)
    else .ok valSet
  let valSet ← refreshed
  .ok ({ snap with valSet, votes, tally }, g)

/-- The body of the loop of `Snapshot.apply`. -/
def applyHeader (st : Snapshot × Governance) (header : Header) :
    Except ApplyErr (Snapshot × Governance) := do
  let number := uint64 header.number
  let (snap, g) := st
  let validator ← (ecrecover (m := Id) env.recover header).mapError .verify
  if (snap.valSet.getByAddress validator).isNone then .error (.verify .unauthorized)
  else if snap.epoch = 0 then .error (.fault (.panic .divideByZero))
  else
    let g := if writable ∧ number % snap.epoch = 0 then g.clearVotes else g
    let snap := (snap.turnEpoch number).reload env (uint64 (number + 1))
    g.countVote env policy writable self snap header validator

/-- The states of a node that applies headers to a snapshot one after the other. -/
def Reaches (s : Snapshot) (g : Governance) (headers : List Header)
    (st : Snapshot × Governance) : Prop :=
  headers.foldlM (applyHeader env policy writable self) (s.start env, g) = .ok st

end Apply

end Governance

end Kaia
