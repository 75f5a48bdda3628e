import Kaia.Foundation.Folds
import Kaia.Validator.Refresh

/-! # Governance votes

The vote of a header is decoded, checked against its key, and tallied by voting power; one that
passes changes the validator set at once. This is the read-only half.
-/

namespace Kaia

open Foundation List ValidatorSet

/-- The keys of `GovernanceKeyMap`. -/
inductive GovKey
  | governanceMode | governingNode | govParamContract
  | epoch | policy | committeeSize | timeout
  | unitPrice | deriveShaImpl
  | lowerBoundBaseFee | gasTarget | maxBlockGasUsedForBaseFee | baseFeeDenominator
  | upperBoundBaseFee
  | mintingAmount | ratio | kip82Ratio | useGiniCoeff | deferredTxFee | minimumStake
  | stakeUpdateInterval | proposerRefreshInterval
  | addValidator | removeValidator | constTxGasHumanReadable
  deriving DecidableEq

def governanceKeyMap : String → Option GovKey
  | "governance.governancemode" => some .governanceMode
  | "governance.governingnode" => some .governingNode
  | "governance.govparamcontract" => some .govParamContract
  | "istanbul.epoch" => some .epoch
  | "istanbul.policy" => some .policy
  | "istanbul.committeesize" => some .committeeSize
  | "governance.unitprice" => some .unitPrice
  | "governance.deriveshaimpl" => some .deriveShaImpl
  | "kip71.lowerboundbasefee" => some .lowerBoundBaseFee
  | "kip71.gastarget" => some .gasTarget
  | "kip71.maxblockgasusedforbasefee" => some .maxBlockGasUsedForBaseFee
  | "kip71.basefeedenominator" => some .baseFeeDenominator
  | "kip71.upperboundbasefee" => some .upperBoundBaseFee
  | "reward.mintingamount" => some .mintingAmount
  | "reward.ratio" => some .ratio
  | "reward.kip82ratio" => some .kip82Ratio
  | "reward.useginicoeff" => some .useGiniCoeff
  | "reward.deferredtxfee" => some .deferredTxFee
  | "reward.minimumstake" => some .minimumStake
  | "reward.stakingupdateinterval" => some .stakeUpdateInterval
  | "reward.proposerupdateinterval" => some .proposerRefreshInterval
  | "governance.addvalidator" => some .addValidator
  | "governance.removevalidator" => some .removeValidator
  | "param.txgashumanreadable" => some .constTxGasHumanReadable
  | "istanbul.timeout" => some .timeout
  | _ => none

/-- `GovernanceForbiddenKeyMap`. -/
def GovKey.forbidden : GovKey → Bool
  | .policy | .stakeUpdateInterval | .proposerRefreshInterval => true
  | _ => false

inductive ValueType
  | string | uint64 | address | bool
  deriving DecidableEq

/-- The type column of `GovernanceItems`. -/
def GovKey.type : GovKey → ValueType
  | .governanceMode | .mintingAmount | .ratio | .kip82Ratio | .minimumStake => .string
  | .governingNode | .govParamContract | .addValidator | .removeValidator => .address
  | .useGiniCoeff | .deferredTxFee => .bool
  | _ => .uint64

/-- A value as the RLP decoder leaves it in an empty interface. -/
inductive RlpItem
  | bytes (b : Bytes)
  | list (items : List RlpItem)

/-- A vote as it is decoded from a header. -/
structure RawVote where
  validator : Address
  key : String
  value : RlpItem

/-- The dynamic values of a vote. The last two are what the JSON decoder makes of
numbers and of lists. -/
inductive VoteValue
  | text (t : Bytes)
  | address (a : Address)
  | addresses (as : List Address)
  | uint64 (n : ℕ)
  | bool (b : Bool)
  | float64 (x : ℕ)
  | texts (ts : List Bytes)
  deriving DecidableEq

structure GovernanceVote where
  validator : Address
  key : GovKey
  value : VoteValue
  deriving DecidableEq

structure GovernanceTallyItem where
  key : GovKey
  value : VoteValue
  votes : ℕ
  deriving DecidableEq

inductive GovernanceMode
  | none | single | ballot
  deriving DecidableEq

/-- What blocks read of the governance parameters in effect. -/
structure GovParams where
  epoch : ℕ
  policy : ProposerPolicy
  committeeSize : ℕ
  governanceMode : GovernanceMode
  governingNode : Address
  minimumStake : ℕ

/-- A run of Go code that does not return a value. -/
inductive Fault
  | panic (p : GoPanic)
  | diverges
  deriving DecidableEq

inductive VoteErr
  | unknownKey | valueTypeMismatch
  deriving DecidableEq

def bytesToAddress (b : Bytes) : Address := .ofNat 160 (bigEndian b)

/-- Left-pad to eight bytes and read. The padding has a negative length for a longer value. -/
def paddedUint64 (b : Bytes) : Except GoPanic ℕ :=
  if 8 < b.length then .error .makeSlice else .ok (bigEndian b)

def RlpItem.toAddress : RlpItem → Option Address
  | .bytes b => if b.length ≠ 20 then none else some (bytesToAddress b)
  | .list _ => none

/-- The value of a vote for its key; a panic is outside of the error of the function. -/
def parseVoteValue (vote : RawVote) : Except GoPanic (Except VoteErr GovernanceVote) :=
  match governanceKeyMap vote.key with
  | none => .ok (.error .unknownKey)
  | some k =>
    let parsed (val : VoteValue) : Except VoteErr GovernanceVote := .ok ⟨vote.validator, k, val⟩
    match k.type, vote.value with
    | .string, .bytes v => .ok (parsed (.text v))
    | .address, .bytes v => .ok (parsed (.address (bytesToAddress v)))
    | .address, .list items =>
      if k = .addValidator ∨ k = .removeValidator then
        if items = [] then .ok (.error .valueTypeMismatch)
        else
          match items.mapM RlpItem.toAddress with
          | some nodeAddresses => .ok (parsed (.addresses nodeAddresses))
          | none => .ok (.error .valueTypeMismatch)
      else .ok (.error .valueTypeMismatch)
    | .uint64, .bytes v => do .ok (parsed (.uint64 (← paddedUint64 v)))
    | .bool, .bytes v => do .ok (parsed (.bool ((← paddedUint64 v) ≠ 0)))
    | _, .list _ => .ok (.error .valueTypeMismatch)

def governanceModeMap : List Bytes :=
  [[110, 111, 110, 101], [115, 105, 110, 103, 108, 101], [98, 97, 108, 108, 111, 116]]

def isDigit (c : UInt8) : Bool := 48 ≤ c ∧ c ≤ 57

variable (t : Bytes)

def decimal : ℕ := t.foldl (fun n c => n * 10 + (c.toNat - 48)) 0

def parseUint : Option ℕ :=
  if t ≠ [] ∧ t.all isDigit ∧ decimal t < 2 ^ 64 then some (decimal t) else none

def checkBigInt : Bool :=
  match t with
  | 43 :: digits => digits ≠ [] ∧ digits.all isDigit
  | 45 :: digits => digits ≠ [] ∧ digits.all isDigit ∧ decimal digits = 0
  | digits => digits ≠ [] ∧ digits.all isDigit

def checkShares (count : ℕ) (t : Bytes) : Bool :=
  match (t.splitOn 47).mapM parseUint with
  | some shares => (t.splitOn 47).length = count ∧ uint64 shares.sum = 100
  | none => false

def checkRatio : Bool := checkShares 3 t

def checkKip82Ratio : Bool := checkShares 2 t

def checkGovernanceMode : Bool := t ∈ governanceModeMap

/-- `checkValueType` and the validator column of `GovernanceItems`. -/
def checkValue : GovKey → VoteValue → Bool
  | .governanceMode, .text t => checkGovernanceMode t
  | .mintingAmount, .text t | .minimumStake, .text t => checkBigInt t
  | .ratio, .text t => checkRatio t
  | .kip82Ratio, .text t => checkKip82Ratio t
  | .governingNode, .address _ | .govParamContract, .address _ => true
  | .addValidator, .address _ | .removeValidator, .address _ => true
  | .addValidator, .addresses as | .removeValidator, .addresses as => as.Nodup
  | .committeeSize, .uint64 n => n ≠ 0
  | k, .uint64 _ => k.type = .uint64
  | k, .bool _ => k.type = .bool
  | _, _ => false

/-- `ValidateVote` on a parsed vote with a known key; texts are put into lower case. -/
def validateVote (toLower : Bytes → Bytes) (vote : GovernanceVote) : Option GovernanceVote :=
  let value :=
    match vote.value with
    | .text t => .text (toLower t)
    | v => v
  if checkValue vote.key value then some { vote with value } else none

/-- Under the key of an address only addresses and lists of them are equal. Lists under other keys
do not compare, and no check lets them through. -/
def isEqualValue (k : GovKey) : VoteValue → VoteValue → Bool
  | .address a, .address b => a = b
  | .addresses as, .addresses bs => k.type = .address ∧ as = bs
  | .texts _, _ => false
  | v1, v2 => k.type ≠ .address ∧ v1 = v2

/-- Add to or take from the votes of a value; a value without votes leaves the tally. -/
def changeGovernanceTally (key : GovKey) (value : VoteValue) (vp : ℕ) (isAdd : Bool) :
    List GovernanceTallyItem → ℕ × List GovernanceTallyItem
  | [] => if isAdd then (vp, [⟨key, value, vp⟩]) else (0, [])
  | item :: tally =>
    if item.key = key ∧ isEqualValue key item.value value then
      let currentVote := if isAdd then uint64 (item.votes + vp) else item.votes - vp
      (currentVote, if currentVote = 0 then tally else { item with votes := currentVote } :: tally)
    else
      let (currentVote, ret) := changeGovernanceTally key value vp isAdd tally
      (currentVote, item :: ret)

/-- Withdraw the first vote that a validator has cast for a key. -/
def removePreviousVote (valset : ValidatorSet) (votes : List GovernanceVote)
    (tally : List GovernanceTallyItem) (validator : Address) (key : GovKey) :
    Except GoPanic (List GovernanceVote × List GovernanceTallyItem) :=
  match votes.find? fun vote => vote.validator = validator ∧ vote.key = key with
  | none => .ok (votes, tally)
  | some vote =>
    match valset.getByAddress validator with
    | none => .error .nilPointer
    | some (_, v) =>
      .ok (votes.eraseP fun vote => vote.validator = validator ∧ vote.key = key,
        (changeGovernanceTally key vote.value v.votingPower false tally).2)

/-- The loop of `removeVotesFromRemovedNode`: removals shift in place and keep the length. -/
def removeVotesLoop (addr : Address) :
    ℕ → List GovernanceVote → ℕ → List GovernanceVote → Option (List GovernanceVote)
  | 0, _, _, _ => none
  | fuel + 1, votes, i, ret =>
    match votes[i]? with
    | none => some ret
    | some vote =>
      if vote.validator = addr then
        let ret := votes.eraseIdx i
        removeVotesLoop addr fuel (ret ++ votes.getLast?.toList) i ret
      else removeVotesLoop addr fuel votes (i + 1) ret

def removeVotesFromRemovedNode (votes : List GovernanceVote) (addr : Address) :
    Option (List GovernanceVote) :=
  removeVotesLoop addr (2 * votes.length + 1) votes 0 votes

def isGovernanceModeSingleOrNone (mode : GovernanceMode) (governingNode voter : Address) : Bool :=
  mode = .none ∨ (mode = .single ∧ voter = governingNode)

/-- Remove the targets of a list one by one, with the votes they have cast. -/
def removeTargets (valset : ValidatorSet) (votes : List GovernanceVote) :
    List Address → Option (ValidatorSet × List GovernanceVote)
  | [] => some (valset, votes)
  | target :: targets =>
    match removeVotesFromRemovedNode votes target with
    | none => none
    | some votes => removeTargets (valset.removeValidator target).1 votes targets

/-- The effect of a vote that passes. The other keys only change the node's change set. -/
def reflectVote (o : AddressOrder) (valset : ValidatorSet) (votes : List GovernanceVote)
    (vote : GovernanceVote) : Except Fault (ValidatorSet × List GovernanceVote) :=
  match vote.key, vote.value with
  | .addValidator, .address addr => .ok (valset.addValidator o addr, votes)
  | .addValidator, .addresses as => .ok (as.foldl (ValidatorSet.addValidator o) valset, votes)
  | .removeValidator, .address addr => .ok ((valset.removeValidator addr).1, votes)
  | .removeValidator, .addresses as =>
    match removeTargets valset votes as with
    | none => .error .diverges
    | some r => .ok r
  | _, _ => .ok (valset, votes)

/-- Count a new vote with the power of the validator it names, and act on it. -/
def addNewVote (o : AddressOrder) (valset : ValidatorSet) (votes : List GovernanceVote)
    (tally : List GovernanceTallyItem) (vote : GovernanceVote) (mode : GovernanceMode)
    (governingNode : Address) :
    Except Fault (ValidatorSet × List GovernanceVote × List GovernanceTallyItem) :=
  match valset.getByAddress vote.validator with
  | none => .ok (valset, votes, tally)
  | some (_, v) =>
    let (currentVotes, tally) :=
      changeGovernanceTally vote.key vote.value v.votingPower true tally
    if isGovernanceModeSingleOrNone mode governingNode vote.validator ∨
        (mode = .ballot ∧ valset.totalVotingPower / 2 < currentVotes) then do
      let (valset, votes) ← reflectVote o valset votes vote
      .ok (valset, votes, tally)
    else .ok (valset, votes, tally)

def checkVote (valset : ValidatorSet) (address : Address) (isKeyAddValidator : Bool) : Bool :=
  let found := (valset.getByAddress address).isSome || (valset.getDemotedByAddress address).isSome
  found != isKeyAddValidator

/-- The checks of a vote against the validator set before it is validated. -/
def voteApplies (valset : ValidatorSet) (vote : GovernanceVote) : Bool :=
  match vote.key, vote.value with
  | .governingNode, .address v => (valset.getByAddress v).isSome
  | .governingNode, _ => false
  | .addValidator, .address a => checkVote valset a true
  | .addValidator, .addresses as => as.all (checkVote valset · true)
  | .removeValidator, .address a => checkVote valset a false
  | .removeValidator, .addresses as => as.all (checkVote valset · false)
  | _, _ => true

/-- RLP decoding of a vote, the lower case of a text, and the parameters in effect. -/
structure GovEnv where
  decodeVote : Bytes → Option RawVote
  toLower : Bytes → Bytes
  effectiveParams : ℕ → Option GovParams

/-- The vote of a header as far as it is read before the validator set is consulted. -/
def headerVote (gov : GovEnv) (header : Header) : Except GoPanic (Option GovernanceVote) :=
  if header.vote = [] then .ok none
  else
    match gov.decodeVote header.vote with
    | none => .ok none
    | some raw => do
      match ← parseVoteValue raw with
      | .error _ => .ok none
      | .ok vote => .ok (if vote.key.forbidden then none else some vote)

def castVote (o : AddressOrder) (valset : ValidatorSet) (votes : List GovernanceVote)
    (tally : List GovernanceTallyItem) (pset : GovParams) (proposer : Address)
    (vote : GovernanceVote) :
    Except Fault (ValidatorSet × List GovernanceVote × List GovernanceTallyItem) := do
  let (votes, tally) ← (removePreviousVote valset votes tally proposer vote.key).mapError .panic
  addNewVote o valset (votes ++ [vote]) tally vote pset.governanceMode pset.governingNode

/-- `HandleGovernanceVote` without write access. -/
def handleGovernanceVote (o : AddressOrder) (gov : GovEnv) (valset : ValidatorSet)
    (votes : List GovernanceVote) (tally : List GovernanceTallyItem) (header : Header)
    (proposer : Address) :
    Except Fault (ValidatorSet × List GovernanceVote × List GovernanceTallyItem) := do
  match ← (headerVote gov header).mapError .panic with
  | none => .ok (valset, votes, tally)
  | some vote =>
    if voteApplies valset vote then
      match validateVote gov.toLower vote, gov.effectiveParams (uint64 header.number) with
      | some vote, some pset => castVote o valset votes tally pset proposer vote
      | _, _ => .ok (valset, votes, tally)
    else .ok (valset, votes, tally)

variable {addr : Address} {votes : List GovernanceVote} {last : GovernanceVote} {i : ℕ}

theorem getLast?_shift (hlast : votes.getLast? = some last) (i : ℕ) :
    (votes.eraseIdx i ++ votes.getLast?.toList).getLast? = some last := by
  simp [hlast]

theorem length_shift (hlast : votes.getLast? = some last) (hi : i < votes.length) :
    (votes.eraseIdx i ++ votes.getLast?.toList).length = votes.length := by
  rw [hlast, length_append, length_eraseIdx_of_lt hi]
  simp only [Option.toList_some, length_singleton]
  omega

theorem drop_shift (hlast : votes.getLast? = some last) (hi : i < votes.length) :
    (votes.eraseIdx i ++ votes.getLast?.toList).drop i = votes.drop (i + 1) ++ [last] := by
  have hlen : (votes.take i).length = i := length_take_of_le hi.le
  rw [hlast, eraseIdx_eq_take_drop_succ, append_assoc]
  exact drop_left' hlen

theorem take_shift (hi : i < votes.length) (rest : List GovernanceVote) :
    (votes.eraseIdx i ++ rest).take i = votes.take i := by
  have hlen : (votes.take i).length = i := length_take_of_le hi.le
  rw [eraseIdx_eq_take_drop_succ, append_assoc]
  exact take_left' hlen

theorem removeVotesLoop_diverges (hlast : votes.getLast? = some last)
    (hmatch : last.validator = addr) (hi : i < votes.length) (fuel : ℕ)
    (ret : List GovernanceVote) : removeVotesLoop addr fuel votes i ret = none := by
  induction fuel generalizing votes i ret with
  | zero => rfl
  | succ fuel ih =>
    rw [removeVotesLoop, getElem?_eq_getElem hi]
    dsimp only
    split
    · exact ih (getLast?_shift hlast i) (by rw [length_shift hlast hi]; exact hi) _
    · rename_i hne
      have hnext : i + 1 ≠ votes.length := by
        intro hend
        have : votes[i] = last := by
          rw [getLast?_eq_getElem?] at hlast
          have hidx : votes.length - 1 = i := by omega
          rw [hidx, getElem?_eq_getElem hi] at hlast
          exact Option.some.inj hlast
        exact hne (this ▸ hmatch)
      exact ih hlast (by omega) _

variable {fuel : ℕ} {U : ValidatorSet}

theorem filter_of_countP_eq_zero (h : votes.countP (fun v => v.validator = addr) = 0) :
    votes.filter (fun v => v.validator ≠ addr) = votes := by
  rw [filter_eq_self]
  intro v hv
  simpa using countP_eq_zero.mp h v hv

/-- Otherwise each turn moves on or takes out one more of the votes that are left. Later removals
find a copy of the last vote at the end and keep it. -/
theorem removeVotesLoop_eq (hlast : votes.getLast? = some last) (hne : last.validator ≠ addr)
    (hfuel : votes.length - i + (votes.drop i).countP (fun v => v.validator = addr) < fuel)
    (ret : List GovernanceVote) :
    removeVotesLoop addr fuel votes i ret =
      some (if (votes.drop i).countP (fun v => v.validator = addr) = 0 then ret
        else votes.take i ++ (votes.drop i).filter (fun v => v.validator ≠ addr) ++
          replicate ((votes.drop i).countP (fun v => v.validator = addr) - 1) last) := by
  induction fuel generalizing votes i ret with
  | zero => omega
  | succ fuel ih =>
    rw [removeVotesLoop]
    by_cases hi : i < votes.length
    · rw [getElem?_eq_getElem hi]
      rw [drop_eq_getElem_cons hi, countP_cons] at hfuel
      rw [drop_eq_getElem_cons hi, countP_cons, filter_cons]
      dsimp only
      split
      · next hmatch =>
        have htail := ih (i := i) (getLast?_shift hlast i) (by
          rw [drop_shift hlast hi, length_shift hlast hi, countP_append]
          simp only [hmatch, hne, decide_true, decide_false, if_true, countP_cons, countP_nil,
            Bool.false_eq_true, if_false] at hfuel ⊢
          omega) (votes.eraseIdx i)
        rw [htail, drop_shift hlast hi, take_shift hi, countP_append, filter_append,
          eraseIdx_eq_take_drop_succ]
        cases hcount : (votes.drop (i + 1)).countP (fun v => v.validator = addr) with
        | zero =>
          rw [filter_of_countP_eq_zero hcount]
          simp [hne, hmatch]
        | succ n => simp [hne, hmatch, replicate_succ]
      · next hother =>
        rw [ih hlast (by omega), take_succ_eq_append_getElem hi]
        simp only [hother, decide_false, Bool.false_eq_true, if_false, Nat.add_zero, ne_eq,
          not_false_eq_true, decide_true, if_true, append_assoc, cons_append,
          nil_append]
    · rw [getElem?_eq_none (Nat.le_of_not_lt hi), drop_eq_nil_of_le (Nat.le_of_not_lt hi)]
      rfl

theorem removeVotesFromRemovedNode_eq (hlast : votes.getLast? = some last)
    (hne : last.validator ≠ addr) :
    removeVotesFromRemovedNode votes addr =
      some (votes.filter (fun v => v.validator ≠ addr) ++
        replicate (votes.countP (fun v => v.validator = addr) - 1) last) := by
  have hcount := votes.countP_le_length (p := fun v => v.validator = addr)
  rw [removeVotesFromRemovedNode, removeVotesLoop_eq hlast hne (by rw [drop_zero]; omega),
    drop_zero, take_zero, nil_append]
  split
  · next hcount =>
    simp only [hcount, filter_of_countP_eq_zero hcount, Nat.zero_sub, replicate_zero, append_nil]
  · rfl

theorem removeVotesFromRemovedNode_eq_none_iff :
    removeVotesFromRemovedNode votes addr = none ↔
      ∃ last, votes.getLast? = some last ∧ last.validator = addr := by
  constructor
  · intro hnone
    cases hlast : votes.getLast? with
    | none =>
      obtain rfl := getLast?_eq_none_iff.mp hlast
      cases hnone
    | some last =>
      refine ⟨last, rfl, by_contra fun hne => ?_⟩
      rw [removeVotesFromRemovedNode_eq hlast hne] at hnone
      cases hnone
  · rintro ⟨last, hlast, hmatch⟩
    exact removeVotesLoop_diverges hlast hmatch
      (length_pos_iff.mpr (ne_nil_of_mem (mem_of_getLast? hlast))) _ _

/-- The votes of the others are returned just when at most one goes and it is not the last. -/
theorem removeVotesFromRemovedNode_filter_iff (votes : List GovernanceVote) (addr : Address) :
    removeVotesFromRemovedNode votes addr =
        some (votes.filter (fun v => v.validator ≠ addr)) ↔
      votes.countP (fun v => v.validator = addr) ≤ 1 ∧
        ∀ last, votes.getLast? = some last → last.validator ≠ addr := by
  constructor
  · intro h
    have hlast : ∀ last, votes.getLast? = some last → last.validator ≠ addr := by
      rintro last hlast heq
      rw [removeVotesFromRemovedNode_eq_none_iff.mpr ⟨last, hlast, heq⟩] at h
      cases h
    constructor
    · cases hl : votes.getLast? with
      | none =>
        obtain rfl := getLast?_eq_none_iff.mp hl
        exact Nat.zero_le 1
      | some last =>
        rw [removeVotesFromRemovedNode_eq hl (hlast last hl), Option.some.injEq,
          append_right_eq_self, replicate_eq_nil_iff] at h
        omega
    · exact hlast
  · rintro ⟨hcount, hlast⟩
    cases hl : votes.getLast? with
    | none =>
      obtain rfl := getLast?_eq_none_iff.mp hl
      rfl
    | some last =>
      rw [removeVotesFromRemovedNode_eq hl (hlast last hl), Nat.sub_eq_zero_of_le hcount,
        replicate_zero, append_nil]

/-- Removing the only vote never ends, and of two before another one a copy of that stays. -/
theorem removed_votes_escape :
    (∀ fuel, removeVotesLoop 1 fuel [⟨1, .epoch, .uint64 7⟩] 0 [⟨1, .epoch, .uint64 7⟩] = none) ∧
      removeVotesFromRemovedNode
          [⟨1, .epoch, .uint64 7⟩, ⟨1, .timeout, .uint64 7⟩, ⟨2, .epoch, .uint64 7⟩] 1 =
        some [⟨2, .epoch, .uint64 7⟩, ⟨2, .epoch, .uint64 7⟩] := by
  constructor
  · intro fuel
    have hlast : [(⟨1, .epoch, .uint64 7⟩ : GovernanceVote)].getLast? =
        some ⟨1, .epoch, .uint64 7⟩ := rfl
    exact removeVotesLoop_diverges hlast rfl Nat.zero_lt_one fuel _
  · decide

variable (φ : SetFrame) (o : AddressOrder) (valset : ValidatorSet) (votes : List GovernanceVote)
  (tally : List GovernanceTallyItem) (vote : GovernanceVote)

open ValidatorSet (reframe)

theorem addValidators_reframe (as : List Address) :
    as.foldl (addValidator o) (valset.reframe φ) =
      (as.foldl (addValidator o) valset).reframe φ := by
  induction as generalizing valset with
  | nil => rfl
  | cons a as ih => simp only [foldl_cons, addValidator_reframe, ih]

theorem removeTargets_reframe (targets : List Address) :
    removeTargets (valset.reframe φ) votes targets =
      (removeTargets valset votes targets).map (Prod.map (reframe φ) id) := by
  induction targets generalizing valset votes with
  | nil => rfl
  | cons target targets ih =>
    simp only [removeTargets, removeValidator_reframe, Prod.map_fst]
    cases removeVotesFromRemovedNode votes target with
    | none => rfl
    | some votes => exact ih _ votes

theorem reflectVote_reframe :
    reflectVote o (valset.reframe φ) votes vote =
      (reflectVote o valset votes vote).map (Prod.map (reframe φ) id) := by
  simp only [reflectVote, addValidator_reframe, addValidators_reframe,
    removeValidator_reframe, removeTargets_reframe]
  split
  · rfl
  · rfl
  · rfl
  · cases removeTargets valset votes _ <;> rfl
  · rfl

theorem addNewVote_reframe (mode : GovernanceMode) (governingNode : Address) :
    addNewVote o (valset.reframe φ) votes tally vote mode governingNode =
      (addNewVote o valset votes tally vote mode governingNode).map (Prod.map (reframe φ) id) := by
  simp only [addNewVote, getByAddress_reframe,
    totalVotingPower_reframe, reflectVote_reframe, except_map_bind]
  cases valset.getByAddress vote.validator with
  | none => rfl
  | some p =>
    dsimp only
    split
    · rw [except_bind_map]
      rfl
    · rfl

theorem voteApplies_reframe : voteApplies (valset.reframe φ) vote = voteApplies valset vote := by
  simp only [voteApplies, checkVote, getByAddress_reframe,
    getDemotedByAddress_reframe]

theorem handleGovernanceVote_reframe (gov : GovEnv) (header : Header) (proposer : Address) :
    handleGovernanceVote o gov (valset.reframe φ) votes tally header proposer =
      (handleGovernanceVote o gov valset votes tally header proposer).map
        (Prod.map (reframe φ) id) := by
  simp only [handleGovernanceVote, castVote, voteApplies_reframe, removePreviousVote,
    getByAddress_reframe, addNewVote_reframe]
  rw [except_bind_map]
  congr 1
  funext x
  cases x with
  | none => rfl
  | some vote =>
    dsimp only
    split
    · split
      · rw [except_bind_map]
      · rfl
    · rfl

variable {o : AddressOrder} {valset valset' : ValidatorSet} {votes votes' : List GovernanceVote}
  {tally tally' : List GovernanceTallyItem} {vote : GovernanceVote}

/-- What votes can do to a validator set: add and remove validators. -/
inductive Edits (o : AddressOrder) : ValidatorSet → ValidatorSet → Prop
  | refl (V : ValidatorSet) : Edits o V V
  | add {V W : ValidatorSet} (a : Address) : Edits o V W → Edits o V (W.addValidator o a)
  | remove {V W : ValidatorSet} (a : Address) : Edits o V W → Edits o V (W.removeValidator a).1

theorem Edits.policy_eq (h : Edits o valset valset') : valset'.policy = valset.policy := by
  induction h with
  | refl => rfl
  | add a _ ih => rw [addValidator_policy, ih]
  | remove a _ ih => rw [removeValidator_policy, ih]

theorem Edits.settled (h : Edits o valset valset') (hs : valset.Settled o) : valset'.Settled o := by
  induction h with
  | refl => exact hs
  | add a _ ih => exact ih.addValidator a
  | remove a _ ih => exact ih.removeValidator a

theorem Edits.addValidators (h : Edits o U valset) (as : List Address) :
    Edits o U (as.foldl (addValidator o) valset) := by
  induction as generalizing valset with
  | nil => exact h
  | cons a as ih => exact ih (h.add a)

theorem Edits.removeTargets (h : Edits o U valset) {targets : List Address}
    (ht : removeTargets valset votes targets = some (valset', votes')) : Edits o U valset' := by
  induction targets generalizing valset votes with
  | nil =>
    obtain ⟨rfl, -⟩ : valset = valset' ∧ votes = votes' := by simpa [Kaia.removeTargets] using ht
    exact h
  | cons target targets ih =>
    rw [Kaia.removeTargets] at ht
    cases hv : removeVotesFromRemovedNode votes target with
    | none => simp [hv] at ht
    | some votes =>
      rw [hv] at ht
      exact ih (h.remove target) ht

theorem edits_of_reflectVote (h : reflectVote o valset votes vote = .ok (valset', votes')) :
    Edits o valset valset' := by
  unfold reflectVote at h
  split at h
  · cases h
    exact (Edits.refl _).add _
  · cases h
    exact (Edits.refl _).addValidators _
  · cases h
    exact (Edits.refl _).remove _
  · split at h
    · cases h
    · cases h
      exact (Edits.refl _).removeTargets ‹_›
  · cases h
    exact .refl _

theorem edits_of_addNewVote {mode : GovernanceMode} {governingNode : Address}
    (h : addNewVote o valset votes tally vote mode governingNode = .ok (valset', votes', tally')) :
    Edits o valset valset' := by
  unfold addNewVote at h
  split at h
  · cases h
    exact .refl _
  · dsimp only at h
    split at h
    · obtain ⟨⟨V, vs⟩, hr, hok⟩ := bind_eq_ok.mp h
      cases hok
      exact edits_of_reflectVote hr
    · cases h
      exact .refl _

theorem edits_of_handleGovernanceVote {gov : GovEnv} {header : Header} {proposer : Address}
    (h : handleGovernanceVote o gov valset votes tally header proposer =
      .ok (valset', votes', tally')) : Edits o valset valset' := by
  obtain ⟨parsed, -, hcast⟩ := bind_eq_ok.mp h
  cases parsed with
  | none =>
    cases hcast
    exact .refl _
  | some vote =>
    dsimp only at hcast
    split at hcast
    · split at hcast
      · obtain ⟨⟨vs, ts⟩, -, hnew⟩ := bind_eq_ok.mp hcast
        exact edits_of_addNewVote hnew
      · cases hcast
        exact .refl _
    · cases hcast
      exact .refl _

end Kaia
