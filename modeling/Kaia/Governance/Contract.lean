import Kaia.Consensus.BaseFee
import Kaia.Governance.Json
import Kaia.Reward.Ratio

/-! # Parameters from the contract

The governance contract returns names and byte strings. What can be parsed is kept and takes
precedence over the parameters of the headers; the rest is dropped. The parsers are not those of
header votes.
-/

namespace Kaia

open Foundation Option

/-- The parser column of `govParamTypes`. -/
inductive ParamType
  | govMode | address | uint64 | bigInt | ratio | kip82Ratio | bool
  deriving DecidableEq

/-- `govParamTypes`. The other keys are votes only. -/
def GovKey.paramType : GovKey → Option ParamType
  | .governanceMode => some .govMode
  | .governingNode | .govParamContract => some .address
  | .mintingAmount | .minimumStake => some .bigInt
  | .ratio => some .ratio
  | .kip82Ratio => some .kip82Ratio
  | .useGiniCoeff | .deferredTxFee => some .bool
  | .addValidator | .removeValidator | .timeout | .constTxGasHumanReadable => none
  | .epoch | .policy | .committeeSize | .unitPrice | .deriveShaImpl | .lowerBoundBaseFee
  | .gasTarget | .maxBlockGasUsedForBaseFee | .baseFeeDenominator | .upperBoundBaseFee
  | .stakeUpdateInterval | .proposerRefreshInterval => some .uint64

def parseShare (s : Bytes) : Option ℤ := (parseInt s).filter (0 ≤ ·)

def validateShares (count : ℕ) (t : Bytes) : Bool :=
  match (t.splitOn 47).mapM parseShare with
  | some shares => (t.splitOn 47).length = count ∧ int64 shares.sum = 100
  | none => false

/-- `ParseBytes`: parse and validate. -/
def ParamType.parseBytes : ParamType → Bytes → Option VoteValue
  | .govMode, b => if checkGovernanceMode b then some (.text b) else none
  | .address, b => if b.length = 20 then some (.address (bytesToAddress b)) else none
  | .uint64, b => if b.length ≤ 8 then some (.uint64 (bigEndian b)) else none
  | .bigInt, b => if checkBigInt b then some (.text b) else none
  | .ratio, b => if validateShares 3 b then some (.text b) else none
  | .kip82Ratio, b => if validateShares 2 b then some (.text b) else none
  | .bool, b => if b = [1] then some (.bool true) else if b = [0] then some (.bool false) else none

abbrev GovParamSet := GovKey → Option VoteValue

namespace GovParamSet

def merged (base update : GovParamSet) : GovParamSet := fun k => (update k).or (base k)

/-- `NewGovParamSetBytesMapTolerant`; names are unique, so the order of items does not matter. -/
def ofBytesMapTolerant (items : String → Option Bytes) : GovParamSet := fun k =>
  k.paramType.bind fun ty => (items k.name).bind ty.parseBytes

end GovParamSet

/-- What the contract call returned, if enabled; the last value of a name counts. -/
def contractItems (kore : Bool) (addr : Address) (call : Option (List String × List Bytes)) :
    String → Option Bytes :=
  match call with
  | some (names, values) =>
    if kore ∧ addr ≠ 0 ∧ names.length = values.length then
      fun name => (names.zip values).reverse.lookup name
    else fun _ => none
  | none => fun _ => none

def contractGetAllParamsAt (kore : Bool) (addr : Address)
    (call : Option (List String × List Bytes)) : GovParamSet :=
  .ofBytesMapTolerant (contractItems kore addr call)

def assembleParams (defaultParams initialParams headerParams contractParams : GovParamSet) :
    GovParamSet :=
  (((GovParamSet.merged (fun _ => none) defaultParams).merged initialParams).merged
    headerParams).merged contractParams

def modUint64 (x y : ℕ) : Except GoPanic ℕ := if y = 0 then .error .divideByZero else .ok (x % y)

variable (interval blockNum : ℕ)

def isStakingUpdateInterval : Except GoPanic Bool := do
  .ok ((← modUint64 blockNum interval) = 0)

def calcStakingBlockNumber : Except GoPanic ℕ :=
  if blockNum ≤ uint64 (2 * interval) then .ok 0
  else do
    let r ← modUint64 blockNum interval
    .ok (if r = 0 then sub64 blockNum (uint64 (2 * interval))
      else sub64 (sub64 blockNum interval) r)

def isProposerUpdateInterval : Except GoPanic Bool := do
  .ok ((← modUint64 blockNum interval) = 0)

/-- `CalcProposerBlockNumber`, for intervals that may be zero. -/
def checkedProposerBlockNumber : Except GoPanic ℕ := do
  let isInterval ← isProposerUpdateInterval interval blockNum
  if isInterval then .ok (sub64 blockNum interval)
  else .ok (sub64 blockNum (← modUint64 blockNum interval))

theorem modUint64_of_ne_zero {x y : ℕ} (h : y ≠ 0) : modUint64 x y = .ok (x % y) := if_neg h

/-- Block processing is defined with a value in effect, whatever the other parameters are. -/
def KeptDefined : GovKey → VoteValue → Prop
  | .gasTarget, .uint64 n =>
    ∀ parent config lower upper, config.gasTarget = n →
      ∃ fee, nextBlockBaseFee parent config lower upper = .ok fee
  | .baseFeeDenominator, .uint64 n =>
    ∀ parent config lower upper, config.baseFeeDenominator = n → config.gasTarget ≠ 0 →
      ∃ fee, nextBlockBaseFee parent config lower upper = .ok fee
  | .stakeUpdateInterval, .uint64 n =>
    ∀ num, (∃ r, isStakingUpdateInterval n num = .ok r) ∧ ∃ r, calcStakingBlockNumber n num = .ok r
  | .proposerRefreshInterval, .uint64 n =>
    ∀ num, (∃ r, isProposerUpdateInterval n num = .ok r) ∧
      ∃ r, checkedProposerBlockNumber n num = .ok r
  | .ratio, .text t =>
    ∃ cn kif kef, parseRewardRatio t = .ok (cn, kif, kef, 100) ∧ cn + kif + kef = 100 ∧
      (0 ≤ cn ∧ cn ≤ 100) ∧ (0 ≤ kif ∧ kif ≤ 100) ∧ 0 ≤ kef ∧ kef ≤ 100
  | .kip82Ratio, .text t =>
    ∃ proposer stakers, parseRewardKip82Ratio t = .ok (proposer, stakers, 100) ∧
      proposer + stakers = 100 ∧ (0 ≤ proposer ∧ proposer ≤ 100) ∧ 0 ≤ stakers ∧ stakers ≤ 100
  | _, _ => True

/-- At most eight zero bytes, which are read as the number zero. -/
def ZeroBytes (b : Bytes) : Prop := b.length ≤ 8 ∧ bigEndian b = 0

/-- Three shares that sum up to one hundred only because the sum overflows. -/
def Overflowing (b : Bytes) : Prop :=
  validateShares 3 b = true ∧ ∃ s ∈ b.splitOn 47, ∃ n, parseShare s = some n ∧ 100 < n

variable {n : ℕ} {t : Bytes} {count : ℕ} {s : Bytes} {z : ℤ} {items : String → Option Bytes}
  {k : GovKey} {v : VoteValue}

theorem parseShare_eq_some : parseShare s = some z ↔ parseInt s = some z ∧ 0 ≤ z := by
  simp [parseShare, filter_eq_some_iff]

theorem parseInt_lt (h : parseInt s = some z) : z < 2 ^ 63 := by
  unfold parseInt at h
  split at h
  · obtain ⟨⟨-, -, hlt⟩, hz⟩ := ite_none_right_eq_some.mp h
    obtain rfl := some.inj hz
    exact_mod_cast hlt
  · obtain ⟨-, hz⟩ := ite_none_right_eq_some.mp h
    obtain rfl := some.inj hz
    omega
  · obtain ⟨⟨-, -, hlt⟩, hz⟩ := ite_none_right_eq_some.mp h
    obtain rfl := some.inj hz
    exact_mod_cast hlt

theorem validateShares_eq_true_iff : validateShares count t = true ↔
    ∃ shares, (t.splitOn 47).mapM parseShare = some shares ∧ (t.splitOn 47).length = count ∧
      int64 shares.sum = 100 := by
  unfold validateShares
  cases (t.splitOn 47).mapM parseShare <;> simp

theorem exists_of_validateShares_three (h : validateShares 3 t = true) :
    ∃ s₀ s₁ s₂ z₀ z₁ z₂, t.splitOn 47 = [s₀, s₁, s₂] ∧ parseShare s₀ = some z₀ ∧
      parseShare s₁ = some z₁ ∧ parseShare s₂ = some z₂ ∧ int64 (z₀ + z₁ + z₂) = 100 := by
  obtain ⟨shares, hm, hlen, hsum⟩ := validateShares_eq_true_iff.mp h
  obtain ⟨s₀, s₁, s₂, hparts⟩ := List.length_eq_three.mp hlen
  rw [hparts, mapM_eq_some] at hm
  obtain _ | ⟨h₀, _ | ⟨h₁, _ | ⟨h₂, ⟨⟩⟩⟩⟩ := hm
  refine ⟨s₀, s₁, s₂, _, _, _, hparts, h₀, h₁, h₂, ?_⟩
  simpa [add_assoc] using hsum

theorem exists_of_validateShares_two (h : validateShares 2 t = true) :
    ∃ s₀ s₁ z₀ z₁, t.splitOn 47 = [s₀, s₁] ∧ parseShare s₀ = some z₀ ∧
      parseShare s₁ = some z₁ ∧ int64 (z₀ + z₁) = 100 := by
  obtain ⟨shares, hm, hlen, hsum⟩ := validateShares_eq_true_iff.mp h
  obtain ⟨s₀, s₁, hparts⟩ := List.length_eq_two.mp hlen
  rw [hparts, mapM_eq_some] at hm
  obtain _ | ⟨h₀, _ | ⟨h₁, ⟨⟩⟩⟩ := hm
  refine ⟨s₀, s₁, _, _, hparts, h₀, h₁, ?_⟩
  simpa using hsum

theorem keptDefined_gasTarget : KeptDefined .gasTarget (.uint64 n) ↔ n ≠ 0 :=
  nextBlockBaseFee_defined_iff

theorem keptDefined_stakeUpdateInterval :
    KeptDefined .stakeUpdateInterval (.uint64 n) ↔ n ≠ 0 := by
  constructor
  · rintro h rfl
    obtain ⟨⟨r, hr⟩, -⟩ := h 0
    cases hr
  · intro hn num
    constructor
    · simp only [isStakingUpdateInterval, modUint64_of_ne_zero hn]
      exact ⟨_, rfl⟩
    · unfold calcStakingBlockNumber
      split
      · exact ⟨_, rfl⟩
      · rw [modUint64_of_ne_zero hn]
        exact ⟨_, rfl⟩

theorem keptDefined_proposerRefreshInterval :
    KeptDefined .proposerRefreshInterval (.uint64 n) ↔ n ≠ 0 := by
  constructor
  · rintro h rfl
    obtain ⟨⟨r, hr⟩, -⟩ := h 0
    cases hr
  · intro hn num
    simp only [isProposerUpdateInterval, checkedProposerBlockNumber, modUint64_of_ne_zero hn, bind,
      Except.bind]
    constructor
    · exact ⟨_, rfl⟩
    · split <;> exact ⟨_, rfl⟩

theorem keptDefined_ratio (h : validateShares 3 t = true) :
    KeptDefined .ratio (.text t) ↔ ¬ Overflowing t := by
  obtain ⟨s₀, s₁, s₂, z₀, z₁, z₂, hparts, h₀, h₁, h₂, hsum⟩ := exists_of_validateShares_three h
  obtain ⟨hp₀, hpos₀⟩ := parseShare_eq_some.mp h₀
  obtain ⟨hp₁, hpos₁⟩ := parseShare_eq_some.mp h₁
  obtain ⟨hp₂, hpos₂⟩ := parseShare_eq_some.mp h₂
  have hparse : parseRewardRatio t = .ok (z₀, z₁, z₂, 100) := by
    unfold parseRewardRatio
    rw [hparts]
    dsimp only
    rw [hp₀, hp₁, hp₂, ← hsum]
  have hover : Overflowing t ↔ 100 < z₀ ∨ 100 < z₁ ∨ 100 < z₂ := by
    simp [Overflowing, h, hparts, h₀, h₁, h₂]
  rw [hover]
  constructor
  · rintro ⟨cn, kif, kef, hparse', -, hcn, hkif, hkef⟩
    cases hparse.symm.trans hparse'
    omega
  · intro hle
    refine ⟨z₀, z₁, z₂, hparse, ?_, ?_⟩
    · unfold int64 at hsum
      rw [Int.bmod_def] at hsum
      omega
    · omega

theorem keptDefined_kip82Ratio (h : validateShares 2 t = true) :
    KeptDefined .kip82Ratio (.text t) := by
  obtain ⟨s₀, s₁, z₀, z₁, hparts, h₀, h₁, hsum⟩ := exists_of_validateShares_two h
  obtain ⟨hp₀, hpos₀⟩ := parseShare_eq_some.mp h₀
  obtain ⟨hp₁, hpos₁⟩ := parseShare_eq_some.mp h₁
  -- two signed words that are not negative do not overflow an unsigned one
  have hexact : z₀ + z₁ = 100 := by
    have hlt₀ := parseInt_lt hp₀
    have hlt₁ := parseInt_lt hp₁
    unfold int64 at hsum
    rw [Int.bmod_def] at hsum
    omega
  refine ⟨z₀, z₁, ?_, hexact, by omega⟩
  unfold parseRewardKip82Ratio
  rw [hparts]
  dsimp only
  rw [hp₀, hp₁, ← hsum]

theorem ofBytesMapTolerant_eq_some {ty : ParamType} (hk : k.paramType = some ty) :
    GovParamSet.ofBytesMapTolerant items k = some v ↔
      ∃ b, items k.name = some b ∧ ty.parseBytes b = some v := by
  rw [GovParamSet.ofBytesMapTolerant, hk, bind_some, bind_eq_some_iff]

theorem ofBytesMapTolerant_uint64 (hk : k.paramType = some .uint64) :
    GovParamSet.ofBytesMapTolerant items k = some v ↔
      ∃ b, items k.name = some b ∧ b.length ≤ 8 ∧ v = .uint64 (bigEndian b) := by
  simp only [ofBytesMapTolerant_eq_some hk, ParamType.parseBytes, ite_none_right_eq_some,
    some.injEq, @eq_comm _ v]

theorem forall_kept_iff (items : String → Option Bytes) (k : GovKey)
    (hk : k.paramType = some .uint64) (hdef : ∀ n, KeptDefined k (.uint64 n) ↔ n ≠ 0) :
    (∀ v, GovParamSet.ofBytesMapTolerant items k = some v → KeptDefined k v) ↔
      ∀ b, items k.name = some b → ¬ ZeroBytes b := by
  constructor
  · rintro h b hb ⟨hlen, hzero⟩
    have hkept := h _ ((ofBytesMapTolerant_uint64 hk).mpr ⟨b, hb, hlen, rfl⟩)
    exact (hdef _).mp hkept hzero
  · intro h v hv
    obtain ⟨b, hb, hlen, rfl⟩ := (ofBytesMapTolerant_uint64 hk).mp hv
    exact (hdef _).mpr fun hzero => h b hb ⟨hlen, hzero⟩

theorem forall_kept_ratio_iff (items : String → Option Bytes) :
    (∀ v, GovParamSet.ofBytesMapTolerant items .ratio = some v → KeptDefined .ratio v) ↔
      ∀ b, items GovKey.ratio.name = some b → ¬ Overflowing b := by
  have hkept : ∀ v, GovParamSet.ofBytesMapTolerant items .ratio = some v ↔
      ∃ b, items GovKey.ratio.name = some b ∧ validateShares 3 b = true ∧ v = .text b := by
    intro v
    simp only [ofBytesMapTolerant_eq_some (k := .ratio) rfl, ParamType.parseBytes,
      ite_none_right_eq_some, some.injEq, @eq_comm _ v]
  constructor
  · intro h b hb hover
    exact (keptDefined_ratio hover.1).mp (h _ ((hkept _).mpr ⟨b, hb, hover.1, rfl⟩)) hover
  · intro h v hv
    obtain ⟨b, hb, hvalid, rfl⟩ := (hkept v).mp hv
    exact (keptDefined_ratio hvalid).mpr (h b hb)

/-- Contract parameters are in effect and defined unless the gas target or an interval is zero
bytes or the shares of the ratio overflow. -/
theorem contract_params_defined_iff (kore : Bool) (addr : Address)
    (call : Option (List String × List Bytes))
    (defaultParams initialParams headerParams : GovParamSet) :
    (∀ k v, contractGetAllParamsAt kore addr call k = some v →
      assembleParams defaultParams initialParams headerParams
        (contractGetAllParamsAt kore addr call) k = some v ∧ KeptDefined k v) ↔
    (∀ b, contractItems kore addr call "kip71.gastarget" = some b → ¬ ZeroBytes b) ∧
    (∀ b, contractItems kore addr call "reward.stakingupdateinterval" = some b → ¬ ZeroBytes b) ∧
    (∀ b, contractItems kore addr call "reward.proposerupdateinterval" = some b →
      ¬ ZeroBytes b) ∧
    ∀ b, contractItems kore addr call "reward.ratio" = some b → ¬ Overflowing b := by
  have hgas := forall_kept_iff (contractItems kore addr call) .gasTarget rfl
    fun _ => keptDefined_gasTarget
  have hstake := forall_kept_iff (contractItems kore addr call) .stakeUpdateInterval rfl
    fun _ => keptDefined_stakeUpdateInterval
  have hproposer := forall_kept_iff (contractItems kore addr call) .proposerRefreshInterval rfl
    fun _ => keptDefined_proposerRefreshInterval
  have hratio := forall_kept_ratio_iff (contractItems kore addr call)
  constructor
  · intro h
    exact ⟨hgas.mp fun v hv => (h _ v hv).2, hstake.mp fun v hv => (h _ v hv).2,
      hproposer.mp fun v hv => (h _ v hv).2, hratio.mp fun v hv => (h _ v hv).2⟩
  · rintro ⟨h₁, h₂, h₃, h₄⟩ k v hv
    refine ⟨?_, ?_⟩
    · simp [assembleParams, GovParamSet.merged, hv]
    · cases k with
      | gasTarget => exact hgas.mpr h₁ v hv
      | stakeUpdateInterval => exact hstake.mpr h₂ v hv
      | proposerRefreshInterval => exact hproposer.mpr h₃ v hv
      | ratio => exact hratio.mpr h₄ v hv
      | baseFeeDenominator =>
        obtain ⟨b, -, -, rfl⟩ := (ofBytesMapTolerant_uint64 rfl).mp hv
        exact fun _ _ _ _ _ htarget => nextBlockBaseFee_defined htarget
      | kip82Ratio =>
        obtain ⟨b, -, hb⟩ := (ofBytesMapTolerant_eq_some rfl).mp hv
        obtain ⟨hvalid, hv⟩ := ite_none_right_eq_some.mp hb
        obtain rfl := some.inj hv
        exact keptDefined_kip82Ratio hvalid
      | _ => trivial

/-- A gas target of one zero byte is kept, and a parent block that used gas has no next base
fee. -/
theorem zero_gas_target_kept :
    contractGetAllParamsAt true 1 (some (["kip71.gastarget"], [[0]])) .gasTarget =
      some (.uint64 0) ∧
    nextBlockBaseFee ⟨1, some 1, 1⟩ ⟨0, 2, 0, 1, 20⟩ 0 2 = .error .divideByZero := by
  exact ⟨rfl, rfl⟩

end Kaia
