import Kaia.Governance.Contract
import Kaia.Governance.History

/-! # The governance engines

Parameters come from the governance contract, from headers, from genesis and from defaults, in
this order. The mixed engine puts them together on demand, and after each block for the next one;
the two ask for the Kore fork at different block numbers, and an update may bring a new epoch.
-/

namespace Kaia

open Foundation

inductive EngineErr
  | panic (p : GoPanic)
  | read (e : GovReadErr)
  | badParams
  | paramsAtFail
  | invalidGovParam
  deriving DecidableEq

/-- `isForked` of a block number that may be negative. -/
def isForkedInt (fork : Option ℕ) (head : ℤ) : Bool :=
  match fork with
  | none => false
  | some b => (b : ℤ) ≤ head

def GovParamSet.new : GovParamSet := fun _ => none

/-- `Governance`, as far as its parameters go; `NewGovParamSetStrMap` parses records. -/
structure HeaderGov (lib : JsonLib) where
  koreCompatibleBlock : Option ℕ
  istanbulEpoch : ℕ
  db : GovernanceDB
  newGovParamSetStrMap : List (String × Decoded lib.Float) → Option GovParamSet
  initialParams : GovParamSet
  currentParams : GovParamSet

namespace HeaderGov

variable {lib : JsonLib} (gov : HeaderGov lib)

def epochOf (value : Option VoteValue) (fallback : Except EngineErr ℕ) : Except EngineErr ℕ :=
  match value with
  | none => fallback
  | some (.uint64 v) => .ok v
  | some _ => .error (.panic .typeAssertion)

def epochWithFallback : Except EngineErr ℕ :=
  epochOf (gov.currentParams .epoch) (epochOf (gov.initialParams .epoch) (.ok gov.istanbulEpoch))

/-- `ReadGovernanceAtNumber` and `NewGovParamSetStrMap`. -/
def readParamsAtNumber (num epoch : ℕ) : Except EngineErr GovParamSet :=
  match gov.db.readGovernanceAtNumber lib num epoch with
  | .error p => .error (.panic p)
  | .ok (_, .error e) => .error (.read e)
  | .ok (_, .ok strMap) =>
    match gov.newGovParamSetStrMap strMap with
    | none => .error .badParams
    | some pset => .ok pset

def effectiveParams (num : ℕ) : Except EngineErr GovParamSet := do
  let epoch ← gov.epochWithFallback
  -- before Kore, the items of the block before are used
  let num := if ¬ isForked gov.koreCompatibleBlock num ∧ num ≠ 0 then num - 1 else num
  gov.readParamsAtNumber num epoch

def updateParams (num : ℕ) : Except EngineErr (HeaderGov lib) := do
  let pset ← gov.effectiveParams (uint64 (num + 1))
  .ok { gov with currentParams := pset }

end HeaderGov

/-- `MixedEngine` with its engines; a contract call answers for a block number, or fails. -/
structure MixedEngine (lib : JsonLib) where
  initialParams : GovParamSet
  defaultParams : GovParamSet
  currentParams : GovParamSet
  headerGov : HeaderGov lib
  contractParams : GovParamSet
  getAllParamsAt : Address → ℕ → Option (List String × List Bytes)

namespace MixedEngine

variable {lib : JsonLib} (e : MixedEngine lib)

def koreCompatibleBlock : Option ℕ := e.headerGov.koreCompatibleBlock

variable (num : ℕ)

def contractAddrAt : Except EngineErr Address :=
  match e.headerGov.effectiveParams num with
  | .error (.panic p) => .error (.panic p)
  | .error _ => .error .paramsAtFail
  | .ok headerParams =>
    match headerParams .govParamContract with
    | none => .ok 0
    | some (.address addr) => .ok addr
    | some _ => .error .invalidGovParam

/-- `contractGetAllParamsAt` of the contract engine. -/
def contractEffectiveParams : Except EngineErr GovParamSet :=
  if isForked e.koreCompatibleBlock num then do
    let addr ← e.contractAddrAt num
    .ok (contractGetAllParamsAt true addr (e.getAllParamsAt addr num))
  else .ok .new

def assemble (headerParams contractParams : GovParamSet) : GovParamSet :=
  assembleParams e.defaultParams e.initialParams headerParams contractParams

def effectiveParams : Except EngineErr GovParamSet := do
  let contractParams ←
    (if isForked e.koreCompatibleBlock num then e.contractEffectiveParams num else .ok .new)
  let headerParams ← e.headerGov.effectiveParams num
  .ok (e.assemble headerParams contractParams)

def updateContractParams : Except EngineErr (MixedEngine lib × GovParamSet) :=
  if isForkedInt e.koreCompatibleBlock (int64 num) then do
    let pset ← e.contractEffectiveParams (uint64 (num + 1))
    .ok ({ e with contractParams := pset }, pset)
  else .ok (e, .new)

def updateParams : Except EngineErr (MixedEngine lib) := do
  let (e, contractParams) ← e.updateContractParams num
  let headerGov ← e.headerGov.updateParams num
  .ok { e with headerGov, currentParams := e.assemble headerGov.currentParams contractParams }

end MixedEngine

namespace MixedEngine

variable {lib : JsonLib} {e e' : MixedEngine lib} {num n : ℕ}

/-- Update and query agree on Kore; they differ before the fork and at negative words. -/
def KoreAlike (e : MixedEngine lib) (num : ℕ) : Prop :=
  isForkedInt e.koreCompatibleBlock (int64 num) = isForked e.koreCompatibleBlock (uint64 (num + 1))

/-- For a block the header items are the same with the epoch before and after an update. -/
def EpochAlike (e e' : MixedEngine lib) (n : ℕ) : Prop :=
  e'.headerGov.effectiveParams n = e.headerGov.effectiveParams n

/-- The contract can be asked for a block, and what it sets is set so without it. -/
def ContractAddsNothing (e : MixedEngine lib) (n : ℕ) : Prop :=
  ∃ contractParams, e.contractEffectiveParams n = .ok contractParams ∧
    ∀ headerParams, e.headerGov.effectiveParams n = .ok headerParams →
      ∀ k v, contractParams k = some v → e.assemble headerParams .new k = some v

theorem effectiveParams_eq_ok {pset : GovParamSet} : e.effectiveParams n = .ok pset ↔
    ∃ contractParams headerParams, e.contractEffectiveParams n = .ok contractParams ∧
      e.headerGov.effectiveParams n = .ok headerParams ∧
      e.assemble headerParams contractParams = pset := by
  have hif : (if isForked e.koreCompatibleBlock n then e.contractEffectiveParams n
      else .ok .new) = e.contractEffectiveParams n := by
    unfold contractEffectiveParams
    split <;> rfl
  unfold effectiveParams
  simp only [hif, bind_eq_ok, Except.ok.injEq]
  constructor
  · rintro ⟨cp, hcp, hp, hhp, heq⟩
    exact ⟨cp, hp, hcp, hhp, heq⟩
  · rintro ⟨cp, hp, hcp, hhp, heq⟩
    exact ⟨cp, hcp, hp, hhp, heq⟩

theorem updateParams_eq_ok (h : e.updateParams num = .ok e') :
    ∃ headerParams contractParams lastParams,
      e.headerGov.effectiveParams (uint64 (num + 1)) = .ok headerParams ∧
      (if isForkedInt e.koreCompatibleBlock (int64 num) then
        e.contractEffectiveParams (uint64 (num + 1)) else .ok .new) = .ok contractParams ∧
      e' = { e with
        headerGov := { e.headerGov with currentParams := headerParams }
        contractParams := lastParams
        currentParams := e.assemble headerParams contractParams } := by
  unfold updateParams updateContractParams HeaderGov.updateParams at h
  split at h
  · next hkore =>
    simp only [bind_eq_ok, Except.ok.injEq] at h
    obtain ⟨_, ⟨cp, hcp, rfl⟩, _, ⟨hp, hhp, rfl⟩, rfl⟩ := h
    exact ⟨hp, cp, cp, hhp, by rw [if_pos hkore, hcp], rfl⟩
  · next hkore =>
    simp only [bind_eq_ok, Except.ok.injEq] at h
    obtain ⟨_, rfl, _, ⟨hp, hhp, rfl⟩, rfl⟩ := h
    exact ⟨hp, .new, e.contractParams, hhp, by rw [if_neg hkore], rfl⟩

theorem isForked_of_isForkedInt {fork : Option ℕ} (h : isForkedInt fork (int64 num) = true) :
    isForked fork (uint64 (num + 1)) = true := by
  cases fork with
  | none => cases h
  | some b =>
    simp only [isForkedInt, isForked, decide_eq_true_eq] at h ⊢
    unfold int64 at h
    rw [Int.bmod_def] at h
    unfold uint64
    omega

theorem assemble_eq_iff {headerParams contractParams : GovParamSet} :
    e.assemble headerParams contractParams = e.assemble headerParams .new ↔
      ∀ k v, contractParams k = some v → e.assemble headerParams .new k = some v := by
  have happly : ∀ cp k, e.assemble headerParams cp k =
      (cp k).or (e.assemble headerParams .new k) := fun _ _ => rfl
  constructor
  · intro h k v hv
    rw [← h, happly, hv, Option.some_or]
  · intro h
    funext k
    rw [happly]
    cases hv : contractParams k with
    | none => exact Option.none_or
    | some v => exact (h k v hv).symm

theorem effectiveParams_of_epochAlike (h : e.updateParams num = .ok e') (halike : e.EpochAlike e' n) :
    e'.effectiveParams n = e.effectiveParams n := by
  obtain ⟨hp, cp, lp, -, -, rfl⟩ := updateParams_eq_ok h
  unfold EpochAlike at halike
  unfold effectiveParams contractEffectiveParams contractAddrAt
  rw [halike]
  rfl

/-- Header governance that has voted for a contract, and a contract that sets the unit price. -/
def priced (kore : Option ℕ) : MixedEngine .braces where
  initialParams := .new
  defaultParams := .new
  currentParams := .new
  headerGov :=
    { koreCompatibleBlock := kore
      istanbulEpoch := 30
      db := ⟨some [0], fun _ => some []⟩
      newGovParamSetStrMap := fun _ =>
        some fun k => if k = .govParamContract then some (.address 1) else none
      initialParams := .new
      currentParams := .new }
  contractParams := .new
  getAllParamsAt := fun _ _ => some (["governance.unitprice"], [[1]])

def epochSet (epoch : ℕ) : GovernanceSet :=
  Function.update (fun _ => none) .epoch (some ⟨.uint64 epoch, rfl⟩)

/-- Block 30 has voted for epochs of fifty blocks instead of thirty. -/
def longer : MixedEngine .braces :=
  { priced none with
    headerGov :=
      { (priced none).headerGov with
        db := (GovernanceDB.writeGovernance ⟨none, fun _ => none⟩ (epochSet 30) 0).writeGovernance
          (epochSet 50) 30
        newGovParamSetStrMap := fun
          | [(_, .float64 x)] => some fun k => if k = .epoch then some (.uint64 x) else none
          | _ => none } }

end MixedEngine

end Kaia
