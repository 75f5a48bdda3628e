import Kaia.Transaction.Fields

/-! # Admission to the pool and execution in a block

`validateTx` decides on the state of the head; a block then buys the gas and checks the nonce, the
intrinsic gas, the transfer and the size of the init code. The pool has the rules of the next block,
but asks for the intrinsic gas with the number of the head.
-/

namespace Kaia

open Foundation Params

inductive TxError
  | txTypeNotSupported
  | maxInitCodeSizeExceeded
  | invalidChainId
  | tipVeryHigh
  | feeCapVeryHigh
  | tipAboveFeeCap
  | feeCapBelowBaseFee
  | invalidGasTipCap
  | invalidGasFeeCap
  | gasPriceBelowBaseFee
  | invalidUnitPrice
  | oversizedData
  | negativeValue
  | sender
  | feePayer
  | nonceTooLow
  | nonceTooHigh
  | feeRatioOutOfRange
  | insufficientFundsFrom
  | insufficientFundsFeePayer
  | gasUintOverflow
  | maxKeysExceed
  | intrinsicGas
  | invalid
  | insufficientBalanceForGas
  | insufficientBalanceForGasFeePayer
  | insufficientBalance
  deriving DecidableEq

/-- A check that returns an error under a condition. -/
def rejectIf (p : Prop) [Decidable p] (e : TxError) : Except TxError Unit :=
  if p then .error e else .ok ()

theorem rejectIf_eq_ok {p : Prop} [Decidable p] {e : TxError} {u : Unit} :
    rejectIf p e = .ok u ↔ ¬ p := by
  unfold rejectIf
  split <;> simp_all

theorem rejectIf_bind {p : Prop} [Decidable p] {e : TxError} {α : Type}
    {f : Unit → Except TxError α} {a : α} : (rejectIf p e >>= f) = .ok a ↔ ¬ p ∧ f () = .ok a := by
  unfold rejectIf
  split <;> simp_all [bind, Except.bind]

/-! ## Transactions -/

namespace Transaction

variable (tx : Transaction)

def field (g : TxField) : Option g.Val := TxField.get? g tx.type.fields tx.data

def nonce : ℕ := (tx.field .accountNonce).getD (0 : ℕ)

def gas : ℕ := (tx.field .gasLimit).getD (0 : ℕ)

def value : ℤ := (tx.field .amount).getD (0 : ℤ)

/-- `Data`. -/
def payload : Bytes := (tx.field .payload).getD ([] : Bytes)

/-- `To`. -/
def recipient : Option Address :=
  (tx.field .recipientOrNil).getD (tx.field .recipient : Option Address)

def gasFeeCap : ℤ := (tx.field .gasFeeCap).getD ((tx.field .price).getD (0 : ℤ))

def gasTipCap : ℤ := (tx.field .gasTipCap).getD ((tx.field .price).getD (0 : ℤ))

def gasPrice : ℤ := tx.gasFeeCap

def feePayer? : Option Address := tx.field .feePayer

def feeRatio? : Option ℕ := tx.field .feeRatio

def fee : ℤ := tx.gasPrice * tx.gas

def cost : ℤ := tx.fee + tx.value

end Transaction

theorem TxField.isSome_get? (g : TxField) :
    ∀ (fs : List TxField) (x : Vals fs), (get? g fs x).isSome ↔ g ∈ fs
  | [], _ => by simp [get?]
  | f :: fs, x => by
    rw [get?, List.mem_cons]
    split
    · simp_all
    · rw [isSome_get? g fs x.2, or_iff_right (by rintro rfl; contradiction)]

theorem Transaction.isSome_feePayer? (tx : Transaction) (h : tx.feeRatio?.isSome) :
    tx.feePayer?.isSome := by
  have hfields : ∀ t : TxType, TxField.feeRatio ∈ t.fields → TxField.feePayer ∈ t.fields := by
    rintro ⟨⟩ <;> decide
  exact (TxField.isSome_get? ..).mpr (hfields _ ((TxField.isSome_get? ..).mp h))

/-! ## Intrinsic gas -/

def txGas : ℕ := 21000

def txGasContractCreation : ℕ := 53000

def txDataZeroGas : ℕ := 4

def txDataNonZeroGas : ℕ := 68

def txDataGas : ℕ := 100

def initCodeWordGas : ℕ := 2

def txAccessListAddressGas : ℕ := 2400

def txAccessListStorageKeyGas : ℕ := 1900

def txAccountCreationGasPerKey : ℕ := 20000

def txGasFeeDelegated : ℕ := 10000

def txGasFeeDelegatedWithRatio : ℕ := 15000

def txGasHumanReadable : ℕ := 4000000000

def toWordSize (size : ℕ) : ℕ :=
  if 2 ^ 64 - 1 - 31 < size then (2 ^ 64 - 1) / 32 + 1 else (size + 31) / 32

def intrinsicGasPayload (gas : ℕ) (data : Bytes) (isContractCreation : Bool) (r : Rules) :
    Except TxError ℕ := do
  let length := data.length
  if length = 0 then return gas
  rejectIf ((2 ^ 64 - 1 - gas) / txDataGas < length) .gasUintOverflow
  let gas := gas + length * txDataGas
  if isContractCreation && r.isShanghai then
    let lenWords := toWordSize length
    rejectIf ((2 ^ 64 - 1 - gas) / initCodeWordGas < lenWords) .gasUintOverflow
    return gas + lenWords * initCodeWordGas
  return gas

def intrinsicGasPayloadLegacy (gas : ℕ) (data : Bytes) : Except TxError ℕ := do
  let nz := data.countP (· ≠ 0)
  rejectIf ((2 ^ 64 - 1 - gas) / txDataNonZeroGas < nz) .gasUintOverflow
  let gas := gas + nz * txDataNonZeroGas
  let z := data.length - nz
  rejectIf ((2 ^ 64 - 1 - gas) / txDataZeroGas < z) .gasUintOverflow
  return gas + z * txDataZeroGas

/-- `IntrinsicGas`, of the transactions of Ethereum. -/
def ethereumIntrinsicGas (data : Bytes) (accessList : List AccessTuple) (contractCreation : Bool)
    (r : Rules) : Except TxError ℕ := do
  let gas := if contractCreation then txGasContractCreation else txGas
  let gas ← if r.isIstanbul then intrinsicGasPayload gas data contractCreation r
    else intrinsicGasPayloadLegacy gas data
  return uint64 (gas + accessList.length * txAccessListAddressGas +
    (accessList.map fun a => (a.storageKeys.getD []).length).sum * txAccessListStorageKeyGas)

def AccountKey.accountCreationGas : AccountKey → Except TxError ℕ
  | .nil | .legacy | .fail => .ok 0
  | .publicKey _ => .ok txAccountCreationGasPerKey
  | .weightedMultiSig _ keys =>
    if maxNumKeysForMultiSig < keys.length then .error .maxKeysExceed
    else .ok (keys.length * txAccountCreationGasPerKey)
  | .roleBased keys => return (← keys.attach.mapM fun ⟨k, _⟩ => k.accountCreationGas).sum

/-- The last bits of a type are for fee delegation; only deployments have another base cost. -/
def Transaction.intrinsicGas (r : Rules) (tx : Transaction) : Except TxError ℕ :=
  let feeDelegated := match tx.type.code % 8 with
    | 1 => txGasFeeDelegated
    | 2 => txGasFeeDelegatedWithRatio
    | _ => 0
  match tx.type.code / 8 with
  | 1 | 2 | 6 | 9 => intrinsicGasPayload (txGas + feeDelegated) tx.payload false r
  | 4 => return txGas + (← ((tx.field .key).getD AccountKey.nil).accountCreationGas) + feeDelegated
  | 5 =>
    let humanReadable := bif (tx.field .humanReadable).getD false then txGasHumanReadable else 0
    intrinsicGasPayload (txGasContractCreation + feeDelegated + humanReadable) tx.payload true r
  | 7 => .ok (txGas + feeDelegated)
  | _ => ethereumIntrinsicGas tx.payload ((tx.field .accessList).getD ([] : List AccessTuple))
      tx.recipient.isNone r

/-- The recovery of signatures and the validation of account keys, with its gas. -/
structure Signer where
  isProtected : Transaction → Bool
  chainId : Transaction → ℤ
  size : Transaction → ℕ
  sender : Transaction → Address
  validateSender : Rules → Transaction → Except TxError ℕ
  validateFeePayer : Rules → Transaction → Except TxError ℕ
  validate : ℕ → Transaction → Except TxError Unit

variable (S : Signer)

def Signer.gasFeePayer (r : Rules) (tx : Transaction) : Except TxError ℕ :=
  if tx.feePayer?.isSome then S.validateFeePayer r tx else .ok 0

/-- `AsMessageWithAccountKeyPicker`: the validated intrinsic gas. -/
def Signer.validatedIntrinsicGas (r : Rules) (tx : Transaction) : Except TxError ℕ := do
  let intrinsicGas ← tx.intrinsicGas r
  let gasFrom ← S.validateSender r tx
  let gasFeePayer ← S.gasFeePayer r tx
  return uint64 (intrinsicGas + gasFrom + gasFeePayer)

/-! ## Admission -/

/-- What is read of the state. -/
structure Accounts where
  balance : Address → ℤ
  nonce : Address → ℕ

def Accounts.subBalance (st : Accounts) (a : Address) (amount : ℤ) : Accounts :=
  { st with balance := fun b => if b = a then st.balance a - amount else st.balance b }

def calcFeeWithRatio (feeRatio : ℕ) (fee : ℤ) : ℤ × ℤ :=
  (fee * feeRatio / 100, fee - fee * feeRatio / 100)

def maxInitCodeSize : ℕ := 2 * 24576

def maxTxDataSize : ℕ := 4 * 32 * 1024

/-- What `validateTx` reads of the pool: the rules are those of the next block. -/
structure Admission where
  rules : Rules
  gasPrice : ℕ
  currentBlockNumber : ℕ
  chainID : ℤ

namespace Admission

variable (pool : Admission) (config : ℕ → Rules) (st : Accounts) (tx : Transaction)

def validatePrice : Except TxError Unit :=
  if tx.type = .ethereumDynamicFee then do
    rejectIf (2 ^ 256 ≤ tx.gasTipCap.natAbs) .tipVeryHigh
    rejectIf (2 ^ 256 ≤ tx.gasFeeCap.natAbs) .feeCapVeryHigh
    rejectIf (tx.gasFeeCap < tx.gasTipCap) .tipAboveFeeCap
    if pool.rules.isMagma then rejectIf (tx.gasFeeCap < pool.gasPrice) .feeCapBelowBaseFee
    else do
      rejectIf (pool.gasPrice ≠ tx.gasTipCap) .invalidGasTipCap
      rejectIf (pool.gasPrice ≠ tx.gasFeeCap) .invalidGasFeeCap
  else if pool.rules.isMagma then rejectIf (tx.gasPrice < pool.gasPrice) .gasPriceBelowBaseFee
  else rejectIf (pool.gasPrice ≠ tx.gasPrice) .invalidUnitPrice

def validateBalances (feePayer : Option Address) : Except TxError Unit :=
  let from' := S.sender tx
  match feePayer with
  | some feePayer => do
    match tx.feeRatio? with
    | some feeRatio => do
      rejectIf (¬ (1 ≤ feeRatio ∧ feeRatio ≤ 99)) .feeRatioOutOfRange
      let (feeByFeePayer, feeBySender) := calcFeeWithRatio feeRatio tx.fee
      rejectIf (st.balance from' < tx.value + feeBySender) .insufficientFundsFrom
      rejectIf (st.balance feePayer < feeByFeePayer) .insufficientFundsFeePayer
    | none => do
      rejectIf (st.balance from' < tx.value) .insufficientFundsFrom
      rejectIf (st.balance feePayer < tx.fee) .insufficientFundsFeePayer
    rejectIf (from' = feePayer ∧ st.balance from' < tx.cost) .insufficientFundsFrom
  | none => rejectIf (st.balance from' < tx.cost) .insufficientFundsFrom

def validateTx : Except TxError Unit := do
  rejectIf (!pool.rules.isEthTxType && tx.type.isEthTypedTransaction) .txTypeNotSupported
  rejectIf (!pool.rules.isEthTxType && tx.type = .ethereumDynamicFee) .txTypeNotSupported
  rejectIf (pool.rules.isShanghai ∧ tx.recipient = none ∧ maxInitCodeSize < tx.payload.length)
    .maxInitCodeSizeExceeded
  rejectIf (S.isProtected tx ∧ S.chainId tx ≠ pool.chainID) .invalidChainId
  pool.validatePrice tx
  rejectIf (maxTxDataSize < S.size tx) .oversizedData
  rejectIf (tx.value < 0) .negativeValue
  let rules := config pool.currentBlockNumber
  let gasFrom ← S.validateSender rules tx
  rejectIf (tx.nonce < st.nonce (S.sender tx)) .nonceTooLow
  let gasFeePayer ← S.gasFeePayer rules tx
  validateBalances S st tx tx.feePayer?
  let intrGas ← tx.intrinsicGas rules
  rejectIf (tx.gas < uint64 (intrGas + gasFrom + gasFeePayer)) .intrinsicGas
  S.validate pool.currentBlockNumber tx

end Admission

/-! ## Execution -/

variable (r : Rules) (gasPrice : ℤ) (tx : Transaction) (st : Accounts)

def Transaction.effectiveGasPrice (baseFee : Option ℕ) : ℤ :=
  match baseFee with
  | none => tx.gasPrice
  | some b => if r.isKaia then min tx.gasTipCap (max 0 (tx.gasFeeCap - b)) + b else b

/-- The checks of `buyGas`, and the state with the fee deducted. -/
def buyGas : Except TxError Accounts := do
  let mgval := tx.gas * gasPrice
  let sender := S.sender tx
  let feePayer := tx.feePayer?.getD sender
  match tx.feeRatio? with
  | some feeRatio => do
    let (feePayerFee, senderFee) := calcFeeWithRatio feeRatio mgval
    rejectIf (st.balance feePayer < feePayerFee) .insufficientBalanceForGasFeePayer
    rejectIf (st.balance sender < senderFee) .insufficientBalanceForGas
    return (st.subBalance feePayer feePayerFee).subBalance sender senderFee
  | none => do
    rejectIf (st.balance feePayer < mgval) .insufficientBalanceForGasFeePayer
    return st.subBalance feePayer mgval

def preCheck : Except TxError Accounts := do
  rejectIf (st.nonce (S.sender tx) < tx.nonce) .nonceTooHigh
  rejectIf (tx.nonce < st.nonce (S.sender tx)) .nonceTooLow
  buyGas S gasPrice tx st

/-- `TransitionDb` up to the execution of the message. -/
def transitionDb (amount : ℕ) : Except TxError Accounts := do
  let st ← preCheck S gasPrice tx st
  rejectIf (tx.gas < amount) .intrinsicGas
  rejectIf (0 < tx.value ∧ st.balance (S.sender tx) < tx.value) .insufficientBalance
  rejectIf (r.isShanghai ∧ tx.recipient = none ∧ maxInitCodeSize < tx.payload.length)
    .maxInitCodeSizeExceeded
  return st

def applyTransaction (baseFee : Option ℕ) : Except TxError Accounts := do
  let amount ← S.validatedIntrinsicGas r tx
  transitionDb S r (tx.effectiveGasPrice r baseFee) tx st amount

/-! ## What is admitted passes -/

variable {S} {pool : Admission} {config : ℕ → Rules} {st : Accounts} {tx : Transaction}

theorem Admission.le_gasPrice (h : pool.validatePrice tx = .ok ()) :
    (pool.gasPrice : ℤ) ≤ tx.gasPrice := by
  unfold validatePrice at h
  unfold Transaction.gasPrice at *
  split_ifs at h <;> simp only [rejectIf_bind, rejectIf_eq_ok] at h <;> omega

theorem effectiveGasPrice_le {r : Rules} {baseFee : Option ℕ}
    (hfee : ∀ b ∈ baseFee, (b : ℤ) ≤ tx.gasPrice) :
    tx.effectiveGasPrice r baseFee ≤ tx.gasPrice := by
  unfold Transaction.effectiveGasPrice
  cases baseFee with
  | none => exact le_rfl
  | some b =>
    have hb := hfee b rfl
    unfold Transaction.gasPrice at *
    dsimp only
    split_ifs <;> omega

theorem calcFeeWithRatio_mono {ratio : ℕ} (hratio : ratio ≤ 99) {x y : ℤ} (h : x ≤ y) :
    (calcFeeWithRatio ratio x).1 ≤ (calcFeeWithRatio ratio y).1 ∧
      (calcFeeWithRatio ratio x).2 ≤ (calcFeeWithRatio ratio y).2 := by
  have hlow : 0 ≤ (y - x) * ratio := Int.mul_nonneg (by omega) (by omega)
  have hhigh : (y - x) * ratio ≤ (y - x) * 100 :=
    Int.mul_le_mul_of_nonneg_left (by omega) (by omega)
  rw [Int.sub_mul] at hlow hhigh
  unfold calcFeeWithRatio
  omega

/-- Whoever pays, checked balances cover the fee at a price that is not above, and the value. -/
theorem buyGas_of_validateBalances {gasPrice : ℤ}
    (h : Admission.validateBalances S st tx tx.feePayer? = .ok ()) (hvalue : 0 ≤ tx.value)
    (hprice : gasPrice ≤ tx.gasPrice) :
    ∃ st', buyGas S gasPrice tx st = .ok st' ∧ tx.value ≤ st'.balance (S.sender tx) := by
  have hmgval : tx.gas * gasPrice ≤ tx.fee := by
    rw [Transaction.fee, Int.mul_comm tx.gasPrice]
    exact Int.mul_le_mul_of_nonneg_left hprice (by omega)
  have hpayer := tx.isSome_feePayer?
  unfold Admission.validateBalances Transaction.cost at h
  unfold buyGas
  rcases hr : tx.feeRatio? with _ | ratio <;> rcases hf : tx.feePayer? with _ | feePayer <;>
    simp only [hr, hf, rejectIf_bind, rejectIf_eq_ok, Option.getD_none, Option.getD_some, not_and,
      Int.not_lt] at h hpayer ⊢
  · exact ⟨_, ⟨by omega, rfl⟩, by simp only [Accounts.subBalance, if_true]; omega⟩
  · obtain ⟨hfrom, hfee, hcost⟩ := h
    refine ⟨_, ⟨by omega, rfl⟩, ?_⟩
    unfold Accounts.subBalance
    dsimp only
    split_ifs with heq
    · have := hcost heq
      rw [← heq]
      omega
    · exact hfrom
  · simp at hpayer
  · obtain ⟨hratio, hfrom, hfeePayer, hcost⟩ := h
    have hmax : ratio ≤ 99 := by omega
    have hmono := calcFeeWithRatio_mono hmax hmgval
    have hshares : (calcFeeWithRatio ratio (tx.gas * gasPrice)).1 +
        (calcFeeWithRatio ratio (tx.gas * gasPrice)).2 = tx.gas * gasPrice := by
      unfold calcFeeWithRatio
      omega
    refine ⟨_, ⟨by omega, by omega, rfl⟩, ?_⟩
    unfold Accounts.subBalance
    dsimp only
    rw [if_pos rfl]
    split_ifs with heq
    · have := hcost heq
      rw [← heq]
      omega
    · omega

theorem Admission.validateTx_spec (h : pool.validateTx S config st tx = .ok ()) :
    ¬ (pool.rules.isShanghai ∧ tx.recipient = none ∧ maxInitCodeSize < tx.payload.length) ∧
      pool.validatePrice tx = .ok () ∧ 0 ≤ tx.value ∧
      validateBalances S st tx tx.feePayer? = .ok () ∧
      ∃ g ≤ tx.gas, S.validatedIntrinsicGas (config pool.currentBlockNumber) tx = .ok g := by
  unfold validateTx at h
  simp only [↓rejectIf_bind, bind_eq_ok] at h
  obtain ⟨-, -, hinit, -, ⟨⟩, hprice, -, hvalue, gasFrom, hfrom, -, gasFeePayer, hfeePayer, ⟨⟩,
    hfunds, intrGas, hintr, hgas, -⟩ := h
  refine ⟨hinit, hprice, Int.not_lt.mp hvalue, hfunds, _, Nat.not_lt.mp hgas, ?_⟩
  simp only [Signer.validatedIntrinsicGas, bind_eq_ok]
  exact ⟨_, hintr, _, hfrom, _, hfeePayer, rfl⟩

/-- An admitted transaction executes exactly if its gas covers the intrinsic gas of the block. -/
theorem admitted_executes_iff {n : ℕ} {baseFee : Option ℕ}
    (hok : pool.validateTx S config st tx = .ok ())
    (hnonce : tx.nonce = st.nonce (S.sender tx)) (hrules : config n = pool.rules)
    (hfee : ∀ b ∈ baseFee, b ≤ pool.gasPrice) :
    ((∃ st', applyTransaction S (config n) tx st baseFee = .ok st') ↔
      ∃ g ≤ tx.gas, S.validatedIntrinsicGas (config n) tx = .ok g) ∧
    (config pool.currentBlockNumber = config n →
      ∃ st', applyTransaction S (config n) tx st baseFee = .ok st') := by
  obtain ⟨hinit, hprice, hvalue, hfunds, hgas⟩ := Admission.validateTx_spec hok
  have hbase : ∀ b ∈ baseFee, (b : ℤ) ≤ tx.gasPrice := fun b hb =>
    (Int.ofNat_le.mpr (hfee b hb)).trans (Admission.le_gasPrice hprice)
  obtain ⟨st', hbuy, htransfer⟩ :=
    buyGas_of_validateBalances hfunds hvalue (effectiveGasPrice_le (r := config n) hbase)
  have hiff : (∃ st', applyTransaction S (config n) tx st baseFee = .ok st') ↔
      ∃ g ≤ tx.gas, S.validatedIntrinsicGas (config n) tx = .ok g := by
    simp only [applyTransaction, transitionDb, preCheck, ↓rejectIf_bind, bind_eq_ok, hbuy]
    constructor
    · rintro ⟨-, g, hg, -, -, hle, -⟩
      exact ⟨g, Nat.not_lt.mp hle, hg⟩
    · rintro ⟨g, hle, hg⟩
      exact ⟨st', g, hg, st', ⟨by omega, by omega, rfl⟩, by omega, by omega, hrules ▸ hinit, rfl⟩
  exact ⟨hiff, fun hsame => hiff.mpr (hsame ▸ hgas)⟩

/-! ## The block of a fork -/

/-- A transaction that deploys a contract of one byte, with the gas that is asked for before
Shanghai. -/
def deployment : Transaction :=
  ⟨.legacyTransaction, ((0 : ℕ), (25 : ℤ), (53100 : ℕ), (none : Option Address), (0 : ℤ),
    ([0] : Bytes), (0 : ℕ), (0 : ℕ), (0 : ℕ), ())⟩

def shanghaiAtTen (n : ℕ) : Rules :=
  ⟨1, true, true, true, true, true, decide (10 ≤ n), false, false, false⟩

def anySigner : Signer :=
  ⟨fun _ => true, fun _ => 1, fun _ => 100, fun _ => 1, fun _ _ => .ok 0, fun _ _ => .ok 0,
    fun _ _ => .ok ()⟩

def richAccounts : Accounts := ⟨fun _ => 10 ^ 18, fun _ => 0⟩

/-- Before Shanghai the pool admits a deployment that the next block does not execute. -/
theorem deployment_lacks_gas :
    (Admission.mk (shanghaiAtTen 10) 25 9 1).validateTx anySigner shanghaiAtTen richAccounts
        deployment = .ok () ∧
      deployment.nonce = richAccounts.nonce (anySigner.sender deployment) ∧
      (applyTransaction anySigner (shanghaiAtTen 10) deployment richAccounts (some 25)).map
        (fun _ => ()) = .error .intrinsicGas := by
  decide +kernel

/-- One block earlier the rules do not change, and it is executed. -/
theorem deployment_executes :
    (Admission.mk (shanghaiAtTen 9) 25 8 1).validateTx anySigner shanghaiAtTen richAccounts
        deployment = .ok () ∧
      ∃ st,
        applyTransaction anySigner (shanghaiAtTen 9) deployment richAccounts (some 25) = .ok st :=
  have hok : (Admission.mk (shanghaiAtTen 9) 25 8 1).validateTx anySigner shanghaiAtTen richAccounts
      deployment = .ok () := by decide +kernel
  ⟨hok, (admitted_executes_iff hok (by decide +kernel) rfl (by decide)).2 (by decide)⟩

end Kaia
