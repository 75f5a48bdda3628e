import Kaia.Transaction.Fields

/-! # The format of transactions

A transaction is written as its type and its fields; a legacy one has no type, and Ethereum types
have an envelope. If no type of up to two bytes can be read, a legacy transaction is decoded from
where the stream then is.
-/

namespace Kaia

open Foundation Rlp

/-! ## Signatures -/

def secp256k1N : ℕ := 0xfffffffffffffffffffffffffffffffebaaedce6af48a03bbfd25e8cd0364141

def secp256k1halfN : ℕ := secp256k1N / 2

def validateSignatureValues (v r s : ℕ) (homestead : Bool) : Bool :=
  if r < 1 ∨ s < 1 then false
  else if homestead ∧ secp256k1halfN < s then false
  else r < secp256k1N && s < secp256k1N && (v == 0 || v == 1)

def isProtectedV (v : ℕ) : Bool :=
  if v < 2 ^ 8 then v ≠ 27 && v ≠ 28 && v ≠ 1 && v ≠ 0 else true

def deriveChainId (v : ℕ) : ℕ :=
  if v < 2 ^ 64 then
    if v = 27 ∨ v = 28 then 0 else ((v - 35 : ℤ) % 2 ^ 64).toNat / 2
  else (v - 35) / 2

def TxSignature.validateSignature (sig : TxSignature) : Bool :=
  if isProtectedV sig.v then
    let chainID : ℕ := deriveChainId sig.v % 2 ^ 64
    validateSignatureValues ((sig.v - 35 - 2 * chainID : ℤ) % 2 ^ 8).toNat sig.r sig.s false
  else validateSignatureValues ((sig.v - 27 : ℤ) % 2 ^ 8).toNat sig.r sig.s true

def validateTxSignatures : List TxSignature → Bool
  | [] => false
  | sigs@(sig :: _) =>
    sigs.all fun s => s.validateSignature && deriveChainId sig.v == deriveChainId s.v

namespace Transaction

variable (tx : Transaction)

def get? (f : TxField) : Option f.Val := TxField.get? f tx.type.fields tx.data

def signature? : Option TxSignature := do
  let v ← tx.get? .v
  let r ← tx.get? .r
  let s ← tx.get? .s
  return ⟨v, r, s⟩

def validateSignature : Bool :=
  match tx.type with
  | .legacyTransaction => tx.signature?.any (·.validateSignature)
  | .ethereumAccessList | .ethereumDynamicFee =>
    tx.signature?.any fun sig => validateSignatureValues (sig.v % 2 ^ 8) sig.r sig.s false
  | _ => (tx.get? .txSignatures).any validateTxSignatures

/-! ## Encoding -/

def dataFormat (t : TxType) : Codec (TxField.Vals t.fields) := (TxField.valsFormat t.fields).wrap

def encodeRLP : Option Bytes :=
  ((dataFormat tx.type).encode tx.data).bind fun data =>
    if tx.type = .legacyTransaction then some data
    else if tx.type.isEthTypedTransaction then
      some (UInt8.ofNat TxType.ethereumTxTypeEnvelope :: UInt8.ofNat tx.type.code :: data)
    else ((Codec.uint 2).encode tx.type.code).map (· ++ data)

/-! ## Decoding -/

inductive DecodeError
  | rlp
  | undefinedTxType
  | invalidSig
  | moreThanOneValue
  deriving DecidableEq

def decodeData (t : TxType) (b : Bytes) : Except DecodeError (Transaction × Bytes) :=
  match (dataFormat t).decode b with
  | none => .error .rlp
  | some (data, rest) => .ok (⟨t, data⟩, rest)

def decodeEnvelope (txType : ℕ) (b : Bytes) : Except DecodeError (ℕ × Bytes) :=
  if txType = TxType.ethereumTxTypeEnvelope then
    match Codec.readUint 2 b with
    | (none, _) => .error .rlp
    | (some ethType, rest) => .ok (txType <<< 8 ||| ethType, rest)
  else .ok (txType, b)

/-- `DecodeRLP` of the serializer. -/
def decodeTxInternalData (b : Bytes) : Except DecodeError (Transaction × Bytes) :=
  match Codec.readUint 2 b with
  | (none, rest) => decodeData .legacyTransaction rest
  | (some txType, rest) => do
    let (txType, rest) ← decodeEnvelope txType rest
    match TxType.ofCode txType with
    | none => .error .undefinedTxType
    | some t => decodeData t rest

def decodeRLP (b : Bytes) : Except DecodeError (Transaction × Bytes) := do
  let (tx, rest) ← decodeTxInternalData b
  if tx.validateSignature then return (tx, rest) else .error .invalidSig

def unmarshalBinary (b : Bytes) : Except DecodeError Transaction := do
  let (tx, rest) ← decodeRLP b
  if rest = [] then return tx else .error .moreThanOneValue

end Transaction

end Kaia
