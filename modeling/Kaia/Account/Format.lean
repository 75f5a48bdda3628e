import Kaia.Account.KeyFormat

/-! # The format of accounts

An account is written as its type and its data; a legacy account has no type. The storage root
of a contract may keep its counter, and the decoder tries the format with the counter first.
-/

namespace Kaia

open Foundation Rlp

/-- A hash with the counter that tells apart equal nodes of a trie. -/
structure ExtHash where
  hash : Hash
  counter : BitVec 56
  deriving DecidableEq

namespace ExtHash

variable (eh : ExtHash)

def unextend : Hash := eh.hash

def isZeroExtended : Bool := eh.counter == 0

def extendZero (h : Hash) : ExtHash := ⟨h, 0⟩

def ofBits (v : BitVec 312) : ExtHash := ⟨v.extractLsb' 56 256, v.extractLsb' 0 56⟩

def toBits : BitVec 312 := eh.hash ++ eh.counter

theorem ofBits_toBits : ofBits eh.toBits = eh := by
  obtain ⟨h, c⟩ := eh
  simp only [ofBits, toBits, mk.injEq]
  exact ⟨BitVec.extractLsb'_append_eq_left, BitVec.extractLsb'_append_eq_right⟩

theorem toBits_ofBits (v : BitVec 312) : (ofBits v).toBits = v := by
  simp only [ofBits, toBits]
  ext i hi
  simp
  grind

def format : Codec ExtHash :=
  (Codec.array 312 39 rfl).refine (fun v => some (ofBits v)) (fun eh => some eh.toBits)
    fun v eh => by
      constructor
      · rintro ⟨⟩
        rw [toBits_ofBits]
      · rintro ⟨⟩
        rw [ofBits_toBits]

end ExtHash

/-! ## Accounts as they are stored -/

/-- What externally owned accounts and contracts have in common. -/
structure AccountCommon where
  nonce : ℕ
  balance : ℤ
  humanReadable : Bool
  key : AccountKey

/-- The account of a contract. -/
structure SmartContractAccount where
  common : AccountCommon
  storageRoot : ExtHash
  codeHash : Bytes
  codeInfo : Params.CodeInfo

/-- An account as it is stored: hashes stand for the storage and the code. -/
inductive StoredAccount
  | legacy (nonce : ℕ) (balance : ℤ) (root : Hash) (codeHash : Bytes)
  | externallyOwned (common : AccountCommon)
  | smartContract (sca : SmartContractAccount)

def hashFormat : Codec Hash := Codec.array 256 32 rfl

def addressFormat : Codec Address := Codec.array 160 20 rfl

theorem hashFormat_ne_nil (h : Hash) : hashFormat.encode h ≠ some [] :=
  Codec.array_ne_nil 256 32 rfl h

theorem addressFormat_ne_nil (a : Address) : addressFormat.encode a ≠ some [] :=
  Codec.array_ne_nil 160 20 rfl a

/-- The format of `accountCommonSerializable`. -/
def AccountCommon.format : Codec AccountCommon :=
  ((Codec.uint 8).pair (Codec.int.pair (Codec.bool.pair AccountKey.format))).wrap.refine
    (fun x => some ⟨x.1, x.2.1, x.2.2.1, x.2.2.2⟩)
    (fun c => some (c.nonce, c.balance, c.humanReadable, c.key)) fun x c => by
      obtain ⟨_, _, _, _⟩ := x
      obtain ⟨_, _, _, _⟩ := c
      simp [eq_comm]

def legacyFormat : Codec (ℕ × ℤ × Hash × Bytes) :=
  ((Codec.uint 8).pair (Codec.int.pair (hashFormat.pair Codec.bytes))).wrap

namespace SmartContractAccount

def serializable {ρ : Type} (root : Codec ρ) : Codec (AccountCommon × ρ × Bytes × ℕ) :=
  (AccountCommon.format.pair (root.pair (Codec.bytes.pair (Codec.uint 1)))).wrap

def plain : Codec (AccountCommon × Hash × Bytes × ℕ) := serializable hashFormat

def ext : Codec (AccountCommon × ExtHash × Bytes × ℕ) := serializable ExtHash.format

variable (sca : SmartContractAccount)

def unextend : SmartContractAccount :=
  { sca with storageRoot := .extendZero sca.storageRoot.unextend }

def toSerializable : AccountCommon × Hash × Bytes × ℕ :=
  (sca.common, sca.storageRoot.unextend, sca.codeHash, sca.codeInfo)

def toSerializableExt : AccountCommon × ExtHash × Bytes × ℕ :=
  (sca.common, sca.storageRoot, sca.codeHash, sca.codeInfo)

def fromSerializable (o : AccountCommon × Hash × Bytes × ℕ) : SmartContractAccount :=
  ⟨o.1, .extendZero o.2.1, o.2.2.1, o.2.2.2⟩

def fromSerializableExt (o : AccountCommon × ExtHash × Bytes × ℕ) : SmartContractAccount :=
  ⟨o.1, o.2.1, o.2.2.1, o.2.2.2⟩

def encodeRLP : Option Bytes := plain.encode sca.toSerializable

def encodeRLPExt : Option Bytes :=
  if sca.storageRoot.isZeroExtended then plain.encode sca.toSerializable
  else ext.encode sca.toSerializableExt

/-- Take one value off the stream, and decode it with the counter or else without. -/
def decodeRLP (b : Bytes) : Option (SmartContractAccount × Bytes) := do
  let (item, rest) ← split b
  let savedStream ← join item
  match ext.decode savedStream with
  | some (o, _) => return (fromSerializableExt o, rest)
  | none =>
    let (o, _) ← plain.decode savedStream
    return (fromSerializable o, rest)

end SmartContractAccount

namespace StoredAccount

inductive DecodeError
  | rlp
  | undefinedAccountType
  | moreThanOneValue
  /-- The process ends: legacy accounts are deprecated. -/
  | legacyDeprecated
  deriving DecidableEq

def externallyOwnedAccountType : ℕ := 1

def smartContractAccountType : ℕ := 2

/-- `EncodeRLP` of a serializer with the account in it. -/
def encodeRLP (preserveExtHash : Bool) : StoredAccount → Option Bytes
  | .legacy nonce balance root codeHash => legacyFormat.encode (nonce, balance, root, codeHash)
  | .externallyOwned common => do
    let t ← (Codec.uint 1).encode externallyOwnedAccountType
    let d ← AccountCommon.format.encode common
    return t ++ d
  | .smartContract sca => do
    let t ← (Codec.uint 1).encode smartContractAccountType
    let d ← if preserveExtHash then sca.encodeRLPExt else sca.encodeRLP
    return t ++ d

def orRlp {α : Type} (o : Option α) : Except DecodeError α := o.elim (.error .rlp) .ok

/-- `DecodeBytes` into a serializer; making a legacy account ends the process. -/
def decodeBytes (b : Bytes) : Except DecodeError StoredAccount :=
  match (Codec.uint 1).decode b with
  | none => .error .legacyDeprecated
  | some (0, _) => .error .legacyDeprecated
  | some (1, b) => do
    let (common, rest) ← orRlp (AccountCommon.format.decode b)
    if rest = [] then .ok (.externallyOwned common) else .error .moreThanOneValue
  | some (2, b) => do
    let (sca, rest) ← orRlp (SmartContractAccount.decodeRLP b)
    if rest = [] then .ok (.smartContract sca) else .error .moreThanOneValue
  | some _ => .error .undefinedAccountType

/-- A decoder that does not end the process. -/
def safeDecodeRLP (b : Bytes) : Option StoredAccount :=
  match b with
  | [] => none
  | t :: _ =>
    match (Codec.uint 1).decodeBytes [t] with
    | none => none
    | some 0 => none
    | some _ => (decodeBytes b).toOption

def unextendSerializedAccount (b : Bytes) : Option Bytes :=
  match safeDecodeRLP b with
  | some (.smartContract sca) => encodeRLP false (.smartContract sca)
  | _ => some b

end StoredAccount

end Kaia
